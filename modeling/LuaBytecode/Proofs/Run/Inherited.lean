import LuaBytecode.Execution
import LuaBytecode.Service

/-!
# Properties that actions inherit from their parts

Operations with metamethods are put together from looks at tables, calls, failures and raw writes.
A property that these have, and that sequences have if their parts do, holds of every such operation.

* `Engine.SeesTables` : looks at the state that see nothing but tables.
* `Action.Inherited` : the properties of this kind.
* `Action.Inherited.arith`, `Action.Inherited.index`, `Action.Inherited.assign` and others : the
  operations have them.
-/

namespace LuaBytecode

/-- The failure is a value that a script has raised. -/
def Cause.isRaised : Cause → Bool
  | raised _ => true
  | _ => false

/-! ### Looks at tables -/

/-- A look at the state that sees nothing but tables, and where the globals and the default
metamethods are. -/
def Engine.SeesTables {α : Type} (f : Engine → α) : Prop :=
  ∀ ⦃e e' : Engine⦄, e'.heap.tables = e.heap.tables → e'.globals = e.globals →
    e'.defaultMeta = e.defaultMeta → f e' = f e

namespace Engine.SeesTables

variable {α β : Type}

theorem table (t : TableRef) : SeesTables fun e => e.heap.table t := by
  intro e e' htables _ _
  show e'.heap.tables.getD t.index {} = e.heap.tables.getD t.index {}
  rw [htables]

theorem map {f : Engine → α} (h : SeesTables f) (g : α → β) : SeesTables fun e => g (f e) :=
  fun _ _ htables hglobals hmeta => congrArg g (h htables hglobals hmeta)

theorem metatableFor (v : Value) : SeesTables (·.metatableFor v) := by
  intro e e' htables hglobals hmeta
  cases v with
  | table t => exact (table t).map Table.metatable htables hglobals hmeta
  | _ => exact congrArg some hmeta

theorem metamethod (v : Value) (event : String) : SeesTables (·.metamethod v event) := by
  intro e e' htables hglobals hmeta
  simp only [Engine.metamethod, metatableFor v htables hglobals hmeta, Heap.table, htables]

theorem getGlobal (name : String) : SeesTables (·.getGlobal name) := by
  intro e e' htables hglobals _
  simp only [Engine.getGlobal, hglobals, Heap.table, htables]

end Engine.SeesTables

namespace Action

open Engine (SeesTables)

/-- A property of actions that sequences inherit, and that looks at tables, failures of the engine,
calls and raw writes have. -/
structure Inherited (P : ∀ {α : Type}, Action α → Prop) : Prop where
  pure : ∀ {α : Type} (a : α), P (Pure.pure a : Action α)
  bind : ∀ {α β : Type} {x : Action α} {f : α → Action β}, P x → (∀ a, P (f a)) → P (x >>= f)
  read : ∀ {α : Type} {f : Engine → α}, SeesTables f → P (Action.read f)
  fail : ∀ {α : Type} {c : Cause}, c.isRaised = false → P (Action.fail (.ofCause c) : Action α)
  call : ∀ f args, P (Action.call f args)
  setRaw : ∀ t key v, P (Action.setRaw t key v)

theorem isRaised_arithFault (op : Operator) (a b : Value) :
    (arithFault op a b).isRaised = false := by
  unfold arithFault
  dsimp only
  generalize (if a.toDouble?.isNone then a else b) = culprit
  split
  · split <;> rfl
  · rfl

namespace Inherited

variable {P : ∀ {α : Type}, Action α → Prop} (h : Inherited P)

include h

theorem callFirst (f : Value) (args : List Value) : P (Action.callFirst f args) :=
  h.bind (h.call f args) fun _ => h.pure _

theorem binaryMetamethod (event : String) (a b : Value) :
    P (Action.binaryMetamethod event a b) := by
  have called (handler : Value) : P (α := Option Value)
      (if handler.isNil then Pure.pure none
        else do return some (← Action.callFirst handler [a, b])) := by
    split
    · exact h.pure _
    · exact h.bind (h.callFirst _ _) fun _ => h.pure _
  refine h.bind (h.read (.metamethod a event)) fun mine => ?_
  dsimp only
  split
  · exact h.bind (h.read (.metamethod b event)) called
  · exact h.bind (h.pure _) called

/-- Without a metamethod the operation fails, or goes on in some other way. -/
theorem orElse {α : Type} {event : String} {a b : Value} {f : Option Value → Action α}
    (hsome : ∀ v, P (f (some v))) (hnone : P (f none)) :
    P (Action.binaryMetamethod event a b >>= f) := by
  refine h.bind (h.binaryMetamethod event a b) fun v? => ?_
  cases v? with
  | some v => exact hsome v
  | none => exact hnone

theorem arith (op : Operator) (a b : Value) : P (Action.arith op a b) := by
  unfold Action.arith
  split
  · exact h.fail rfl
  · exact h.pure _
  · exact h.orElse (fun _ => h.pure _) (h.fail (isRaised_arithFault op a b))

theorem concat (a b : Value) : P (Action.concat a b) := by
  unfold Action.concat
  split
  · exact h.pure _
  · exact h.orElse (fun _ => h.pure _) (h.fail rfl)

theorem equals (a b : Value) : P (Action.equals a b) := by
  unfold Action.equals
  split
  · exact h.pure _
  · split
    · exact h.bind (h.binaryMetamethod _ _ _) fun _ => h.pure _
    · exact h.pure _

theorem lessThan (a b : Value) : P (Action.lessThan a b) := by
  unfold Action.lessThan
  split
  · exact h.pure _
  · exact h.orElse (fun _ => h.pure _) (h.fail rfl)

theorem lessEqual (a b : Value) : P (Action.lessEqual a b) := by
  unfold Action.lessEqual
  split
  · exact h.pure _
  · exact h.orElse (fun _ => h.pure _) (h.orElse (fun _ => h.pure _) (h.fail rfl))

theorem compare (c : Comparison) (a b : Value) : P (Action.compare c a b) := by
  cases c with
  | eq => exact h.equals a b
  | lt => exact h.lessThan a b
  | le => exact h.lessEqual a b

theorem length (v : Value) : P (Action.length v) := by
  unfold Action.length
  split
  · exact h.pure _
  · refine h.bind (h.read (.metamethod _ _)) fun handler => ?_
    split
    · exact h.callFirst _ _
    · split
      · exact h.read ((SeesTables.table _).map fun table => Value.int (Int64.ofNat table.length))
      · exact h.fail rfl

theorem rawEntry (object key : Value) : P (Action.rawEntry object key) := by
  unfold Action.rawEntry
  split
  · exact h.read ((SeesTables.table _).map fun table => table.get key)
  · exact h.pure _

theorem index (object key : Value) : P (Action.index object key) := by
  refine h.bind (h.rawEntry _ _) fun direct => ?_
  split
  · exact h.pure _
  · refine h.bind (h.read (.metamethod _ _)) fun handler => ?_
    split
    · split
      · exact h.pure _
      · exact h.fail rfl
    · exact h.read ((SeesTables.table _).map fun table => table.get key)
    · exact h.callFirst _ _
    · exact h.fail rfl

theorem assignOr {passOn : Value → Action Unit} (hpass : ∀ next, P (passOn next))
    (object key v : Value) : P (Action.assignOr passOn object key v) := by
  refine h.bind (h.rawEntry _ _) fun direct => ?_
  dsimp only
  split
  · exact h.setRaw _ _ _
  · refine h.bind (h.read (.metamethod _ _)) fun handler => ?_
    split
    · exact h.setRaw _ _ _
    · exact hpass _
    · exact h.bind (h.call _ _) fun _ => h.pure _
    · exact h.fail rfl

theorem assignVia (links : Nat) (object key v : Value) :
    P (Action.assignVia links object key v) := by
  induction links generalizing object with
  | zero => exact h.assignOr (fun _ => h.fail rfl) object key v
  | succ links ih => exact h.assignOr ih object key v

theorem assign (object key v : Value) : P (Action.assign object key v) :=
  h.bind (h.read fun _ _ htables _ _ => congrArg Array.size htables) fun _ => h.assignVia _ _ _ _

theorem callGlobal (name : String) (args : List Value) : P (Action.callGlobal name args) := by
  refine h.bind (h.read (.getGlobal name)) fun f => ?_
  dsimp only
  split
  · exact h.bind (h.fail rfl) fun _ => h.call _ _
  · exact h.call _ _

end Inherited

end Action

end LuaBytecode
