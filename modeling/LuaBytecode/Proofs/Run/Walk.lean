import Mathlib.Order.Defs.Unbundled
import LuaBytecode.Proofs.Run.Inherited
import LuaBytecode.Proofs.Run.Machine
import LuaBytecode.Proofs.Table.FiniteMap
import LuaBytecode.Proofs.Variable.Change

/-!
# What actions do between two waits

While an action awaits a job, anything may happen to the engine.  What can be said of the action
itself is how it gets from its start to its first wait, from there to the next, and so on.  For a
reflexive and transitive relation `R` between states, an action *walks by* `R` if each of these
parts does.

* `Action.Walks.bind` : parts put together.
* `Engine.Supplies` : the relations that allow what host functions do.
* `Engine.Serves`, `Engine.Executes` : those that allow any change of tables and functions, and what
  instructions do to the running frame.
* `Action.walks_answer`, `Host.walks_act` : host functions, and the operations with metamethods
  that answer them, touch neither frames nor cells.
* `Opcode.walks_effect` : an instruction only makes the running frame go on, apart from the two
  that write variables of other functions or close cells.
-/

namespace LuaBytecode

variable {α β : Type} {R : Engine → Engine → Prop} {e₀ e₁ : Engine}

namespace Progress

/-- An action that started in `e₀` has come here by `R`, and goes on by `R` from any state in
which it is resumed. -/
def Walks (R : Engine → Engine → Prop) (e₀ : Engine) : Progress α → Prop
  | .done _ e => R e₀ e
  | .fault _ e => R e₀ e
  | .await _ e go => R e₀ e ∧ ∀ r e', (go r e').Walks R e'

theorem Walks.engine {p : Progress α} (h : p.Walks R e₀) : R e₀ p.engine := by
  cases p with
  | done a e => exact h
  | fault f e => exact h
  | await job e go => exact h.1

theorem Walks.trans_left [IsTrans Engine R] {p : Progress α} (h₀ : R e₀ e₁) (h : p.Walks R e₁) :
    p.Walks R e₀ := by
  cases p with
  | done a e => exact IsTrans.trans _ _ _ h₀ h
  | fault f e => exact IsTrans.trans _ _ _ h₀ h
  | await job e go => exact ⟨IsTrans.trans _ _ _ h₀ h.1, h.2⟩

theorem Walks.andFinally [IsTrans Engine R] {p : Progress α}
    {f : Except Fault α → Engine → Progress β} (hp : p.Walks R e₀)
    (hf : ∀ r e, (f r e).Walks R e) : (p.andFinally f).Walks R e₀ := by
  induction p generalizing e₀ with
  | done a e => exact (hf (.ok a) e).trans_left hp
  | fault x e => exact (hf (.error x) e).trans_left hp
  | await job e go ih => exact ⟨hp.1, fun r e' => ih r e' (hp.2 r e')⟩

variable [IsPreorder Engine R]

theorem Walks.andThen {p : Progress α} {f : α → Engine → Progress β} (hp : p.Walks R e₀)
    (hf : ∀ a e, (f a e).Walks R e) : (p.andThen f).Walks R e₀ :=
  hp.andFinally fun
    | .ok a => hf a
    | .error _ => fun e => Std.Refl.refl (r := R) e

theorem Walks.mapFault {p : Progress α} (hp : p.Walks R e₀) (g : Fault → Fault) :
    (p.mapFault g).Walks R e₀ :=
  hp.andFinally fun
    | .ok _ => fun e => Std.Refl.refl (r := R) e
    | .error _ => fun e => Std.Refl.refl (r := R) e

end Progress

theorem Progress.Walks.atEnd {p : Progress α} {g : Engine → Engine} [IsPreorder Engine R]
    (hp : p.Walks R e₀) (hg : ∀ e, R e (g e)) : (p.atEnd g).Walks R e₀ :=
  hp.andFinally fun r e => by cases r <;> exact hg e

/-- Only what becomes of the one table counts. -/
theorem Heap.updateTable_congr (h : Heap) {t : TableRef} {f g : Table → Table}
    (hfg : f (h.table t) = g (h.table t)) : h.updateTable t f = h.updateTable t g := by
  have htables : h.tables.modify t.index f = h.tables.modify t.index g := by
    refine Array.ext_getElem? fun j => ?_
    rw [Array.getElem?_modify, Array.getElem?_modify]
    split
    · rename_i hj
      cases htable : h.tables[j]? with
      | none => rfl
      | some table =>
        rw [Heap.table, hj, Array.getD_eq_getD_getElem?, htable] at hfg
        exact congrArg some hfg
    · rfl
  rw [updateTable, updateTable, htables]

/-! ### Relations to walk by -/

/-- Tables may be operated on, host functions and events may come to be. -/
class Engine.Supplies (R : Engine → Engine → Prop) : Prop extends IsPreorder Engine R where
  operate : ∀ (e : Engine) (t : TableRef) (o : Table.Operation),
    R e { e with heap := e.heap.updateTable t (·.apply o) }
  newNative : ∀ (e : Engine) (name : String) (body : List Value → Host),
    R e (e.newFunction (.native name body)).2
  events : ∀ (e : Engine) (events : Array Event), R e { e with events }

/-- Tables, functions and events may change. -/
class Engine.Serves (R : Engine → Engine → Prop) : Prop extends IsPreorder Engine R where
  serve : ∀ (e : Engine) (heap : Heap) (events : Array Event), heap.cells = e.heap.cells →
    R e { e with heap, events }

/-- The running frame may change as well, and capture registers, but it keeps its identity and its
captures. -/
class Engine.Executes (R : Engine → Engine → Prop) : Prop extends Engine.Serves R where
  updateFrame : ∀ {g : Frame → Frame}, (∀ f, (g f).links = f.links) → ∀ e, R e (e.updateFrame g)
  capture : ∀ e r, R e (e.captureRegister r).2

instance [Engine.Serves R] : Engine.Supplies R where
  operate e _ _ := Engine.Serves.serve e _ e.events rfl
  newNative e _ _ := Engine.Serves.serve e _ e.events rfl
  events e events := Engine.Serves.serve e e.heap events rfl

instance : Engine.Serves Engine.Calm where
  refl := .refl
  trans _ _ _ h₁ h₂ := h₁.trans h₂
  serve _ _ _ hcells := ⟨rfl, hcells, rfl⟩

instance : Engine.Executes Engine.Advances where
  refl := .refl
  trans _ _ _ h₁ h₂ := h₁.trans h₂
  serve _ _ _ hcells := Engine.Calm.advances ⟨rfl, hcells, rfl⟩
  updateFrame := Engine.advances_updateFrame
  capture := Engine.advances_captureRegister

namespace Action

/-- An action walks by `R` from any state. -/
def Walks (R : Engine → Engine → Prop) (x : Action α) : Prop := ∀ e, (x e).Walks R e

namespace Walks

theorem ite {p : Prop} [Decidable p] {x y : Action α} (hx : x.Walks R) (hy : y.Walks R) :
    (if p then x else y).Walks R := by
  split
  · exact hx
  · exact hy

theorem modify {f : Engine → Engine} (h : ∀ e, R e (f e)) : (Action.modify f).Walks R := h

theorem update {f : Engine → α × Engine} (h : ∀ e, R e (f e).2) : (Action.update f).Walks R := h

variable [IsPreorder Engine R]

theorem pure (a : α) : (Pure.pure a : Action α).Walks R := fun e => Std.Refl.refl (r := R) e

theorem read (f : Engine → α) : (Action.read f).Walks R := fun e => Std.Refl.refl (r := R) e

theorem fail (f : Fault) : (Action.fail f : Action α).Walks R := fun e => Std.Refl.refl (r := R) e

theorem orFail (f : Fault) (a? : Option α) : (Action.orFail f a?).Walks R := by
  cases a? with
  | none => exact fail f
  | some a => exact pure a

theorem await (job : Job) : (Action.await job).Walks R := fun e =>
  ⟨Std.Refl.refl (r := R) e, fun r e' => by cases r <;> exact Std.Refl.refl (r := R) e'⟩

theorem call (f : Value) (args : List Value) : (Action.call f args).Walks R := await _

theorem bind {x : Action α} {f : α → Action β} (hx : x.Walks R) (hf : ∀ a, (f a).Walks R) :
    (x >>= f).Walks R := fun e => (hx e).andThen fun a => hf a

end Walks

/-! ### Operations with metamethods -/

section Supplies

open Engine (Supplies)

variable [Supplies R]

theorem walks_setRaw (t : TableRef) (key v : Value) : (setRaw t key v).Walks R := by
  intro e
  unfold setRaw
  split
  · rename_i k hk
    have hput : e.heap.updateTable t (·.put k v) = e.heap.updateTable t (·.apply (.set key v)) :=
      e.heap.updateTable_congr (by rw [Table.apply, Table.set_of_isIndex hk])
    exact hput ▸ Supplies.operate e t (.set key v)
  · exact Std.Refl.refl (r := R) e

theorem inherited_walks : Inherited (Walks R) where
  pure := .pure
  bind := .bind
  read _ := .read _
  fail _ := .fail _
  call := .call
  setRaw := walks_setRaw

theorem walks_arith (op : Operator) (a b : Value) : (arith op a b).Walks R :=
  inherited_walks.arith op a b

theorem walks_concat (a b : Value) : (concat a b).Walks R := inherited_walks.concat a b

theorem walks_compare (c : Comparison) (a b : Value) : (compare c a b).Walks R :=
  inherited_walks.compare c a b

theorem walks_length (v : Value) : (length v).Walks R := inherited_walks.length v

theorem walks_index (object key : Value) : (index object key).Walks R :=
  inherited_walks.index object key

theorem walks_assign (object key v : Value) : (assign object key v).Walks R :=
  inherited_walks.assign object key v

theorem supplies_storeItems (t : TableRef) (n : Nat) (vs : List Value) (e : Engine) :
    R e (storeItems t n vs e) := by
  induction vs generalizing n e with
  | nil => exact Std.Refl.refl (r := R) e
  | cons v vs ih =>
    exact IsTrans.trans _ _ _ (Supplies.operate e t (.setInt (Int64.ofNat n) v)) (ih _ _)

/-! ### Host functions -/

theorem walks_callGlobal (name : String) (args : List Value) : (callGlobal name args).Walks R :=
  inherited_walks.callGlobal name args

theorem walks_next (t : TableRef) (key : Value) : (next t key).Walks R := by
  intro e
  have hnext : R e { e with
      heap := e.heap.updateTable t fun _ => ((e.heap.table t).next key).2 } := by
    rw [e.heap.updateTable_congr (g := (·.apply (.next key))) rfl]
    exact Supplies.operate e t (.next key)
  unfold next
  dsimp only
  split <;> exact hnext

/-- **The answers to host functions leave the variables alone.** -/
theorem walks_answer (r : Request) : (answer r).Walks R := by
  match r with
  | .call f args => exact .call _ _
  | .callGlobal name args => exact walks_callGlobal _ _
  | .index object key => exact .bind (walks_index _ _) fun _ => .pure _
  | .runChunk p => exact .await _
  | .metaField v event => exact .bind (.read _) fun _ => .pure _
  | .metatable v => exact .bind (.read _) fun _ => .pure _
  | .setMetatable t meta? =>
    exact .bind (.modify fun e => Supplies.operate e t (.setMetatable meta?)) fun _ => .pure _
  | .getRaw t key => exact .read _
  | .setRaw t key v => exact .bind (walks_setRaw _ _ _) fun _ => .pure _
  | .next t key => exact walks_next _ _
  | .length t => exact .read _
  | .text v => exact .read _
  | .print line => exact .bind (.modify fun e => Supplies.events e _) fun _ => .pure _
  | .note vs => exact .bind (.modify fun e => Supplies.events e _) fun _ => .pure _

end Supplies

end Action

/-- **Host functions leave the variables alone**, up to their calls. -/
theorem Host.walks_act [Engine.Supplies R] (h : Host) : h.act.Walks R := by
  induction h with
  | done vs => exact fun e => Std.Refl.refl (r := R) e
  | fail f => exact fun e => Std.Refl.refl (r := R) e
  | ask r go ih => exact fun e => (Action.walks_answer r e).andFinally fun x e => ih x e
  | define name body go _ ih =>
    exact fun e => (ih _ _).trans_left (Engine.Supplies.newNative e name body)

/-! ### Globals -/

namespace Engine

variable [Supplies R]

theorem supplies_setGlobal (e : Engine) (name : String) (v : Value) : R e (e.setGlobal name v) :=
  Supplies.operate e e.globals (.setString name v)

theorem supplies_register (e : Engine) (name : String) (body : List Value → Host) :
    R e (e.register name body) :=
  IsTrans.trans _ _ _ (Supplies.newNative e name body) (supplies_setGlobal _ _ _)

/-- A new engine is the empty one with the functions of the base library. -/
theorem supplies_new (config : Config) : R (Engine.empty config) (Engine.new config) := by
  have registered (functions : List (String × BaseLibrary.Body)) (e : Engine) :
      R e (functions.foldl (fun e f => e.register f.1 fun args => (f.2 args).run) e) := by
    induction functions generalizing e with
    | nil => exact Std.Refl.refl e
    | cons f functions ih => exact IsTrans.trans _ _ _ (supplies_register e _ _) (ih _)
  rw [Engine.new]
  split
  · exact registered _ _
  · exact Std.Refl.refl _

end Engine

namespace Action

section Executes

open Engine (Serves Executes)

variable [Executes R]

theorem walks_updateFrame {g : Frame → Frame} (hg : ∀ f, (g f).links = f.links) :
    (modify (·.updateFrame g)).Walks R := .modify (Executes.updateFrame hg)

theorem walks_setRegister (r : Nat) (v : Value) : (setRegister r v).Walks R :=
  walks_updateFrame fun _ => rfl

theorem walks_skip : skip.Walks R := walks_updateFrame fun _ => rfl

theorem walks_jump (offset : Int) : (jump offset).Walks R := walks_updateFrame fun _ => rfl

theorem walks_constant (i : Nat) : (constant i).Walks R := by
  intro e
  unfold constant
  split <;> exact Std.Refl.refl (r := R) e

theorem walks_rk (x : Nat) : (rk x).Walks R := by
  unfold rk
  split
  · exact walks_constant _
  · exact .read _

theorem walks_upvalue (i : Nat) : (upvalue i).Walks R := by
  intro e
  unfold upvalue
  split <;> exact Std.Refl.refl (r := R) e

theorem walks_extraArg : extraArg.Walks R := by
  refine .bind (.read _) fun i? => ?_
  split
  · split
    · exact .bind walks_skip fun _ => .pure _
    · exact .fail _
  · exact .fail _

theorem walks_storeResults (base want : Nat) (vs : List Value) :
    (storeResults base want vs).Walks R :=
  walks_updateFrame fun f => Frame.links_setRange f _ _

theorem walks_concatDown (first n : Nat) (acc : Value) :
    (concatDown first n acc).Walks R := by
  induction n generalizing acc with
  | zero => exact .pure _
  | succ n ih => exact .bind (.read _) fun v => .bind (walks_concat _ _) ih

theorem walks_setList (a b c : Nat) : (setList a b c).Walks R := by
  unfold setList
  dsimp only
  -- the items are stored in the same way, wherever the number of the batch comes from
  refine .ite (.bind walks_extraArg fun batch => ?_) (.bind (.pure _) fun batch => ?_)
  all_goals
    refine .ite (.bind (.fail _) fun _ => ?_) ?_
    all_goals
      refine .bind (.read _) fun vs => .bind (.read _) fun v => ?_
      cases v with
      | table t => exact .modify fun e => supplies_storeItems _ _ _ e
      | _ => exact .fail _

theorem walks_captureAll (us : List UpvalueSource) : (captureAll us).Walks R := by
  induction us with
  | nil => exact .pure _
  | cons u us ih =>
    cases u with
    | register r =>
      exact .bind (.update fun e => Executes.capture e _) fun _ =>
        .bind ih fun _ => .pure _
    | enclosing i =>
      exact .bind (.read _) fun _ => .bind (.orFail _ _) fun _ => .bind ih fun _ => .pure _

theorem walks_closure (i : Nat) : (closure i).Walks R :=
  .bind (.read _) fun _ => .bind (.orFail _ _) fun _ => .bind (walks_captureAll _) fun _ =>
    .bind (.update fun e => Serves.serve e _ e.events rfl) fun _ => .pure _

theorem walks_setLoopSlots (a : Nat) (l : Loop) : (setLoopSlots a l).Walks R :=
  walks_updateFrame fun f => Frame.links_setRange f _ _

theorem walks_storeVarargs (base count : Nat) : (storeVarargs base count).Walks R :=
  walks_updateFrame fun f => by
    split <;> exact Frame.links_setRange f _ _

end Executes

end Action

/-- The instructions that write variables of other functions or close cells. -/
def Opcode.isLocal (op : Opcode) : Bool := op != .setUpvalue && op != .jump

open LuaBytecode.Action in
/-- **An instruction makes the running frame go on.** -/
theorem Opcode.walks_effect [Engine.Executes R] (op : Opcode) (hop : op.isLocal) (i : Instruction) :
    (op.effect i).Walks R := by
  cases op with
  | setUpvalue | jump => exact absurd hop (by decide)
  | move => exact .bind (.read _) fun _ => walks_setRegister _ _
  | loadK => exact .bind (walks_constant _) fun _ => walks_setRegister _ _
  | loadKx =>
    exact .bind walks_extraArg fun _ => .bind (walks_constant _) fun _ => walks_setRegister _ _
  | loadBool =>
    refine .bind (walks_setRegister _ _) fun _ => ?_
    split
    · exact walks_skip
    · exact .pure _
  | loadNil => exact walks_updateFrame fun f => Frame.links_setRange f _ _
  | getUpvalue => exact .bind (walks_upvalue _) fun _ => walks_setRegister _ _
  | getTabUp =>
    exact .bind (walks_upvalue _) fun _ => .bind (walks_rk _) fun _ =>
      .bind (walks_index _ _) fun _ => walks_setRegister _ _
  | setTabUp =>
    exact .bind (walks_upvalue _) fun _ => .bind (walks_rk _) fun _ => .bind (walks_rk _) fun _ =>
      (walks_assign _ _ _)
  | getTable =>
    exact .bind (.read _) fun _ => .bind (walks_rk _) fun _ =>
      .bind (walks_index _ _) fun _ => walks_setRegister _ _
  | setTable =>
    exact .bind (.read _) fun _ => .bind (walks_rk _) fun _ => .bind (walks_rk _) fun _ =>
      (walks_assign _ _ _)
  | newTable =>
    exact .bind (.update fun e => Engine.Serves.serve e _ e.events rfl) fun _ =>
      walks_setRegister _ _
  | self =>
    refine .bind (.read _) fun _ => .bind (walks_rk _) fun _ => ?_
    exact .bind (walks_setRegister _ _) fun _ =>
      .bind (walks_index _ _) fun _ => walks_setRegister _ _
  | setList => exact walks_setList _ _ _
  | arith op =>
    unfold effect
    dsimp only
    split
    · exact .bind (.read _) fun _ => .bind (walks_arith _ _ _) fun _ =>
        walks_setRegister _ _
    · exact .bind (walks_rk _) fun _ => .bind (walks_rk _) fun _ =>
        .bind (walks_arith _ _ _) fun _ => walks_setRegister _ _
  | not => exact .bind (.read _) fun _ => walks_setRegister _ _
  | len =>
    exact .bind (.read _) fun _ => .bind (walks_length _) fun _ => walks_setRegister _ _
  | concat =>
    exact .bind (.read _) fun _ => .bind (walks_concatDown _ _ _) fun _ => walks_setRegister _ _
  | compare c =>
    refine .bind (walks_rk _) fun _ => .bind (walks_rk _) fun _ =>
      .bind (walks_compare _ _ _) fun _ => ?_
    split
    · exact walks_skip
    · exact .pure _
  | test =>
    refine .bind (.read _) fun _ => ?_
    split
    · exact walks_skip
    · exact .pure _
  | testSet =>
    refine .bind (.read _) fun _ => ?_
    split
    · exact walks_setRegister _ _
    · exact walks_skip
  | forPrep =>
    refine .bind (.read _) fun _ => ?_
    split
    · exact .fail _
    · exact .bind (walks_setLoopSlots _ _) fun _ => walks_jump _
  | forLoop =>
    refine .bind (.read _) fun _ => ?_
    split
    · exact .fail _
    · exact .pure _
    · exact .bind (walks_setLoopSlots _ _) fun _ => .bind (walks_setRegister _ _) fun _ =>
        walks_jump _
  | tforCall =>
    exact .bind (.read _) fun _ => .bind (.read _) fun _ => .bind (.call _ _) fun _ =>
      walks_storeResults _ _ _
  | tforLoop =>
    refine .bind (.read _) fun _ => ?_
    split
    · exact .bind (walks_setRegister _ _) fun _ => walks_jump _
    · exact .pure _
  | call | tailCall =>
    exact .bind (.read _) fun _ => .bind (.read _) fun _ => .bind (.call _ _) fun _ =>
      walks_storeResults _ _ _
  | ret => exact .bind (.read _) fun _ => walks_updateFrame fun _ => rfl
  | closure => exact .bind (walks_closure _) fun _ => walks_setRegister _ _
  | vararg => exact walks_storeVarargs _ _
  | extraArg => exact .fail _

end LuaBytecode
