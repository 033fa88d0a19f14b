import LuaBytecode.Proofs.Operator.Result
import LuaBytecode.Proofs.Run.Instruction
import LuaBytecode.Proofs.Table.WellFormed

/-!
# Where the result of an operator comes from

An operator with a primitive result for its operands has no other.  Otherwise a metamethod of the
first operand stands in for it, or else one of the second, and without either the operands are at
fault.  Arithmetic and bitwise operators are resolved in this way, and concatenation.

* `Progress.CallsOnce` : work that is one call and nothing else.
* `Engine.Resolves` : the law of resolution.
* `Operator.Rejects` : the fault of operands without a result, and whom it names.
* `Action.arith_concat_resolve` : the operators obey the law.
-/

namespace LuaBytecode

/-! ### One call -/

namespace Outcome

/-- The first of the results, or nil. -/
def first : Outcome (List Value) → Outcome Value
  | .done vs e => .done (vs.headD .nil) e
  | .fault x e => .fault x e
  | .outOfFuel => .outOfFuel

end Outcome

namespace Progress

/-- The work is one call and nothing else: its result is the first one of the call, or nil if there
is none, and its fault that of the call. -/
def CallsOnce (p : Progress Value) (f : Value) (args : List Value) (e : Engine) : Prop :=
  ∃ go, p = .await (.call f args) e go ∧
    (∀ vs e', go (.ok vs) e' = .done (vs.headD .nil) e') ∧ ∀ x e', go (.error x) e' = .fault x e'

/-- What comes of the work is what comes of the call. -/
theorem CallsOnce.settle {p : Progress Value} {f : Value} {args : List Value} {e : Engine}
    (h : p.CallsOnce f args e) (perform : Job → Engine → Outcome (List Value)) :
    p.settle perform = (perform (.call f args) e).first := by
  obtain ⟨go, rfl, hdone, hfault⟩ := h
  rw [Progress.settle]
  cases perform (.call f args) e with
  | done vs e' => simp only [hdone, Progress.settle, Outcome.first]
  | fault x e' => simp only [hfault, Progress.settle, Outcome.first]
  | outOfFuel => rfl

end Progress

/-! ### The law -/

/-- An operation on two values goes as far as `p` from a state: it has a primitive result or none,
and faults that it may reject its operands with. -/
structure Engine.Resolves (e : Engine) (event : String) (a b : Value)
    (primitive : Option (Except Fault Value)) (Rejects : Fault → Prop) (p : Progress Value) :
    Prop where
  /-- A primitive result stands, whatever metamethods there are, and nothing changes. -/
  of_value : ∀ v, primitive = some (.ok v) → p = .done v e
  of_fault : ∀ f, primitive = some (.error f) → p = .fault f e
  /-- The metamethod of the first operand comes first. -/
  of_left : primitive = none → e.metamethod a event ≠ .nil →
    p.CallsOnce (e.metamethod a event) [a, b] e
  of_right : primitive = none → e.metamethod a event = .nil → e.metamethod b event ≠ .nil →
    p.CallsOnce (e.metamethod b event) [a, b] e
  of_neither : primitive = none → e.metamethod a event = .nil → e.metamethod b event = .nil →
    ∃ f, Rejects f ∧ p = .fault f e

/-- The first of two values that has no view. -/
inductive FirstWithout {α : Type} (view : Value → Option α) (a b : Value) : Value → Prop where
  | left (ha : view a = none) : FirstWithout view a b a
  | right (ha : view a ≠ none) (hb : view b = none) : FirstWithout view a b b

/-- The primitive result of an operator, which may be a fault. -/
def Operator.primitive? (op : Operator) (a b : Value) : Option (Except Fault Value) :=
  match op.apply a b with
  | .error c => some (.error c)
  | .ok (some v) => some (.ok v)
  | .ok none => none

/-- The fault of operands for which an operator has neither a primitive result nor a metamethod. -/
inductive Operator.Rejects (op : Operator) (a b : Value) : Fault → Prop where
  | notInteger (hop : op.isBitwise = true) (ha : a.toDouble? ≠ none) (hb : b.toDouble? ≠ none) :
    Rejects op a b (.ofCause .notInteger)
  | bitwise {v : Value} (hop : op.isBitwise = true) (hv : FirstWithout Value.toDouble? a b v) :
    Rejects op a b (.ofCause (.operand "perform bitwise operation on" v.typeName))
  | arithmetic {v : Value} (hop : op.isBitwise = false) (hv : FirstWithout Value.toDouble? a b v) :
    Rejects op a b (.ofCause (.operand "perform arithmetic on" v.typeName))

namespace Action

variable {e : Engine} {event : String} {a b : Value} {op : Operator}

/-- The text of both operands, joined. -/
def joined? (a b : Value) : Option (Except Fault Value) := do
  let s ← a.toText?
  let t ← b.toText?
  return .ok (.string (s ++ t))

/-- The fault of operands of a concatenation. -/
inductive RejectsConcat (a b : Value) : Fault → Prop where
  | operand {v : Value} (hv : FirstWithout Value.toText? a b v) :
    RejectsConcat a b (.ofCause (.operand "concatenate" v.typeName))

/-! ### Metamethods -/

/-- The primitive result stands. -/
theorem resolves_of_primitive {Rejects : Fault → Prop} {r : Except Fault Value} {p : Progress Value}
    (h : p = match r with | .ok v => .done v e | .error f => .fault f e) :
    e.Resolves event a b (some r) Rejects p := by
  subst h
  refine ⟨?_, ?_, nofun, nofun, nofun⟩
  · rintro v ⟨⟩
    rfl
  · rintro f ⟨⟩
    rfl

theorem binaryMetamethod_of_left (ha : e.metamethod a event ≠ .nil) :
    binaryMetamethod event a b e =
      (callFirst (e.metamethod a event) [a, b] e).andThen fun v => .done (some v) := by
  have hmine : ¬ (e.metamethod a event).isNil = true := mt Table.isNil_iff.1 ha
  rw [binaryMetamethod, metamethod, read_bind, if_neg hmine]
  exact congrFun (if_neg hmine) e

theorem binaryMetamethod_of_right (ha : e.metamethod a event = .nil) :
    binaryMetamethod event a b e =
      if e.metamethod b event = .nil then .done none e
      else (callFirst (e.metamethod b event) [a, b] e).andThen fun v => .done (some v) := by
  rw [binaryMetamethod, metamethod, read_bind, if_pos (Table.isNil_iff.2 ha), metamethod, read_bind]
  simp only [Table.isNil_iff]
  split <;> rfl

/-- The metamethods decide. -/
theorem resolves_of_binaryMetamethod {Rejects : Fault → Prop} {f : Fault} (hf : Rejects f) :
    e.Resolves event a b none Rejects <| (binaryMetamethod event a b >>= fun
      | some v => pure v
      | none => fail f) e where
  of_value := nofun
  of_fault := nofun
  of_left _ ha := by
    rw [bind_apply, binaryMetamethod_of_left ha]
    exact ⟨_, rfl, fun _ _ => rfl, fun _ _ => rfl⟩
  of_right _ ha hb := by
    rw [bind_apply, binaryMetamethod_of_right ha, if_neg hb]
    exact ⟨_, rfl, fun _ _ => rfl, fun _ _ => rfl⟩
  of_neither _ ha hb := by
    refine ⟨f, hf, ?_⟩
    rw [bind_apply, binaryMetamethod_of_right ha, if_pos hb]
    rfl

/-! ### The operators -/

/-- The culprit of an arithmetic fault is the first operand that is no number, or else the
second. -/
theorem arithFault_of_left (ha : a.toDouble? = none) :
    arithFault op a b =
      if op.isBitwise then .operand "perform bitwise operation on" a.typeName
      else .operand "perform arithmetic on" a.typeName := by
  rw [arithFault]
  simp only [ha, Option.isNone_none, if_true, Option.isSome_none, Bool.false_eq_true, if_false]

theorem arithFault_of_right {x : Double} (ha : a.toDouble? = some x) :
    arithFault op a b =
      if op.isBitwise then
        if b.toDouble? = none then .operand "perform bitwise operation on" b.typeName
        else .notInteger
      else .operand "perform arithmetic on" b.typeName := by
  rw [arithFault]
  cases hb : b.toDouble? <;> simp [ha, hb]

/-- Operands without a primitive result are at fault as the operator says. -/
theorem rejects_arithFault (h : op.apply a b = .ok none) :
    op.Rejects a b (.ofCause (arithFault op a b)) := by
  rw [Operator.apply_eq_none_iff] at h
  cases ha : a.toDouble? with
  | none =>
    rw [arithFault_of_left ha]
    cases hop : op.isBitwise with
    | true => exact .bitwise hop (.left ha)
    | false => exact .arithmetic hop (.left ha)
  | some x =>
    have ha' : a.toDouble? ≠ none := by simp [ha]
    rw [arithFault_of_right ha]
    cases hop : op.isBitwise with
    | true =>
      by_cases hb : b.toDouble? = none
      · simp only [hb, if_true]
        exact .bitwise hop (.right ha' hb)
      · simp only [hb, if_true, if_false]
        exact .notInteger hop ha' hb
    | false =>
      rw [hop, if_neg Bool.false_ne_true] at h
      exact .arithmetic hop (.right ha' (h.resolve_left ha'))

theorem arith_resolves :
    e.Resolves op.event a b (op.primitive? a b) (op.Rejects a b) (arith op a b e) := by
  rw [Operator.primitive?, arith]
  cases h : op.apply a b with
  | error c => exact resolves_of_primitive rfl
  | ok v? =>
    cases v? with
    | some v => exact resolves_of_primitive rfl
    | none => exact resolves_of_binaryMetamethod (rejects_arithFault h)

/-- The only primitive faults are those of a division by zero. -/
theorem cause_of_primitive? {f : Fault} (h : op.primitive? a b = some (.error f)) :
    f = .ofCause (.runtime .divisionByZero) ∨ f = .ofCause (.runtime .moduloByZero) := by
  rw [Operator.primitive?] at h
  cases hr : op.apply a b with
  | ok v? => cases v? <;> simp [hr] at h
  | error c =>
    simp only [hr, Option.some.injEq, Except.error.injEq] at h
    obtain ⟨-, -, ⟨-, rfl⟩ | ⟨-, rfl⟩⟩ := Operator.apply_eq_error_iff.1 hr
    · exact .inl h.symm
    · exact .inr h.symm

theorem concat_resolves :
    e.Resolves "__concat" a b (joined? a b) (RejectsConcat a b) (concat a b e) := by
  rw [joined?, concat]
  cases ha : a.toText? with
  | none => exact resolves_of_binaryMetamethod (.operand (.left ha))
  | some s =>
    cases hb : b.toText? with
    | some t => exact resolves_of_primitive rfl
    | none => exact resolves_of_binaryMetamethod (.operand (.right (by simp [ha]) hb))

/-- **Operators.**  From every state, arithmetic and bitwise operators and concatenation obey the
law of resolution, where the primitive faults are those of a division by zero.  To carry out work
that is one call is to do the job and take the first of its results. -/
theorem arith_concat_resolve (e : Engine) (op : Operator) (a b : Value) :
    e.Resolves op.event a b (op.primitive? a b) (op.Rejects a b) (arith op a b e) ∧
      (∀ f, op.primitive? a b = some (.error f) →
        f = .ofCause (.runtime .divisionByZero) ∨ f = .ofCause (.runtime .moduloByZero)) ∧
      e.Resolves "__concat" a b (joined? a b) (RejectsConcat a b) (concat a b e) ∧
      ∀ p h, Progress.CallsOnce p h [a, b] e → ∀ n,
        p.settle (Engine.perform n) = (Engine.perform n (.call h [a, b]) e).first :=
  ⟨arith_resolves, fun _ => cause_of_primitive?, concat_resolves,
    fun _ _ hp n => hp.settle (Engine.perform n)⟩

end Action

end LuaBytecode
