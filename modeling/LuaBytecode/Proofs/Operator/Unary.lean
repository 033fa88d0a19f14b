import LuaBytecode.Proofs.Operator.Result

/-!
# The second operand of unary operators

Operators take two operands, the unary ones too, and convert both before they look which operator it
is.  A unary operator makes no use of the second number, but the kind of the second operand shows:
one that does not convert leaves no result, and only a second integer keeps the negative of an
integer from becoming a float.

* `Operator.apply_bnot`, `Operator.apply_unm` : what is left of the second operand.
* `Operator.apply_unary_eq_iff` : when two of them make no difference.
* `Operator.apply_unary_ne` : **the second operand is not ignored.**
-/

namespace LuaBytecode.Operator

variable {a b b' : Value} {x y : Int64}

/-! ### What a unary operator computes -/

/-- The complement is the same for all second operands that count as integers. -/
theorem apply_bnot (a b : Value) :
    bnot.apply a b =
      .ok (if b.toInt? = none then none else a.toInt?.map fun x => .int (~~~x)) := by
  rw [apply_of_isBitwise rfl, inBits]
  cases a.toInt? <;> cases b.toInt? <;> rfl

/-- The negative of an integer, where the second operand is one as well. -/
theorem apply_unm_of_ints (x y : Int64) :
    unm.apply (.int x) (.int y) = .ok (some (.int (-x))) := rfl

/-- Elsewhere the negative is a float, the same for all second operands that convert. -/
theorem apply_unm (h : ¬ (a.IsInt ∧ b.IsInt)) :
    unm.apply a b =
      .ok (if b.toDouble? = none then none else a.toDouble?.map fun x => .float x.neg) := by
  rw [apply_of_not_ints rfl h, inDoubles]
  cases a.toDouble? <;> cases b.toDouble? <;> rfl

theorem toDouble?_ne_none_of_isInt (h : a.IsInt) : a.toDouble? ≠ none := by
  obtain ⟨x, rfl⟩ := h
  simp [toDouble?_int]

/-! ### When two second operands make no difference -/

theorem apply_bnot_eq_iff :
    bnot.apply a b = bnot.apply a b' ↔
      a.toInt? = none ∨ (b.toInt? = none ↔ b'.toInt? = none) := by
  rw [apply_bnot, apply_bnot, Except.ok.injEq]
  cases a.toInt? <;> by_cases hb : b.toInt? = none <;> by_cases hb' : b'.toInt? = none <;>
    simp [hb, hb']

/-- Second operands that both convert, or both do not, but are no two integers. -/
theorem apply_unm_eq_iff_of_not_ints (h : ¬ (a.IsInt ∧ b.IsInt)) (h' : ¬ (a.IsInt ∧ b'.IsInt)) :
    unm.apply a b = unm.apply a b' ↔
      a.toDouble? = none ∨ (b.toDouble? = none ↔ b'.toDouble? = none) := by
  rw [apply_unm h, apply_unm h', Except.ok.injEq]
  cases a.toDouble? <;> by_cases hb : b.toDouble? = none <;> by_cases hb' : b'.toDouble? = none <;>
    simp [hb, hb']

/-- The negative of an integer is an integer just for a second one. -/
theorem apply_unm_int_eq_iff (x : Int64) (b : Value) :
    unm.apply (.int x) b = .ok (some (.int (-x))) ↔ b.IsInt := by
  constructor
  · intro h
    have hkind := (isInt_iff_of_apply h).1.1 ⟨_, rfl⟩
    exact (hkind.resolve_left Bool.false_ne_true).2.1
  · rintro ⟨y, rfl⟩
    exact apply_unm_of_ints x y

theorem apply_unm_eq_iff :
    unm.apply a b = unm.apply a b' ↔
      a.toDouble? = none ∨ (b.toDouble? = none ↔ b'.toDouble? = none) ∧
        (a.IsInt → (b.IsInt ↔ b'.IsInt)) := by
  by_cases ha : a.IsInt
  · obtain ⟨x, rfl⟩ := ha
    have hconverts := toDouble?_ne_none_of_isInt (a := .int x) ⟨x, rfl⟩
    simp only [hconverts, false_or, forall_const, show (Value.int x).IsInt from ⟨x, rfl⟩]
    by_cases hb : b.IsInt <;> by_cases hb' : b'.IsInt
    · rw [(apply_unm_int_eq_iff x b).2 hb, (apply_unm_int_eq_iff x b').2 hb']
      simp [hb, hb', toDouble?_ne_none_of_isInt]
    · rw [(apply_unm_int_eq_iff x b).2 hb, eq_comm, apply_unm_int_eq_iff]
      simp [hb, hb']
    · rw [(apply_unm_int_eq_iff x b').2 hb', apply_unm_int_eq_iff]
      simp [hb, hb']
    · rw [apply_unm_eq_iff_of_not_ints (fun h => hb h.2) fun h => hb' h.2]
      simp [hb, hb', hconverts]
  · rw [apply_unm_eq_iff_of_not_ints (fun h => ha h.1) fun h => ha h.1]
    simp only [ha, false_imp_iff, and_true]

/-! ### An operand given twice -/

/-- The operand of a unary operator, given twice, counts once. -/
theorem apply_self (a : Value) :
    bnot.apply a a = .ok (a.toInt?.map fun x => .int (~~~x)) ∧
    (∀ x, unm.apply (.int x) (.int x) = .ok (some (.int (-x)))) ∧
    (¬ a.IsInt → unm.apply a a = .ok (a.toDouble?.map fun x => .float x.neg)) := by
  refine ⟨?_, fun x => apply_unm_of_ints x x, fun ha => ?_⟩
  · rw [apply_bnot]
    cases a.toInt? <;> rfl
  · rw [apply_unm fun h => ha h.1]
    cases a.toDouble? <;> rfl

/-- **The second operand of a unary operator shows by its kind, and by nothing else.**

* The complement of what counts as an integer is there just if the second operand counts as one too.
* The negative of what converts is there just if the second operand converts; the negative of an
  integer is an integer just if the second operand is one, and a float otherwise.
* An operand that is given twice, as the instructions do, counts once. -/
theorem apply_unary_eq_iff (a b b' : Value) :
    (bnot.apply a b = bnot.apply a b' ↔
      a.toInt? = none ∨ (b.toInt? = none ↔ b'.toInt? = none)) ∧
    (unm.apply a b = unm.apply a b' ↔
      a.toDouble? = none ∨ (b.toDouble? = none ↔ b'.toDouble? = none) ∧
        (a.IsInt → (b.IsInt ↔ b'.IsInt))) ∧
    bnot.apply a a = .ok (a.toInt?.map fun x => .int (~~~x)) ∧
    (∀ x, unm.apply (.int x) (.int x) = .ok (some (.int (-x)))) ∧
    (¬ a.IsInt → unm.apply a a = .ok (a.toDouble?.map fun x => .float x.neg)) :=
  ⟨apply_bnot_eq_iff, apply_unm_eq_iff, apply_self a⟩

/-- **The second operand is not ignored**: beside a float the negative of an integer is a float,
and beside nil there is none; nor is there a complement beside one half. -/
theorem apply_unary_ne :
    unm.apply (.int 4) (.int 4) = .ok (some (.int (-4))) ∧
    unm.apply (.int 4) (.float ⟨0x3ff0000000000000⟩) =
      .ok (some (.float ⟨0xc010000000000000⟩)) ∧
    unm.apply (.int 4) .nil = .ok none ∧
    bnot.apply (.int 0) (.int 0) = .ok (some (.int (-1))) ∧
    bnot.apply (.int 0) (.float ⟨0x3fe0000000000000⟩) = .ok none := by
  decide +kernel

end LuaBytecode.Operator
