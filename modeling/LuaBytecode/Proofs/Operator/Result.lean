import Mathlib.Data.Int.Bitwise
import LuaBytecode.Proofs.Number.Order

/-!
# Results of operators

Which of the kinds of operands an operator meets decides whether it fails, has no primitive result,
or gives an integer or a float.  On integers it is the exact operation, wrapped around to 64 bits or
done bit by bit.

* `Value.toInt?_eq_some_iff` : the integer that a value counts as is its exact value.
* `Operator.apply_eq_error_iff`, `Operator.apply_eq_none_iff` : failure, and no result.
* `Operator.isInt_iff_of_apply` : the kind of a result.
* `Operator.polynomial?`, `Operator.onBit?` : operations on exact integers and on their bits.
* `Operator.apply_spec` : all of it, for every operator and all values.
-/

namespace LuaBytecode

/-! ### Bits of integers -/

/-- The bits of a 64-bit integer are those of its value in two's complement, which go on with the
sign. -/
theorem testBit_toInt (x : Int64) (i : ℕ) :
    x.toInt.testBit i = if i < 64 then x.toBitVec.getLsbD i else x.toBitVec.msb := by
  change x.toBitVec.toInt.testBit i = _
  generalize x.toBitVec = w
  cases hsign : w.msb with
  | false =>
    rw [BitVec.toInt_eq_toNat_of_msb hsign]
    change w.toNat.testBit i = _
    rw [BitVec.testBit_toNat]
    split
    · rfl
    · exact BitVec.getLsbD_of_ge w i (by omega)
  | true =>
    have hneg : w.toInt = Int.negSucc (~~~w).toNat := by
      have := w.isLt
      rw [BitVec.toInt_eq_msb_cond, hsign, if_pos rfl, BitVec.toNat_not, Int.negSucc_eq]
      omega
    rw [hneg]
    change (!(~~~w).toNat.testBit i) = _
    rw [BitVec.testBit_toNat, BitVec.getLsbD_not]
    split <;> simp_all

/-! ### Kinds of values -/

namespace Number

/-- The integer that a number counts as is its exact value. -/
theorem toInt?_eq_some_iff (a : Number) (n : Int64) :
    a.toInt? = some n ↔ a.value? = some (((n.toInt : ℚ) : WithTop ℚ) : ExtendedRat) := by
  change _ ↔ a.value? = (int n).value?
  cases hnan : a.isNaN with
  | true =>
    cases a with
    | int m => exact absurd hnan Bool.false_ne_true
    | float x =>
      have hx : x.isNaN = true := hnan
      have hvalue : (float x).value? = none := if_pos hx
      rw [toInt?, toInt?_eq_iff, hvalue, hx]
      simp [value?]
  | false =>
    obtain ⟨u, hu, v, hv, -, -, heq⟩ := exists_values hnan (b := int n) rfl
    rw [hu, hv, Option.some.injEq, heq]
    cases a with
    | int m =>
      have hone : (Double.one : ℤ) ≠ 0 := Int.ne_of_gt Double.natCast_one_pos
      rw [toInt?, Option.some.injEq, units, units, Int.mul_eq_mul_right_iff hone, Int64.toInt_inj]
    | float x => exact (toInt?_eq_iff x n).trans (and_iff_right hnan)

end Number

namespace Value

/-- The value is an integer. -/
def IsInt (v : Value) : Prop := ∃ n, v = .int n

/-- The value is a float. -/
def IsFloat (v : Value) : Prop := ∃ x, v = .float x

/-- The integer that a value counts as is the exact value of the number that it denotes. -/
theorem toInt?_eq_some_iff (v : Value) (n : Int64) :
    v.toInt? = some n ↔
      ∃ a, v.toNumber? = some a ∧ a.value? = some (((n.toInt : ℚ) : WithTop ℚ) : ExtendedRat) := by
  simp only [toInt?, Option.bind_eq_some_iff, Number.toInt?_eq_some_iff]

end Value

namespace Operator

variable {op : Operator} {a b v : Value} {c : Complaint}

/-! ### The two ways to a result -/

theorem inBits_eq_none_iff : op.inBits a b = none ↔ a.toInt? = none ∨ b.toInt? = none := by
  rw [inBits]
  cases a.toInt? <;> cases b.toInt? <;> simp

theorem isInt_of_inBits (h : op.inBits a b = some v) : v.IsInt := by
  obtain ⟨x, -, h⟩ := Option.bind_eq_some_iff.1 h
  obtain ⟨y, -, h⟩ := Option.bind_eq_some_iff.1 h
  exact ⟨_, (Option.some.inj h).symm⟩

theorem inDoubles_eq_none_iff :
    op.inDoubles a b = none ↔ a.toDouble? = none ∨ b.toDouble? = none := by
  rw [inDoubles]
  cases a.toDouble? <;> cases b.toDouble? <;> simp

theorem isFloat_of_inDoubles (h : op.inDoubles a b = some v) : v.IsFloat := by
  obtain ⟨x, -, h⟩ := Option.bind_eq_some_iff.1 h
  obtain ⟨y, -, h⟩ := Option.bind_eq_some_iff.1 h
  exact ⟨_, (Option.some.inj h).symm⟩

theorem apply_of_isBitwise (h : op.isBitwise = true) : op.apply a b = .ok (op.inBits a b) := by
  unfold apply
  rw [if_pos h]

theorem apply_of_not_ints (h : op.isBitwise = false) (hab : ¬ (a.IsInt ∧ b.IsInt)) :
    op.apply a b = .ok (op.inDoubles a b) := by
  unfold apply
  rw [h, if_neg Bool.false_ne_true]
  split
  · exact absurd ⟨⟨_, rfl⟩, _, rfl⟩ hab
  · rfl

theorem apply_ints (h : op.isBitwise = false) (m n : Int64) :
    op.apply (.int m) (.int n) =
      match op.onInts m n with
      | .error c => .error c
      | .ok (some r) => .ok (some (.int r))
      | .ok none => .ok (op.inDoubles (.int m) (.int n)) :=
  if_neg (Bool.eq_false_iff.1 h)

theorem onInts_eq_error_iff (m n : Int64) :
    op.onInts m n = .error c ↔
      n = 0 ∧ (op = .idiv ∧ c = .divisionByZero ∨ op = .mod ∧ c = .moduloByZero) := by
  cases op <;> simp only [onInts] <;> grind

theorem onInts_eq_none_iff (h : op.isBitwise = false) (m n : Int64) :
    op.onInts m n = .ok none ↔ op = .div ∨ op = .pow := by
  cases op <;> simp only [onInts] <;> grind [isBitwise]

/-! ### Failure, no result, and the kind of a result -/

theorem apply_eq_error_iff :
    op.apply a b = .error c ↔ a.IsInt ∧ b = .int 0 ∧
      (op = .idiv ∧ c = .divisionByZero ∨ op = .mod ∧ c = .moduloByZero) := by
  cases hbits : op.isBitwise with
  | true =>
    rw [apply_of_isBitwise hbits]
    refine iff_of_false (by simp) ?_
    rintro ⟨-, -, ⟨rfl, -⟩ | ⟨rfl, -⟩⟩ <;> exact absurd hbits (by decide)
  | false =>
    by_cases hab : a.IsInt ∧ b.IsInt
    · obtain ⟨⟨m, rfl⟩, n, rfl⟩ := hab
      have hzero : Value.int n = .int 0 ↔ n = 0 := by simp
      rw [and_iff_right ⟨m, rfl⟩, hzero, ← onInts_eq_error_iff m n, apply_ints hbits]
      split <;> simp_all
    · rw [apply_of_not_ints hbits hab]
      refine iff_of_false (by simp) ?_
      rintro ⟨ha, rfl, -⟩
      exact hab ⟨ha, 0, rfl⟩

theorem toDouble?_int (n : Int64) : (Value.int n).toDouble? = some (.ofInt n.toInt) := rfl

theorem apply_eq_none_iff :
    op.apply a b = .ok none ↔
      if op.isBitwise then a.toInt? = none ∨ b.toInt? = none
      else a.toDouble? = none ∨ b.toDouble? = none := by
  cases hbits : op.isBitwise with
  | true => rw [apply_of_isBitwise hbits, Except.ok.injEq, inBits_eq_none_iff, if_pos rfl]
  | false =>
    rw [if_neg Bool.false_ne_true]
    by_cases hab : a.IsInt ∧ b.IsInt
    · obtain ⟨⟨m, rfl⟩, n, rfl⟩ := hab
      rw [apply_ints hbits]
      split <;> simp [toDouble?_int, inDoubles]
    · rw [apply_of_not_ints hbits hab, Except.ok.injEq, inDoubles_eq_none_iff]

theorem not_isInt_of_isFloat (h : v.IsFloat) : ¬ v.IsInt := by
  obtain ⟨x, rfl⟩ := h
  rintro ⟨n, hn⟩
  cases hn

/-- The operands are of kinds on which the operator computes in integers. -/
def StaysInt (op : Operator) (a b : Value) : Prop :=
  op.isBitwise = true ∨ a.IsInt ∧ b.IsInt ∧ op ≠ .div ∧ op ≠ .pow

theorem kind_of_apply (h : op.apply a b = .ok (some v)) :
    op.StaysInt a b ∧ v.IsInt ∨ ¬ op.StaysInt a b ∧ v.IsFloat := by
  cases hbits : op.isBitwise with
  | true =>
    rw [apply_of_isBitwise hbits, Except.ok.injEq] at h
    exact .inl ⟨.inl hbits, isInt_of_inBits h⟩
  | false =>
    have hstays : op.StaysInt a b ↔ a.IsInt ∧ b.IsInt ∧ op ≠ .div ∧ op ≠ .pow := by
      simp [StaysInt, hbits]
    rw [hstays]
    by_cases hab : a.IsInt ∧ b.IsInt
    · obtain ⟨⟨m, rfl⟩, n, rfl⟩ := hab
      have hnone := onInts_eq_none_iff hbits m n
      rw [apply_ints hbits] at h
      cases hints : op.onInts m n with
      | error c => simp [hints] at h
      | ok r? =>
        cases r? with
        | none =>
          simp only [hints, Except.ok.injEq] at h
          exact .inr ⟨by tauto, isFloat_of_inDoubles h⟩
        | some r =>
          simp only [hints, Except.ok.injEq, Option.some.injEq, reduceCtorEq, false_iff,
            not_or] at h hnone
          exact .inl ⟨⟨⟨m, rfl⟩, ⟨n, rfl⟩, hnone⟩, r, h.symm⟩
    · rw [apply_of_not_ints hbits hab, Except.ok.injEq] at h
      exact .inr ⟨by tauto, isFloat_of_inDoubles h⟩

/-- A result is an integer or a float, as the operator and the kinds of its operands say. -/
theorem isInt_iff_of_apply (h : op.apply a b = .ok (some v)) :
    (v.IsInt ↔ op.StaysInt a b) ∧ (v.IsFloat ↔ ¬ op.StaysInt a b) := by
  obtain ⟨hstays, hv⟩ | ⟨hstays, hv⟩ := kind_of_apply h
  · exact ⟨iff_of_true hv hstays, iff_of_false (fun hx => not_isInt_of_isFloat hx hv) (· hstays)⟩
  · exact ⟨iff_of_false (not_isInt_of_isFloat hv) hstays, iff_of_true hv hstays⟩

/-! ### Integer results -/

/-- The operation on exact integers, of the operators that are a polynomial. -/
def polynomial? : Operator → Option (ℤ → ℤ → ℤ)
  | add => some (· + ·)
  | sub => some (· - ·)
  | mul => some (· * ·)
  | unm => some fun x _ => -x
  | _ => none

/-- The operation on each pair of bits, of the operators that are done bit by bit. -/
def onBit? : Operator → Option (Bool → Bool → Bool)
  | band => some (· && ·)
  | bor => some (· || ·)
  | bxor => some (· ^^ ·)
  | bnot => some fun p _ => !p
  | _ => none

/-- The exact result is reduced modulo `2 ^ 64` to a signed number. -/
theorem apply_of_polynomial? {f : ℤ → ℤ → ℤ} (h : op.polynomial? = some f) (m n : Int64) :
    ∃ r, op.apply (.int m) (.int n) = .ok (some (.int r)) ∧
      r.toInt = (f m.toInt n.toInt).bmod (2 ^ 64) := by
  cases op <;> simp only [polynomial?, Option.some.injEq, reduceCtorEq] at h <;> subst h
  case add => exact ⟨m + n, rfl, Int64.toInt_add m n⟩
  case sub => exact ⟨m - n, rfl, Int64.toInt_sub m n⟩
  case mul => exact ⟨m * n, rfl, Int64.toInt_mul m n⟩
  case unm => exact ⟨-m, rfl, Int64.toInt_neg m⟩

/-- Bit by bit, on words, is bit by bit on the integers that they are. -/
theorem testBit_toInt_eq {f : Bool → Bool → Bool} {x y r : Int64}
    (h : ∀ i < 64, r.toBitVec.getLsbD i = f (x.toBitVec.getLsbD i) (y.toBitVec.getLsbD i))
    (i : ℕ) : r.toInt.testBit i = f (x.toInt.testBit i) (y.toInt.testBit i) := by
  simp only [testBit_toInt]
  by_cases hi : i < 64
  · simp only [if_pos hi]
    exact h i hi
  · simp only [if_neg hi, BitVec.msb_eq_getLsbD_last]
    exact h 63 (by decide)

theorem apply_of_onBit? {f : Bool → Bool → Bool} (h : op.onBit? = some f) {x y : Int64}
    (ha : a.toInt? = some x) (hb : b.toInt? = some y) :
    ∃ r, op.apply a b = .ok (some (.int r)) ∧
      ∀ i, r.toInt.testBit i = f (x.toInt.testBit i) (y.toInt.testBit i) := by
  have hbits : op.isBitwise = true := by
    cases op <;> simp [onBit?] at h <;> rfl
  refine ⟨op.onBits x y, ?_, testBit_toInt_eq fun i hi => ?_⟩
  · rw [apply_of_isBitwise hbits, inBits, ha, hb]
    rfl
  · cases op <;> simp only [onBit?, Option.some.injEq, reduceCtorEq] at h <;> subst h
    case band => exact BitVec.getLsbD_and
    case bor => exact BitVec.getLsbD_or
    case bxor => exact BitVec.getLsbD_xor
    case bnot => exact (BitVec.getLsbD_not).trans (by simp [hi])

/-- **Operators and the kinds of their operands.**

* Floor division and its remainder fail just for an integer and the integer zero.
* There is no primitive result just if an operand of a bitwise operator counts as no integer, or
  one of another operator as no float.
* A result is an integer if the operator is bitwise, or both operands are integers and it is neither
  division nor power; any other is a float.
* Sum, difference, product and negation of integers are the exact ones modulo `2 ^ 64`.
* Bitwise operators but shifts combine the bits of what the operands count as, in two's complement;
  this is their exact value, so that none is rounded. -/
theorem apply_spec (op : Operator) (a b : Value) :
    (∀ c, op.apply a b = .error c ↔ a.IsInt ∧ b = .int 0 ∧
      (op = .idiv ∧ c = .divisionByZero ∨ op = .mod ∧ c = .moduloByZero)) ∧
    (op.apply a b = .ok none ↔
      if op.isBitwise then a.toInt? = none ∨ b.toInt? = none
      else a.toDouble? = none ∨ b.toDouble? = none) ∧
    (∀ v, op.apply a b = .ok (some v) →
      (v.IsInt ↔ op.StaysInt a b) ∧ (v.IsFloat ↔ ¬ op.StaysInt a b)) ∧
    (∀ f, op.polynomial? = some f → ∀ m n, a = .int m → b = .int n →
      ∃ r, op.apply a b = .ok (some (.int r)) ∧
        r.toInt = (f m.toInt n.toInt).bmod (2 ^ 64)) ∧
    (∀ f, op.onBit? = some f → ∀ x y, a.toInt? = some x → b.toInt? = some y →
      ∃ r, op.apply a b = .ok (some (.int r)) ∧
        ∀ i, r.toInt.testBit i = f (x.toInt.testBit i) (y.toInt.testBit i)) ∧
    ∀ (v : Value) (x : Int64), v.toInt? = some x ↔
      ∃ n, v.toNumber? = some n ∧ n.value? = some (((x.toInt : ℚ) : WithTop ℚ) : ExtendedRat) := by
  refine ⟨fun c => apply_eq_error_iff, apply_eq_none_iff, fun v => isInt_iff_of_apply, ?polynomial,
    fun f hf x y => apply_of_onBit? hf, Value.toInt?_eq_some_iff⟩
  case polynomial =>
    rintro f hf m n rfl rfl
    exact apply_of_polynomial? hf m n

/-- A numeral counts as a float in a sum, though it denotes an integer, and as that integer in a
bitwise operation. -/
example : add.apply (.string "10") (.int 1) = .ok (some (.float ⟨0x4026000000000000⟩)) ∧
    band.apply (.string "0xff") (.float ⟨0x4018000000000000⟩) = .ok (some (.int 6)) := by
  decide +kernel

end Operator

end LuaBytecode
