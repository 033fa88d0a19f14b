import LuaBytecode.Proofs.Loop.Range

/-!
# Numerals as limits

The limit of an integer loop may be a numeral.  It is taken as the float nearest to the number that
it denotes, also where this is an integer; so a loop may run past the integer in the numeral, or
stop short of it.

* `Loop.intLimit_numeral` : a numeral is taken as a float.
* `Loop.intLimit_numeral_eq_iff` : the numerals that are as good as their numbers.
* `Loop.intLimit_numeral_ne` : not all of them are.
-/

namespace LuaBytecode.Loop

variable {s : String} {n : Number} {m step : Int64} {x : Double} {q : Int}

/-- A numeral is taken as the float nearest to its number. -/
theorem intLimit_numeral (h : Number.ofText? s = some n) (step : Int64) :
    intLimit (.string s) step = .ok (floatLimit n.toDouble step) := by
  refine intLimit_of_toDouble? (fun m hm => Value.noConfusion hm) ?_ step
  rw [Value.toDouble?, Value.toNumber?, h]
  rfl

theorem intLimit_float (x : Double) (step : Int64) :
    intLimit (.float x) step = .ok (floatLimit x step) :=
  intLimit_of_toDouble? (by simp) rfl step

/-- The limit that an integral value is for a loop that counts up: it is kept within the 64-bit
integers. -/
theorem floatLimit_eq_some_iff_of_up (h : x.isNaN = false) (hq : x.units = q * Double.one)
    (hlow : -0x8000000000000000 ≤ q) (hup : 0 < step) :
    floatLimit x step = some m ↔ m.toInt = min 0x7fffffffffffffff q := by
  have hnan := Double.isNaN_floor h
  have hfloor : x.floor.units = q * Double.one := by
    rw [Double.units_floor h, hq, Double.mul_one_ediv_one]
  have hlt : ¬ x.floor.lt Double.beyondInt.neg = true := by
    rw [lt_neg_beyondInt_iff hnan hfloor]
    omega
  rw [floatLimit, h, if_neg (by simp), if_pos hup, if_neg hlt, Option.some.injEq,
    ← Int64.toInt_inj, Double.toInt_saturate hnan hfloor]
  omega

/-- The limit that an integral value is for a loop that counts down: there is none beyond the 64-bit
integers. -/
theorem floatLimit_eq_some_iff_of_down (h : x.isNaN = false) (hq : x.units = q * Double.one)
    (hlow : -0x8000000000000000 ≤ q) (hdown : ¬ 0 < step) :
    floatLimit x step = some m ↔ m.toInt = q := by
  have hnan := Double.isNaN_ceil h
  have hceil : x.ceil.units = q * Double.one := by
    rw [Double.units_ceil h, hq, ← Int.neg_mul, Double.mul_one_ediv_one, Int.neg_neg]
  have hm := m.toInt_lt
  rw [floatLimit, h, if_neg (by simp), if_neg hdown]
  by_cases hbeyond : Double.beyondInt.le x.ceil = true
  · rw [if_pos hbeyond]
    rw [beyondInt_le_iff hnan hceil] at hbeyond
    simp only [reduceCtorEq, false_iff]
    omega
  · rw [if_neg hbeyond, Option.some.injEq, ← Int64.toInt_inj, Double.toInt_saturate hnan hceil]
    rw [beyondInt_le_iff hnan hceil] at hbeyond
    omega

/-- The last integer is no double; the nearest one is beyond it. -/
theorem units_ofInt_last :
    (Double.ofInt 0x7fffffffffffffff).units = 0x8000000000000000 * Double.one := by
  decide +kernel

/-- An integer up to `2^53` on either side of zero is a double. -/
theorem units_toDouble_of_natAbs_le (h : m.toInt.natAbs ≤ 0x20000000000000) :
    (Number.int m).toDouble.units = (Number.int m).units := by
  obtain ⟨q, hq, -, hexact⟩ := Double.exists_units_ofInt (n := m.toInt) (by omega)
  rw [Number.toDouble, Number.units, hq, hexact h]

/-- The integers whose nearest floats are the same limits. -/
theorem floatLimit_toDouble_eq_iff (m step : Int64) :
    floatLimit (Number.int m).toDouble step = some m ↔
      (Number.int m).toDouble.units = (Number.int m).units ∨ m = Int64.maxValue ∧ 0 < step := by
  have hm := m.toInt_lt
  have hm' := m.le_toInt
  obtain ⟨q, hq, hle, -⟩ := Double.exists_units_ofInt (n := m.toInt) (by omega)
  have hnan : (Double.ofInt m.toInt).isNaN = false := Double.isNaN_ofUnits _
  have hlow : -0x8000000000000000 ≤ q := by omega
  have hcancel {t : Int} : q * Double.one = t * Double.one ↔ q = t :=
    Int.mul_eq_mul_right_iff (Int.ne_of_gt Double.natCast_one_pos)
  rw [Number.toDouble, Number.units, hq, hcancel]
  by_cases hup : 0 < step
  · have hlast : m = Int64.maxValue ↔ m.toInt = 0x7fffffffffffffff := Int64.toInt_inj.symm
    have hround (hmax : m.toInt = 0x7fffffffffffffff) : q = 0x8000000000000000 := by
      rw [hmax, units_ofInt_last] at hq
      exact hcancel.1 hq.symm
    rw [floatLimit_eq_some_iff_of_up hnan hq hlow hup, hlast]
    simp only [hup, and_true]
    constructor
    · intro h
      omega
    · intro h
      omega
  · rw [floatLimit_eq_some_iff_of_down hnan hq hlow hup]
    simp only [hup, and_false, or_false]
    exact eq_comm

/-- **Numerals as limits are as good as their numbers** where the nearest float has the exact value
of the number, as it has for integers up to `2^53`; and the last integer, which no float is, is a
good limit of a loop that counts up.  Elsewhere they are not. -/
theorem intLimit_numeral_eq_iff (h : Number.ofText? s = some n) (step : Int64) :
    intLimit (.string s) step = intLimit (.float n.toDouble) step ∧
    (intLimit (.string s) step = intLimit (.number n) step ↔
      n.toDouble.units = n.units ∨ n = .int Int64.maxValue ∧ 0 < step) ∧
    ∀ m : Int64, n = .int m → m.toInt.natAbs ≤ 0x20000000000000 →
      intLimit (.string s) step = intLimit (.number n) step := by
  have hiff : intLimit (.string s) step = intLimit (.number n) step ↔
      n.toDouble.units = n.units ∨ n = .int Int64.maxValue ∧ 0 < step := by
    rw [intLimit_numeral h]
    cases n with
    | float x => exact iff_of_true (intLimit_float x step).symm (.inl rfl)
    | int m =>
      change Except.ok _ = Except.ok (some m) ↔ _
      rw [Except.ok.injEq, floatLimit_toDouble_eq_iff, Number.int.injEq]
  refine ⟨?_, hiff, fun m hm hsmall => hiff.2 (.inl ?_)⟩
  · rw [intLimit_numeral h, intLimit_float]
  · rw [hm]
    exact units_toDouble_of_natAbs_le hsmall

/-- The numeral of ten is as good as ten. -/
theorem intLimit_numeral_eq_iff_ten :
    Number.ofText? "10" = some (.int 10) ∧ intLimit (.string "10") (-3) = .ok (some 10) := by
  have h : Number.ofText? "10" = some (.int 10) := by decide +kernel
  exact ⟨h, (intLimit_numeral_eq_iff h (-3)).2.2 10 rfl (by decide)⟩

/-- **A numeral may be another limit than the integer that it denotes**: here the loop stops one
short of it. -/
theorem intLimit_numeral_ne :
    Number.ofText? "9007199254740993" = some (.int 9007199254740993) ∧
      intLimit (.string "9007199254740993") 1 = .ok (some 9007199254740992) ∧
      intLimit (.number (.int 9007199254740993)) 1 = .ok (some 9007199254740993) :=
  ⟨by decide +kernel, by decide +kernel, by decide +kernel⟩

end LuaBytecode.Loop
