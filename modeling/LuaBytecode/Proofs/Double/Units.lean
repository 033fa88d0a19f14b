import LuaBytecode.Double
import Mathlib.Order.Monotone.Basic

/-!
# The exact value of a double

`Double.units` is a faithful reading of the word: among doubles that are no zeros, only equal
words have equal values.

* `Double.unitsOfWord_strictMono`: magnitude words are ordered like the values they stand for;
* `Double.eq_of_units_eq`: a value other than zero belongs to one double;
* `Double.toInt?_eq_some_iff`: `Double.toInt?` finds exactly the integer with the same value.
-/

namespace LuaBytecode.Double

/-! ### Magnitude words -/

theorem unitsOfWord_normal {exponent fraction : Nat} (h : fraction < 0x10000000000000) :
    unitsOfWord ((exponent + 1) * 0x10000000000000 + fraction) =
      (0x10000000000000 + fraction) <<< exponent := by
  have hlow : ¬ (exponent + 1) * 0x10000000000000 + fraction < 0x10000000000000 := by omega
  have hdiv : ((exponent + 1) * 0x10000000000000 + fraction) / 0x10000000000000 = exponent + 1 := by
    omega
  have hmod : ((exponent + 1) * 0x10000000000000 + fraction) % 0x10000000000000 = fraction := by
    omega
  rw [unitsOfWord, if_neg hlow, hdiv, hmod, Nat.add_sub_cancel]

theorem unitsOfWord_subnormal {word : Nat} (h : word < 0x10000000000000) :
    unitsOfWord word = word :=
  if_pos h

theorem unitsOfWord_lt_succ (word : Nat) : unitsOfWord word < unitsOfWord (word + 1) := by
  by_cases hlow : word + 1 < 0x10000000000000
  · rw [unitsOfWord_subnormal hlow, unitsOfWord_subnormal (by omega)]
    omega
  by_cases hedge : word + 1 = 0x10000000000000
  · have hsucc : unitsOfWord (0x10000000000000) = 0x10000000000000 := by
      simpa using @unitsOfWord_normal 0 0 (by omega)
    rw [unitsOfWord_subnormal (by omega), hedge, hsucc]
    omega
  -- From here on the word is that of a normal number.
  obtain ⟨exponent, fraction, hf, rfl⟩ :
      ∃ exponent fraction, fraction < 0x10000000000000 ∧
        word = (exponent + 1) * 0x10000000000000 + fraction :=
    ⟨word / 0x10000000000000 - 1, word % 0x10000000000000, Nat.mod_lt _ (by omega), by omega⟩
  have hpos : 0 < 2 ^ exponent := Nat.two_pow_pos exponent
  rw [unitsOfWord_normal hf, Nat.shiftLeft_eq]
  by_cases hlast : fraction + 1 < 0x10000000000000
  · rw [Nat.add_assoc, unitsOfWord_normal hlast, Nat.shiftLeft_eq]
    exact Nat.mul_lt_mul_of_pos_right (by omega) hpos
  · have hnext : (exponent + 1) * 0x10000000000000 + fraction + 1 =
        (exponent + 1 + 1) * 0x10000000000000 + 0 := by
      omega
    rw [hnext, unitsOfWord_normal (by omega), Nat.shiftLeft_eq, Nat.pow_succ 2 exponent,
      Nat.mul_comm (2 ^ exponent) 2, ← Nat.mul_assoc]
    exact Nat.mul_lt_mul_of_pos_right (by omega) hpos

/-- A larger magnitude word stands for a larger value. -/
theorem unitsOfWord_strictMono : StrictMono unitsOfWord :=
  strictMono_nat_of_lt_succ unitsOfWord_lt_succ

theorem unitsOfWord_eq_zero_iff {word : Nat} : unitsOfWord word = 0 ↔ word = 0 :=
  ⟨fun h => unitsOfWord_strictMono.injective (h.trans (unitsOfWord_subnormal (by omega)).symm),
    fun h => h ▸ unitsOfWord_subnormal (by omega)⟩

/-! ### Doubles -/

theorem natAbs_units (x : Double) : x.units.natAbs = unitsOfWord x.magnitude := by
  rw [units]
  split <;> omega

theorem magnitude_eq_of_units_eq {x y : Double} (h : x.units = y.units) :
    x.magnitude = y.magnitude := by
  apply unitsOfWord_strictMono.injective
  rw [← natAbs_units, ← natAbs_units, h]

/-- Only one double has a given value, unless the value is zero. -/
theorem eq_of_units_eq {x y : Double} (h : x.units = y.units) (hx : x.units ≠ 0) : x = y := by
  have hm := magnitude_eq_of_units_eq h
  have hpos : unitsOfWord x.magnitude ≠ 0 := by
    rw [← natAbs_units]
    omega
  have hs : x.isNegative = y.isNegative := by
    simp only [units, ← hm] at h
    cases hsx : x.isNegative <;> cases hsy : y.isNegative <;>
      simp only [hsx, hsy, if_true, Bool.false_eq_true, if_false] at h ⊢ <;> omega
  rw [← ofWord_magnitude x, ← ofWord_magnitude y, hm, hs]

theorem isInfinite_eq_of_units_eq {x y : Double} (h : x.units = y.units) :
    x.isInfinite = y.isInfinite := by
  rw [isInfinite, isInfinite, magnitude_eq_of_units_eq h]

theorem isInfinite_of_units_eq_zero {x : Double} (h : x.units = 0) : x.isInfinite = false := by
  have hm : x.magnitude = 0 := unitsOfWord_eq_zero_iff.1 (by rw [← natAbs_units, h]; rfl)
  rw [isInfinite, hm]
  decide

/-! ### Equality -/

theorem eq_iff {x y : Double} :
    x.eq y = true ↔ x.isNaN = false ∧ y.isNaN = false ∧ x.units = y.units := by
  simp only [eq, Bool.and_eq_true, Bool.not_eq_eq_eq_not, Bool.not_true, decide_eq_true_eq,
    and_assoc]

/-! ### Integers -/

theorem one_pos : 0 < one := by
  rw [one, Nat.one_shiftLeft]
  exact Nat.two_pow_pos 1074

theorem toInt?_eq_some_iff {x : Double} {n : Int64} :
    x.toInt? = some n ↔ x.isNaN = false ∧ x.isInfinite = false ∧ x.units = n.toInt * one := by
  have hone : (one : Int) ≠ 0 := by
    have := one_pos
    omega
  rw [toInt?]
  constructor
  · intro h
    split at h
    · exact absurd h (by simp)
    · rename_i hbad
      simp only [Bool.or_eq_true, not_or, Bool.not_eq_true, bne_eq_false_iff_eq] at hbad
      obtain ⟨⟨hnan, hinf⟩, hrem⟩ := hbad
      refine ⟨hnan, hinf, ?_⟩
      dsimp only at h
      split at h
      · rename_i hrange
        obtain rfl := Option.some.inj h
        rw [Int64.toInt_ofInt_of_le hrange.1 hrange.2]
        exact (Int.ediv_mul_cancel (Int.dvd_of_emod_eq_zero hrem)).symm
      · exact absurd h (by simp)
  · rintro ⟨hnan, hinf, hunits⟩
    have hlo : -0x8000000000000000 ≤ n.toInt := n.le_toInt
    have hhi : n.toInt < 0x8000000000000000 := n.toInt_lt
    rw [hnan, hinf, hunits, Int.mul_emod_left, Int.mul_ediv_cancel _ hone]
    simp only [Bool.false_or, bne_self_eq_false, Bool.false_eq_true, if_false, hlo, hhi, and_self,
      if_true, Int64.ofInt_toInt]

theorem isNaN_of_toInt? {x : Double} {n : Int64} (h : x.toInt? = some n) : x.isNaN = false :=
  (toInt?_eq_some_iff.1 h).1

/-- Equal doubles have the same integer value, if any. -/
theorem toInt?_eq_of_eq {x y : Double} (h : x.eq y = true) : x.toInt? = y.toInt? := by
  obtain ⟨hx, hy, hu⟩ := eq_iff.1 h
  ext n
  rw [toInt?_eq_some_iff, toInt?_eq_some_iff, hx, hy, hu, isInfinite_eq_of_units_eq hu]

theorem eq_of_toInt? {x y : Double} {n : Int64} (hx : x.toInt? = some n)
    (hy : y.toInt? = some n) : x.eq y = true := by
  obtain ⟨hxn, -, hxu⟩ := toInt?_eq_some_iff.1 hx
  obtain ⟨hyn, -, hyu⟩ := toInt?_eq_some_iff.1 hy
  exact eq_iff.2 ⟨hxn, hyn, hxu.trans hyu.symm⟩

/-- A double without an integer value equals no other one. -/
theorem eq_iff_of_toInt?_eq_none {x y : Double} (hx : x.toInt? = none) (hn : x.isNaN = false) :
    x.eq y = true ↔ x = y := by
  constructor
  · intro h
    obtain ⟨-, -, hu⟩ := eq_iff.1 h
    refine eq_of_units_eq hu fun hzero => ?_
    have hint : x.toInt? = some 0 :=
      toInt?_eq_some_iff.2 ⟨hn, isInfinite_of_units_eq_zero hzero, by
        rw [hzero, Int64.toInt_zero, Int.zero_mul]⟩
    rw [hx] at hint
    exact absurd hint (by simp)
  · rintro rfl
    exact eq_iff.2 ⟨hn, hn, rfl⟩

end LuaBytecode.Double
