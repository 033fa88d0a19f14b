import LuaBytecode.Operator
import Mathlib.Data.Rat.Floor

/-!
# Division of words

The machine divides toward zero, and `Word.floorDiv` corrects the quotient where signs differ and
something is left over.  Modulo `2 ^ 64` it is the floor of the exact quotient, of all operands; so
what `Word.floorMod` computes with wrapping products and differences is the exact remainder.

* `Word.floorDiv_eq_ofInt`, `Word.floorMod_eq_ofInt` : both operations modulo `2 ^ 64`.
* `Word.floorDiv?_eq` : the correction never leaves the 64-bit integers.
* `Word.floorDiv_floorMod_spec` : floor and remainder as exact numbers.
-/

namespace LuaBytecode.Word

variable {a b : Int64}

/-! ### Steps that may not wrap around -/

/-- The difference, if it is a 64-bit integer. -/
def sub? (a b : Int64) : Option Int64 :=
  if -0x8000000000000000 ≤ a.toInt - b.toInt ∧ a.toInt - b.toInt < 0x8000000000000000 then
    some (a - b)
  else none

/-- `floorDiv`, where the correction of the quotient may not wrap around. -/
def floorDiv? (a b : Int64) : Option Int64 :=
  let q := a / b
  if a % b ≠ 0 ∧ decide (a < 0) ≠ decide (b < 0) then sub? q 1 else some q

/-- `floorMod`, on the same terms. -/
def floorMod? (a b : Int64) : Option Int64 := (floorDiv? a b).map fun q => a - q * b

/-! ### The floor of a quotient -/

theorem floor_div_eq_fdiv (m n : ℤ) : ⌊(m / n : ℚ)⌋ = m.fdiv n := by
  rcases Int.le_total 0 n with hn | hn
  · obtain ⟨k, rfl⟩ := Int.eq_ofNat_of_zero_le hn
    rw [Int.fdiv_eq_ediv_of_nonneg m hn, Int.cast_natCast, Rat.floor_intCast_div_natCast]
  · obtain ⟨k, hk⟩ := Int.eq_ofNat_of_zero_le (Int.neg_nonneg_of_nonpos hn)
    have hdiv : (m / n : ℚ) = ((-m : ℤ) : ℚ) / (k : ℕ) := by
      rw [← Int.cast_natCast, ← hk, Int.cast_neg, Int.cast_neg, neg_div_neg_eq]
    rw [hdiv, Rat.floor_intCast_div_natCast, ← hk, ← Int.neg_fdiv_neg,
      Int.fdiv_eq_ediv_of_nonneg _ (by omega)]

/-- The floor is one less than the quotient toward zero if signs differ and there is a rest. -/
theorem fdiv_eq_tdiv_sub {m n : ℤ} (hn : n ≠ 0) :
    m.fdiv n =
      if m.tmod n ≠ 0 ∧ decide (m < 0) ≠ decide (n < 0) then m.tdiv n - 1 else m.tdiv n := by
  rw [Int.fdiv_eq_tdiv]
  by_cases hrest : n ∣ m
  · rw [if_pos hrest, if_neg (fun h => h.1 (Int.dvd_iff_tmod_eq_zero.1 hrest)), Int.sub_zero]
  · have htmod : m.tmod n ≠ 0 := mt Int.dvd_iff_tmod_eq_zero.2 hrest
    rcases Int.lt_or_gt_of_ne hn with hneg | hpos <;> rcases lt_or_ge m 0 with hm | hm
    · simp [hrest, hneg, hm, Int.not_le.2 hneg, Int.not_le.2 hm, Int.sign_eq_neg_one_of_neg hneg]
    · simp [hrest, htmod, hneg, hm, Int.not_le.2 hneg, Int.not_lt.2 hm]
    · simp [hrest, htmod, hm, Int.not_le.2 hm, Int.not_lt.2 (Int.le_of_lt hpos),
        Int.le_of_lt hpos, Int.sign_eq_one_of_pos hpos]
    · simp [hrest, hm, Int.not_lt.2 hm, Int.not_lt.2 (Int.le_of_lt hpos), Int.le_of_lt hpos]

/-! ### Modulo `2 ^ 64` -/

theorem div_eq_ofInt (a b : Int64) : a / b = Int64.ofInt (a.toInt.tdiv b.toInt) := by
  rw [← Int64.toInt_inj, Int64.toInt_div, Int64.toInt_ofInt]

theorem toInt_ne_zero (hb : b ≠ 0) : b.toInt ≠ 0 := fun h => hb (Int64.toInt_inj.1 h)

/-- The correction is that of the exact quotient. -/
theorem isCorrected_iff (a b : Int64) :
    (a % b ≠ 0 ∧ decide (a < 0) ≠ decide (b < 0)) ↔
      (a.toInt.tmod b.toInt ≠ 0 ∧ decide (a.toInt < 0) ≠ decide (b.toInt < 0)) := by
  rw [Ne, ← Int64.toInt_inj, Int64.toInt_mod]
  simp only [Int64.lt_iff_toInt_lt, Int64.toInt_zero, Ne]

/-- Whatever the operands, the quotient wraps around as the floor does. -/
theorem floorDiv_eq_ofInt (a : Int64) (hb : b ≠ 0) :
    floorDiv a b = Int64.ofInt (a.toInt.fdiv b.toInt) := by
  rw [floorDiv, fdiv_eq_tdiv_sub (toInt_ne_zero hb)]
  simp only [isCorrected_iff, div_eq_ofInt]
  split
  · rw [Int64.ofInt_sub]
    rfl
  · rfl

theorem floorMod_eq_ofInt (a : Int64) (hb : b ≠ 0) :
    floorMod a b = Int64.ofInt (a.toInt.fmod b.toInt) := by
  rw [floorMod, floorDiv_eq_ofInt a hb, Int.fmod_def, Int64.ofInt_sub, Int64.ofInt_mul,
    Int64.ofInt_toInt, Int64.ofInt_toInt, Int64.mul_comm]

/-! ### Exact results -/

/-- The rest lies between zero and the divisor. -/
theorem fmod_bounds (m : ℤ) {n : ℤ} (hn : n ≠ 0) :
    0 < n ∧ 0 ≤ m.fmod n ∧ m.fmod n < n ∨ n < 0 ∧ n < m.fmod n ∧ m.fmod n ≤ 0 := by
  rcases Int.lt_or_gt_of_ne hn with hneg | hpos
  · have hnonneg := Int.fmod_nonneg_of_pos (-m) (Int.neg_pos_of_neg hneg)
    have hlt := Int.fmod_lt_of_pos (-m) (Int.neg_pos_of_neg hneg)
    rw [Int.neg_fmod_neg] at hnonneg hlt
    omega
  · exact .inl ⟨hpos, Int.fmod_nonneg_of_pos m hpos, Int.fmod_lt_of_pos m hpos⟩

/-- The floor is a 64-bit integer again, with one exception. -/
theorem fdiv_bounds (hb : b ≠ 0) (h : ¬ (a = Int64.minValue ∧ b = -1)) :
    -0x8000000000000000 ≤ a.toInt.fdiv b.toInt ∧ a.toInt.fdiv b.toInt < 0x8000000000000000 := by
  have hlow := a.le_toInt
  have hhigh := a.toInt_lt
  have hle := Int.natAbs_fdiv_le_natAbs a.toInt b.toInt
  have hsum := Int.mul_fdiv_add_fmod a.toInt b.toInt
  have hrest := fmod_bounds a.toInt (toInt_ne_zero hb)
  refine ⟨by omega, lt_of_le_of_ne (by omega) fun hfloor => h ?_⟩
  rw [hfloor] at hsum
  rw [← Int64.toInt_inj, ← Int64.toInt_inj]
  exact ⟨by change _ = -0x8000000000000000; omega, by change _ = -1; omega⟩

theorem toInt_floorDiv (hb : b ≠ 0) (h : ¬ (a = Int64.minValue ∧ b = -1)) :
    (floorDiv a b).toInt = a.toInt.fdiv b.toInt := by
  obtain ⟨hlow, hhigh⟩ := fdiv_bounds hb h
  rw [floorDiv_eq_ofInt a hb, Int64.toInt_ofInt_of_le hlow hhigh]

theorem toInt_floorMod (a : Int64) (hb : b ≠ 0) :
    (floorMod a b).toInt = a.toInt.fmod b.toInt := by
  have hlow := b.le_toInt
  have hhigh := b.toInt_lt
  have hrest := fmod_bounds a.toInt (toInt_ne_zero hb)
  rw [floorMod_eq_ofInt a hb, Int64.toInt_ofInt_of_le (by omega) (by omega)]

theorem floorDiv_minValue : floorDiv Int64.minValue (-1) = Int64.minValue := by decide

theorem toInt_div (h : ¬ (a = Int64.minValue ∧ b = -1)) :
    (a / b).toInt = a.toInt.tdiv b.toInt := by
  rcases not_and_or.1 h with ha | hb
  · exact Int64.toInt_div_of_ne_left a b ha
  · exact Int64.toInt_div_of_ne_right a b hb

/-- The correction of a quotient is no wrap-around: it gives the floor, which is a 64-bit
integer. -/
theorem floorDiv?_eq (hb : b ≠ 0) : floorDiv? a b = some (floorDiv a b) := by
  rw [floorDiv?, floorDiv]
  split
  · rename_i hcorrected
    -- The one quotient that wraps around leaves no rest, so it is not corrected.
    have hne : ¬ (a = Int64.minValue ∧ b = -1) := by
      rintro ⟨rfl, rfl⟩
      exact hcorrected.1 rfl
    have hfloor : (a / b).toInt - (1 : Int64).toInt = a.toInt.fdiv b.toInt := by
      rw [toInt_div hne, fdiv_eq_tdiv_sub (toInt_ne_zero hb),
        if_pos ((isCorrected_iff a b).1 hcorrected)]
      rfl
    rw [sub?, hfloor, if_pos (fdiv_bounds hb hne)]
  · rfl

/-- **Floor division and its remainder are exact**: the quotient is the floor of the exact one,
except for the one that is no 64-bit integer, and wraps around; the remainder is what the exact
floor leaves, also then and where the product leaves the 64-bit integers.  It lies between zero
and the divisor.  No step wraps around but the machine's division, the product and the difference,
which are meant to. -/
theorem floorDiv_floorMod_spec (a : Int64) (hb : b ≠ 0) :
    floorDiv? a b = some (floorDiv a b) ∧ floorMod? a b = some (floorMod a b) ∧
    (¬ (a = Int64.minValue ∧ b = -1) → (floorDiv a b).toInt = ⌊(a.toInt / b.toInt : ℚ)⌋) ∧
    (a = Int64.minValue ∧ b = -1 → floorDiv a b = Int64.minValue) ∧
    (floorMod a b).toInt = a.toInt - b.toInt * ⌊(a.toInt / b.toInt : ℚ)⌋ ∧
    (floorMod a b = 0 ∨ 0 < floorMod a b ∧ 0 < b ∨ floorMod a b < 0 ∧ b < 0) ∧
    (floorMod a b).toInt.natAbs < b.toInt.natAbs ∧
    floorDiv a b * b + floorMod a b = a := by
  have hrest := fmod_bounds a.toInt (toInt_ne_zero hb)
  refine ⟨floorDiv?_eq hb, ?_, fun h => ?_, ?_, ?_, ?_, ?_, ?_⟩
  · rw [floorMod?, floorDiv?_eq hb]
    rfl
  · rw [toInt_floorDiv hb h, floor_div_eq_fdiv]
  · rintro ⟨rfl, rfl⟩
    exact floorDiv_minValue
  · rw [toInt_floorMod a hb, floor_div_eq_fdiv, Int.fmod_def]
  · rw [← Int64.toInt_inj, Int64.lt_iff_toInt_lt, Int64.lt_iff_toInt_lt, Int64.lt_iff_toInt_lt,
      Int64.lt_iff_toInt_lt, toInt_floorMod a hb, Int64.toInt_zero]
    omega
  · rw [toInt_floorMod a hb]
    omega
  · rw [floorMod, Int64.add_comm, Int64.sub_add_cancel]

/-- The product of the quotient with three is below the 64-bit integers. -/
theorem floorDiv_floorMod_spec_minValue :
    (3 : Int64) ≠ 0 ∧ floorDiv Int64.minValue 3 = -3074457345618258603 ∧
      floorMod Int64.minValue 3 = 1 ∧
      floorDiv Int64.minValue 3 * 3 + floorMod Int64.minValue 3 = Int64.minValue ∧
      (floorMod Int64.minValue 3).toInt =
        Int64.minValue.toInt -
          (3 : Int64).toInt * ⌊(Int64.minValue.toInt / (3 : Int64).toInt : ℚ)⌋ := by
  have hb : (3 : Int64) ≠ 0 := by decide
  have h := floorDiv_floorMod_spec Int64.minValue hb
  exact ⟨hb, by decide, by decide, h.2.2.2.2.2.2.2, h.2.2.2.2.1⟩

end LuaBytecode.Word
