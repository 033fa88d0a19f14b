import LuaBytecode.Proofs.Double.Units

/-!
# Rounding to doubles

`Double.nearestWord` keeps the first fifty-three binary digits of a number of units and rounds the
rest away.  So it is exact for numbers without a rest, in particular for all that `Double.floor`
and `Double.ceil` ask of it, and for the integers up to `2^53`.

* `Double.unitsOfWord_nearestWord` : the value of the nearest word.
* `Double.units_floor`, `Double.units_ceil` : rounding to integral values is exact.
* `Double.exists_units_ofInt` : the double nearest to a 64-bit integer has an integral value, which
  is the integer itself up to `2^53`.
-/

namespace LuaBytecode

/-! ### Division with rounding -/

variable {num den k : Nat}

theorem divRoundEven_le (hden : 0 < den) (h : num ≤ k * den) : divRoundEven num den ≤ k := by
  have hle : num / den ≤ k := Nat.div_le_of_le_mul (by rwa [Nat.mul_comm])
  rcases Nat.lt_or_eq_of_le hle with hlt | heq
  · rw [divRoundEven]
    split
    · exact hle
    · split <;> omega
  · -- the greatest number that is allowed leaves no rest
    have hrest : num % den = 0 := by
      have hsum := Nat.div_add_mod num den
      rw [heq, Nat.mul_comm] at hsum
      omega
    rw [divRoundEven, hrest, if_pos (by omega)]
    exact hle

theorem le_divRoundEven (hden : 0 < den) (h : k * den ≤ num) : k ≤ divRoundEven num den := by
  have hle : k ≤ num / den := (Nat.le_div_iff_mul_le hden).2 h
  rw [divRoundEven]
  split
  · exact hle
  · split <;> omega

theorem divRoundEven_of_dvd (hden : 0 < den) (h : den ∣ num) : divRoundEven num den = num / den := by
  rw [divRoundEven, Nat.mod_eq_zero_of_dvd h, if_pos (by omega)]

namespace Double

/-! ### The nearest word -/

/-- The binary places of a number of units that a double has no room for. -/
def excess (num : Nat) : Nat := num.log2 - 52

/-- The first fifty-three binary places of a number of units, rounded. -/
def leading (num : Nat) : Nat := divRoundEven num (1 <<< excess num)

theorem one_shiftLeft_pos (n : Nat) : 0 < 1 <<< n := by
  rw [Nat.one_shiftLeft]
  exact Nat.two_pow_pos n

theorem nearestWord_eq (num : Nat) :
    nearestWord num 1 = min topWord (excess num * 0x10000000000000 + leading num) := by
  rw [nearestWord, Nat.div_one]
  rfl

/-- There are fifty-three leading places, unless the number has fewer. -/
theorem leading_bounds (num : Nat) :
    (excess num = 0 ∨ 0x10000000000000 ≤ leading num) ∧ leading num ≤ 0x20000000000000 := by
  have hupper : num ≤ 0x20000000000000 * 1 <<< excess num := by
    have hlt : num < 2 ^ (53 + excess num) :=
      Nat.lt_of_lt_of_le Nat.lt_log2_self
        (Nat.pow_le_pow_right (by omega) (by rw [excess]; omega))
    rw [Nat.pow_add] at hlt
    rw [Nat.one_shiftLeft]
    exact Nat.le_of_lt hlt
  refine ⟨?_, divRoundEven_le (one_shiftLeft_pos _) hupper⟩
  rcases Nat.eq_zero_or_pos (excess num) with hzero | hpos
  · exact .inl hzero
  · have hne : num ≠ 0 := by
      rintro rfl
      exact absurd hpos (by decide)
    have hlog : num.log2 = 52 + excess num := by
      rw [excess] at hpos ⊢
      omega
    have hle := Nat.log2_self_le hne
    rw [hlog, Nat.pow_add] at hle
    refine .inr (le_divRoundEven (one_shiftLeft_pos _) ?_)
    rw [Nat.one_shiftLeft]
    exact hle

theorem unitsOfWord_scaled {shift digits : Nat} (hlow : shift = 0 ∨ 0x10000000000000 ≤ digits)
    (hhigh : digits ≤ 0x20000000000000) :
    unitsOfWord (shift * 0x10000000000000 + digits) = digits <<< shift := by
  by_cases hnormal : digits < 0x10000000000000
  · obtain rfl : shift = 0 := by omega
    rw [Nat.zero_mul, Nat.zero_add, unitsOfWord_subnormal hnormal, Nat.shiftLeft_zero]
  rcases Nat.lt_or_eq_of_le hhigh with hlt | rfl
  · have hword : shift * 0x10000000000000 + digits =
        (shift + 1) * 0x10000000000000 + (digits - 0x10000000000000) := by
      omega
    rw [hword, unitsOfWord_normal (by omega), Nat.add_sub_cancel' (by omega)]
  · -- the digits were rounded up to the next power of two
    have hword : shift * 0x10000000000000 + 0x20000000000000 =
        (shift + 1 + 1) * 0x10000000000000 + 0 := by
      omega
    rw [hword, unitsOfWord_normal (by omega), Nat.shiftLeft_succ_inside]

/-- The value of the nearest word: the leading places, with zeros for the rest. -/
theorem unitsOfWord_nearestWord {num : Nat} (h : num.log2 ≤ 2096) :
    unitsOfWord (nearestWord num 1) = leading num <<< excess num := by
  obtain ⟨hlow, hhigh⟩ := leading_bounds num
  have hexcess : excess num ≤ 2044 := by
    rw [excess]
    omega
  rw [nearestWord_eq, Nat.min_eq_right, unitsOfWord_scaled hlow hhigh]
  rw [topWord]
  omega

theorem nearestWord_lt (num : Nat) : nearestWord num 1 < 0x8000000000000000 := by
  have hle : nearestWord num 1 ≤ topWord := by
    rw [nearestWord_eq]
    exact Nat.min_le_left _ _
  rw [topWord] at hle
  omega

/-- Rounding is exact if nothing is lost with the rest. -/
theorem unitsOfWord_nearestWord_of_dvd {num : Nat} (h : num.log2 ≤ 2096)
    (hdvd : 1 <<< excess num ∣ num) : unitsOfWord (nearestWord num 1) = num := by
  rw [unitsOfWord_nearestWord h, leading, divRoundEven_of_dvd (one_shiftLeft_pos _) hdvd,
    Nat.shiftLeft_eq, Nat.one_shiftLeft]
  rw [Nat.one_shiftLeft] at hdvd
  exact Nat.div_mul_cancel hdvd

/-! ### Whole numbers -/

theorem log2_shiftLeft {m : Nat} (hm : m ≠ 0) (k : Nat) : (m <<< k).log2 = m.log2 + k := by
  have hpos : m * 2 ^ k ≠ 0 := Nat.mul_ne_zero hm (Nat.pos_iff_ne_zero.1 (Nat.two_pow_pos k))
  rw [Nat.shiftLeft_eq, Nat.log2_eq_iff hpos, Nat.pow_add, Nat.add_right_comm, Nat.pow_add]
  exact ⟨Nat.mul_le_mul_right _ (Nat.log2_self_le hm),
    Nat.mul_lt_mul_of_pos_right Nat.lt_log2_self (Nat.two_pow_pos k)⟩

theorem shiftLeft_dvd {n k : Nat} (h : n ≤ k) : 1 <<< n ∣ 1 <<< k := by
  rw [Nat.one_shiftLeft, Nat.one_shiftLeft]
  exact Nat.pow_dvd_pow 2 h

theorem shiftLeft_eq_mul_one (m : Nat) : m <<< 1074 = m * one := by
  rw [one, Nat.shiftLeft_eq m, Nat.one_shiftLeft]

theorem log2_mul_one {m : Nat} (hm : m ≠ 0) : (m * one).log2 = m.log2 + 1074 := by
  rw [← shiftLeft_eq_mul_one, log2_shiftLeft hm]

/-- A whole number below `2^53` has no rest. -/
theorem unitsOfWord_nearestWord_mul_one {m : Nat} (h : m ≤ 0x20000000000000) :
    unitsOfWord (nearestWord (m * one) 1) = m * one := by
  rcases Nat.eq_zero_or_pos m with rfl | hpos
  · rw [Nat.zero_mul]
    rfl
  have hlog := log2_mul_one (Nat.pos_iff_ne_zero.1 hpos)
  have hm : m.log2 ≤ 53 := by
    have hlt : m.log2 < 54 := (Nat.log2_lt (Nat.pos_iff_ne_zero.1 hpos)).2 (by omega)
    omega
  refine unitsOfWord_nearestWord_of_dvd (by omega) ?_
  rcases Nat.lt_or_eq_of_le h with hlt | rfl
  · have hm' : m.log2 < 53 := (Nat.log2_lt (Nat.pos_iff_ne_zero.1 hpos)).2 (by omega)
    exact Nat.dvd_mul_left_of_dvd (shiftLeft_dvd (by rw [excess]; omega)) m
  · decide +kernel

/-- Rounded to a double, a whole number is whole, and it stays within the powers of two. -/
theorem exists_unitsOfWord_nearestWord {m : Nat} (h : m ≤ 0x8000000000000000) :
    ∃ k ≤ 0x8000000000000000, unitsOfWord (nearestWord (m * one) 1) = k * one := by
  by_cases hsmall : m ≤ 0x20000000000000
  · exact ⟨m, h, unitsOfWord_nearestWord_mul_one hsmall⟩
  have hm : m ≠ 0 := by omega
  have hlog := log2_mul_one hm
  have hlow : 53 ≤ m.log2 := (Nat.le_log2 hm).2 (by omega)
  have hhigh : m.log2 < 64 := (Nat.log2_lt hm).2 (by omega)
  obtain ⟨d, hd⟩ : ∃ d, m.log2 = 52 + d := ⟨m.log2 - 52, by omega⟩
  have hexcess : excess (m * one) = 1074 + d := by
    rw [excess]
    omega
  refine ⟨leading (m * one) <<< d, ?_, ?_⟩
  · -- `2 ^ 63` bounds the number, so `2 ^ (63 - d)` bounds the leading places
    have hsplit : 1 <<< (63 - d) * 1 <<< d = 0x8000000000000000 := by
      rw [Nat.one_shiftLeft, Nat.one_shiftLeft, ← Nat.pow_add, Nat.sub_add_cancel (by omega)]
    have hle : leading (m * one) ≤ 1 <<< (63 - d) := by
      refine divRoundEven_le (one_shiftLeft_pos _) ?_
      have hone : 1 <<< (1074 + d) = 1 <<< d * one := by
        rw [Nat.add_comm, Nat.shiftLeft_add, shiftLeft_eq_mul_one]
      rw [hexcess, hone, ← Nat.mul_assoc, hsplit]
      exact Nat.mul_le_mul_right one h
    rw [Nat.shiftLeft_eq, ← hsplit, ← Nat.one_shiftLeft]
    exact Nat.mul_le_mul_right _ hle
  · rw [unitsOfWord_nearestWord (by omega), hexcess, Nat.add_comm, Nat.shiftLeft_add,
      shiftLeft_eq_mul_one]

/-! ### Doubles from units -/

theorem units_ofWord {negative : Bool} {word : Nat} (h : word < 0x8000000000000000) :
    (ofWord negative word).units =
      if negative then -(unitsOfWord word : Int) else unitsOfWord word := by
  rw [units, magnitude_ofWord h, isNegative_ofWord h]

theorem isNaN_ofUnits (u : Int) : (ofUnits u).isNaN = false := by
  have hle : nearestWord u.natAbs 1 ≤ topWord := by
    rw [nearestWord_eq]
    exact Nat.min_le_left _ _
  rw [ofUnits, ofRatio, isNaN, magnitude_ofWord (nearestWord_lt _)]
  exact decide_eq_false (Nat.not_lt_of_le hle)

/-- The sign of the units is kept. -/
theorem units_ofUnits (u : Int) {k : Nat} (h : unitsOfWord (nearestWord u.natAbs 1) = k) :
    (ofUnits u).units = if u < 0 then -(k : Int) else k := by
  rw [ofUnits, ofRatio, units_ofWord (nearestWord_lt _), h]
  simp only [decide_eq_true_eq]

theorem natAbs_mul_one (m : Int) : (m * one).natAbs = m.natAbs * one := by
  rw [Int.natAbs_mul, Int.natAbs_natCast]

theorem natCast_one_pos : (0 : Int) < one := Int.natCast_pos.2 one_pos

theorem mul_one_le_mul_one_iff {s t : Int} : s * one ≤ t * one ↔ s ≤ t :=
  ⟨fun h => Int.le_of_mul_le_mul_right h natCast_one_pos,
    fun h => Int.mul_le_mul_of_nonneg_right h (Int.le_of_lt natCast_one_pos)⟩

theorem mul_one_ediv_one (q : Int) : q * one / one = q :=
  Int.mul_ediv_cancel q (Int.ne_of_gt natCast_one_pos)

theorem mul_one_neg_iff {m : Int} : m * one < 0 ↔ m < 0 := by
  have hone := natCast_one_pos
  refine ⟨fun h => Int.lt_of_not_ge fun hm => ?_, fun h => Int.mul_neg_of_neg_of_pos h hone⟩
  have hnonneg := Int.mul_nonneg hm (Int.le_of_lt hone)
  omega

theorem units_ofUnits_mul_one {m : Int} (h : m.natAbs ≤ 0x20000000000000) :
    (ofUnits (m * one)).units = m * one := by
  have hword : unitsOfWord (nearestWord (m * one).natAbs 1) = m.natAbs * one := by
    rw [natAbs_mul_one]
    exact unitsOfWord_nearestWord_mul_one h
  rw [units_ofUnits _ hword, Int.natCast_mul]
  simp only [mul_one_neg_iff]
  split
  · rw [← Int.neg_mul]
    congr 1
    omega
  · congr 1
    omega

/-- **The double nearest to a 64-bit integer has an integral value**, which is the integer itself
up to `2^53` on either side of zero. -/
theorem exists_units_ofInt {n : Int} (h : n.natAbs ≤ 0x8000000000000000) :
    ∃ k : Int, (ofInt n).units = k * one ∧ k.natAbs ≤ 0x8000000000000000 ∧
      (n.natAbs ≤ 0x20000000000000 → k = n) := by
  by_cases hsmall : n.natAbs ≤ 0x20000000000000
  · exact ⟨n, units_ofUnits_mul_one hsmall, h, fun _ => rfl⟩
  · obtain ⟨k, hk, hword⟩ := exists_unitsOfWord_nearestWord h
    rw [← natAbs_mul_one] at hword
    refine ⟨if n < 0 then -k else k, ?_, ?_, fun hle => absurd hle hsmall⟩
    · rw [ofInt, units_ofUnits _ hword, Int.natCast_mul]
      simp only [mul_one_neg_iff]
      split
      · exact (Int.neg_mul _ _).symm
      · rfl
    · split <;> omega

/-! ### Integral values -/

theorem unitsOfWord_of_not_dvd {word : Nat} (h : ¬ one ∣ unitsOfWord word) :
    unitsOfWord word ≤ 0x10000000000000 * one := by
  have hedge : unitsOfWord (0x433 * 0x10000000000000) = 0x10000000000000 * one := by
    decide +kernel
  refine hedge ▸ unitsOfWord_strictMono.monotone (Nat.le_of_not_lt fun hlt => h ?_)
  -- above `2 ^ 52` the spacing of doubles is at least one
  obtain ⟨d, fraction, hf, rfl⟩ : ∃ d fraction, fraction < 0x10000000000000 ∧
      word = (1074 + d + 1) * 0x10000000000000 + fraction :=
    ⟨word / 0x10000000000000 - 1075, word % 0x10000000000000, Nat.mod_lt _ (by omega), by omega⟩
  rw [unitsOfWord_normal hf, Nat.add_comm 1074, Nat.shiftLeft_add, shiftLeft_eq_mul_one]
  exact Nat.dvd_mul_left _ _

theorem unitsOfWord_topWord : unitsOfWord topWord = 1 <<< 1024 * one := by decide +kernel

theorem dvd_units_of_isInfinite {x : Double} (h : x.isInfinite = true) : (one : Int) ∣ x.units := by
  rw [← Int.natAbs_dvd_natAbs, Int.natAbs_natCast, natAbs_units, of_decide_eq_true h,
    unitsOfWord_topWord]
  exact Nat.dvd_mul_left _ _

theorem natAbs_ediv_one_le {x : Double} (h : x.units % one ≠ 0) :
    (x.units / one).natAbs ≤ 0x20000000000000 := by
  have hone := natCast_one_pos
  have hle : x.units.natAbs ≤ 0x10000000000000 * one := by
    rw [natAbs_units]
    refine unitsOfWord_of_not_dvd fun hdvd => h (Int.emod_eq_zero_of_dvd ?_)
    rwa [← Int.natAbs_dvd_natAbs, Int.natAbs_natCast, natAbs_units]
  have hlow : -0x10000000000000 ≤ x.units / one := by
    refine (Int.le_ediv_iff_mul_le hone).2 ?_
    omega
  have hhigh : x.units / one ≤ 0x10000000000000 := by
    refine Int.ediv_le_of_le_mul hone ?_
    omega
  omega

/-- The floor is exact. -/
theorem units_floor {x : Double} (h : x.isNaN = false) : x.floor.units = x.units / one * one := by
  have hdiv : x.units / one * one = x.units - x.units % one := by
    have hsum := Int.ediv_mul_add_emod x.units one
    omega
  rw [floor]
  split
  · rename_i hkept
    simp only [h, Bool.false_or, Bool.or_eq_true, decide_eq_true_eq] at hkept
    have hrest : x.units % one = 0 :=
      hkept.elim (fun hinf => Int.emod_eq_zero_of_dvd (dvd_units_of_isInfinite hinf)) id
    rw [hdiv, hrest, Int.sub_zero]
  · rename_i hcut
    simp only [Bool.or_eq_true, decide_eq_true_eq, not_or] at hcut
    rw [← hdiv]
    exact units_ofUnits_mul_one (natAbs_ediv_one_le hcut.2)

theorem isNaN_floor {x : Double} (h : x.isNaN = false) : x.floor.isNaN = false := by
  rw [floor]
  split
  · exact h
  · exact isNaN_ofUnits _

theorem magnitude_lt (x : Double) : x.magnitude < 0x8000000000000000 := Nat.mod_lt _ (by omega)

theorem isNaN_neg (x : Double) : x.neg.isNaN = x.isNaN := by
  rw [neg, isNaN, isNaN, magnitude_ofWord x.magnitude_lt]

theorem units_neg (x : Double) : x.neg.units = -x.units := by
  rw [neg, units_ofWord x.magnitude_lt, units]
  cases x.isNegative with
  | false => rfl
  | true => exact (Int.neg_neg _).symm

/-- So is the ceiling. -/
theorem units_ceil {x : Double} (h : x.isNaN = false) :
    x.ceil.units = -(-x.units / one) * one := by
  rw [ceil, units_neg, units_floor (x.isNaN_neg.trans h), units_neg, Int.neg_mul]

theorem isNaN_ceil {x : Double} (h : x.isNaN = false) : x.ceil.isNaN = false := by
  rw [ceil, isNaN_neg]
  exact isNaN_floor (x.isNaN_neg.trans h)

/-! ### The range of the 64-bit integers -/

theorem units_beyondInt : beyondInt.units = 0x8000000000000000 * one := by decide +kernel

/-- A double is beyond the 64-bit integers if its floor is. -/
theorem beyondInt_le_iff {x : Double} (h : x.isNaN = false) :
    beyondInt.le x = true ↔ 0x8000000000000000 ≤ x.units / one := by
  have hnan : beyondInt.isNaN = false := by decide
  rw [le, h, hnan, units_beyondInt, Int.le_ediv_iff_mul_le natCast_one_pos]
  simp only [Bool.not_false, Bool.true_and, decide_eq_true_eq]

/-- A double is below the 64-bit integers if its floor is. -/
theorem lt_neg_beyondInt_iff {x : Double} (h : x.isNaN = false) :
    x.lt beyondInt.neg = true ↔ x.units / one < -0x8000000000000000 := by
  have hnan : beyondInt.neg.isNaN = false := by decide
  rw [lt, h, hnan, units_neg, units_beyondInt, ← Int.neg_mul,
    Int.ediv_lt_iff_lt_mul natCast_one_pos]
  simp only [Bool.not_false, Bool.true_and, decide_eq_true_eq]

/-- An integral value, kept within the 64-bit integers. -/
theorem toInt_saturate {x : Double} {q : Int} (h : x.isNaN = false) (hq : x.units = q * one) :
    x.saturate.toInt = max (-0x8000000000000000) (min 0x7fffffffffffffff q) := by
  rw [saturate, h, hq, Int.mul_tdiv_cancel q (Int.ne_of_gt natCast_one_pos)]
  simp only [Bool.false_eq_true, if_false]
  exact Int64.toInt_ofInt_of_le (by omega) (by omega)

end Double

end LuaBytecode
