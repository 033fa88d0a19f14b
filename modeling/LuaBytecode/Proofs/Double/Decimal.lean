import LuaBytecode.Proofs.Double.Rounding

/-!
# Doubles nearest to decimal numbers

`Double.ofDecimal` makes a ratio of units of a decimal number, and rounds it.  The ratio may be
reduced before it is rounded, so an integral number is rounded as such, however it is written; and
what the format of doubles has room for is not changed at all.

* `Double.isNegative_ofDecimal` : the sign is the one that was asked for, of zeros and infinities
  as well.
* `Double.nearestWord_mul` : what is rounded is the ratio.
* `Double.ofDecimal_eq_self` : an integral double of at most `2 ^ 53` comes back from its decimals.
-/

namespace LuaBytecode

variable {num den k m : Nat} {negative : Bool}

theorem divRoundEven_mul (hk : 0 < k) :
    divRoundEven (num * k) (den * k) = divRoundEven num den := by
  have hdiv : num * k / (den * k) = num / den := Nat.mul_div_mul_right num den hk
  have hmod : num * k % (den * k) = num % den * k := Nat.mul_mod_mul_right k num den
  have hbelow : 2 * (num % den * k) < den * k ↔ 2 * (num % den) < den := by
    rw [← Nat.mul_assoc]
    exact Nat.mul_lt_mul_right hk
  have habove : den * k < 2 * (num % den * k) ↔ den < 2 * (num % den) := by
    rw [← Nat.mul_assoc]
    exact Nat.mul_lt_mul_right hk
  simp only [divRoundEven, hdiv, hmod, hbelow, habove]

namespace Double

variable {x : Double}

/-! ### Ratios -/

theorem nearestWord_le_topWord (num den : Nat) : nearestWord num den ≤ topWord :=
  Nat.min_le_left _ _

theorem isNegative_ofWord_of_le {word : Nat} (h : word ≤ topWord) :
    (ofWord negative word).isNegative = negative :=
  isNegative_ofWord (Nat.lt_of_le_of_lt h (by decide))

theorem isNegative_ofRatio : (ofRatio negative num den).isNegative = negative :=
  isNegative_ofWord_of_le (nearestWord_le_topWord num den)

theorem nearestWord_mul (hk : 0 < k) : nearestWord (num * k) (den * k) = nearestWord num den := by
  have hdiv : num * k / (den * k) = num / den := Nat.mul_div_mul_right num den hk
  have hshift (n : Nat) : (den * k) <<< n = den <<< n * k := by
    rw [Nat.shiftLeft_eq, Nat.shiftLeft_eq, Nat.mul_right_comm]
  simp only [nearestWord, hdiv, hshift, divRoundEven_mul hk]

/-! ### Decimal numbers -/

theorem isNegative_ofDecimal (negative : Bool) (m : Nat) (e : Int) :
    (ofDecimal negative m e).isNegative = negative := by
  have hzero : (zero negative).isNegative = negative := isNegative_ofWord_of_le (Nat.zero_le _)
  have hinfinity : (infinity negative).isNegative = negative :=
    isNegative_ofWord_of_le (Nat.le_refl _)
  rw [ofDecimal]
  split
  · exact hzero
  split
  · exact hinfinity
  split
  · exact isNegative_ofRatio
  split
  · exact hzero
  · exact isNegative_ofRatio

/-- An integral number that is written with zeros behind the point. -/
theorem ofDecimal_mul_pow (hk : 0 < k) (hk' : k ≤ 1200) :
    ofDecimal negative (m * Nat.pow 10 k) (-k) = ofWord negative (nearestWord (m * one) 1) := by
  have hpow : 0 < Nat.pow 10 k := Nat.pow_pos (by decide)
  obtain rfl | hm := Nat.eq_zero_or_pos m
  · rw [Nat.zero_mul, Nat.zero_mul, ofDecimal, if_pos rfl]
    rfl
  · have hne : m * Nat.pow 10 k ≠ 0 := Nat.ne_of_gt (Nat.mul_pos hm hpow)
    have hratio : nearestWord (m * Nat.pow 10 k * one) (Nat.pow 10 k) =
        nearestWord (m * one) 1 := by
      have hmul : nearestWord (m * one * Nat.pow 10 k) (1 * Nat.pow 10 k) =
          nearestWord (m * one) 1 := nearestWord_mul hpow
      rwa [Nat.mul_right_comm, Nat.one_mul] at hmul
    rw [ofDecimal, if_neg hne, if_neg (by omega), if_neg (by omega), Int.natAbs_neg,
      Int.natAbs_natCast, if_neg (by omega), ofRatio, hratio]

/-- A double of integral value is the one nearest to this value. -/
theorem ofWord_nearestWord_mul_one (hx : x.units.natAbs = m * one) (hm : m ≤ 0x20000000000000) :
    ofWord x.isNegative (nearestWord (m * one) 1) = x := by
  have hword : nearestWord (m * one) 1 = x.magnitude := by
    apply unitsOfWord_strictMono.injective
    rw [unitsOfWord_nearestWord_mul_one hm, ← natAbs_units, hx]
  rw [hword, ofWord_magnitude]

/-- **An integral double comes back from its decimals**, the zero of either sign included. -/
theorem ofDecimal_eq_self (hx : x.units.natAbs = m * one) (hm : m ≤ 0x20000000000000) (hk : 0 < k)
    (hk' : k ≤ 1200) : ofDecimal x.isNegative (m * Nat.pow 10 k) (-k) = x :=
  (ofDecimal_mul_pow hk hk').trans (ofWord_nearestWord_mul_one hx hm)

end Double

end LuaBytecode
