import LuaBytecode.Number
import LuaBytecode.Proofs.Double.Rounding
import Mathlib.Algebra.Order.Field.Power
import Mathlib.Algebra.Order.Field.Rat
import Mathlib.Data.Int.ConditionallyCompleteOrder
import Mathlib.Order.WithBot
import Mathlib.Tactic.FieldSimp

/-!
# Numbers as extended rational numbers

The value of a double as the format of doubles defines it: a sign, a power of two and a fraction
behind a leading one, or two infinities at the ends of the line.  `Double.units` counts the same
value in steps of the least double, so comparing units is comparing values.

* `Double.value?`, `Number.value?` : the exact value; a NaN has none.
* `Double.finiteValue_eq` : the value of a finite double is its units times `2 ^ -1074`.
* `Double.valueOfUnits_strictMonoOn` : values are ordered as units are.
-/

namespace LuaBytecode

/-- The rational numbers between two infinities. -/
abbrev ExtendedRat : Type := WithBot (WithTop ℚ)

namespace Double

variable {x : Double}

/-! ### The fields of a word -/

/-- The eleven bits of the exponent. -/
def exponentField (x : Double) : ℕ := x.magnitude / 0x10000000000000

/-- The fifty-two bits of the fraction. -/
def fractionField (x : Double) : ℕ := x.magnitude % 0x10000000000000

/-- The absolute value of a finite double: the exponent in the word is 1023 too large, and a one
stands in front of the fraction, unless the exponent is the least one. -/
def absoluteValue (x : Double) : ℚ :=
  if x.exponentField = 0 then x.fractionField / 2 ^ (52 : ℤ) * 2 ^ (-1022 : ℤ)
  else (1 + x.fractionField / 2 ^ (52 : ℤ)) * 2 ^ ((x.exponentField : ℤ) - 1023)

/-- The value of a finite double. -/
def finiteValue (x : Double) : ℚ := if x.isNegative then -x.absoluteValue else x.absoluteValue

/-- The exact value; a NaN has none. -/
def value? (x : Double) : Option ExtendedRat :=
  if x.isNaN then none
  else if x.isInfinite then some (if x.isNegative then ⊥ else ((⊤ : WithTop ℚ) : ExtendedRat))
  else some ((x.finiteValue : WithTop ℚ) : ExtendedRat)

/-! ### Units -/

theorem natCast_one_shiftLeft (n : ℕ) : ((1 <<< n : ℕ) : ℚ) = 2 ^ (n : ℤ) := by
  rw [Nat.one_shiftLeft, Nat.cast_pow, Nat.cast_ofNat, zpow_natCast]

theorem natCast_one_eq : ((one : ℕ) : ℚ) = 2 ^ (52 : ℤ) * 2 ^ (1022 : ℤ) :=
  (natCast_one_shiftLeft 1074).trans (zpow_add₀ two_ne_zero 52 1022)

theorem absoluteValue_eq (x : Double) : x.absoluteValue = unitsOfWord x.magnitude / one := by
  rw [absoluteValue, natCast_one_eq]
  by_cases hlow : x.magnitude < 0x10000000000000
  · have hexponent : x.exponentField = 0 := Nat.div_eq_of_lt hlow
    have hfraction : x.fractionField = x.magnitude := Nat.mod_eq_of_lt hlow
    rw [if_pos hexponent, hfraction, unitsOfWord_subnormal hlow, zpow_neg, div_mul_eq_div_div,
      div_eq_mul_inv (_ / _)]
  -- A normal word, whose exponent field is one more than the shift of its units.
  · obtain ⟨exponent, fraction, hf, hword⟩ : ∃ exponent fraction, fraction < 0x10000000000000 ∧
        x.magnitude = (exponent + 1) * 0x10000000000000 + fraction :=
      ⟨x.magnitude / 0x10000000000000 - 1, x.magnitude % 0x10000000000000,
        Nat.mod_lt _ (by omega), by omega⟩
    have hexponent : x.exponentField = exponent + 1 := by
      rw [exponentField]
      omega
    have hfraction : x.fractionField = fraction := by
      rw [fractionField]
      omega
    have hpower : (2 : ℚ) ^ exponent = 2 ^ (((exponent + 1 : ℕ) : ℤ) - 1023) * 2 ^ (1022 : ℤ) := by
      rw [← zpow_add₀ two_ne_zero, ← zpow_natCast]
      congr 1
      omega
    have hunits : (unitsOfWord x.magnitude : ℚ) = (2 ^ (52 : ℤ) + fraction) * 2 ^ exponent := by
      rw [hword, unitsOfWord_normal hf, Nat.shiftLeft_eq]
      push_cast
      norm_num
    rw [if_neg (by omega), hexponent, hfraction, hunits, hpower]
    field_simp

theorem finiteValue_eq (x : Double) : x.finiteValue = x.units / one := by
  rw [finiteValue, absoluteValue_eq, units]
  split
  · rw [Int.cast_neg, Int.cast_natCast, neg_div]
  · rw [Int.cast_natCast]

/-! ### Infinities -/

/-- The units of infinity. -/
def topUnits : ℤ := unitsOfWord topWord

theorem topUnits_pos : 0 < topUnits := by
  have hne : unitsOfWord topWord ≠ 0 := mt unitsOfWord_eq_zero_iff.1 (by decide)
  rw [topUnits]
  omega

/-- Infinity is the greatest value. -/
theorem natAbs_units_le (h : x.isNaN = false) : x.units.natAbs ≤ topUnits.natAbs := by
  rw [natAbs_units, topUnits, Int.natAbs_natCast]
  exact unitsOfWord_strictMono.monotone (Nat.le_of_not_lt (of_decide_eq_false h))

theorem isInfinite_iff : x.isInfinite = true ↔ x.units.natAbs = topUnits.natAbs := by
  rw [natAbs_units, topUnits, Int.natAbs_natCast, isInfinite, decide_eq_true_iff,
    unitsOfWord_strictMono.injective.eq_iff]

theorem units_of_isInfinite (h : x.isInfinite = true) :
    x.units = if x.isNegative then -topUnits else topUnits := by
  rw [units, of_decide_eq_true h, topUnits]

/-- The value of a number of units, infinity included. -/
def valueOfUnits (u : ℤ) : ExtendedRat :=
  if u = topUnits then ((⊤ : WithTop ℚ) : ExtendedRat)
  else if u = -topUnits then ⊥
  else (((u / one : ℚ) : WithTop ℚ) : ExtendedRat)

/-- Values are ordered as units are. -/
theorem valueOfUnits_strictMonoOn : StrictMonoOn valueOfUnits (Set.Icc (-topUnits) topUnits) := by
  rintro s ⟨hs, hs'⟩ t ⟨ht, ht'⟩ hlt
  rw [valueOfUnits, valueOfUnits, if_neg (by omega), if_neg (show t ≠ -topUnits by omega)]
  split <;> split
  · exact WithBot.bot_lt_coe _
  · exact WithBot.bot_lt_coe _
  · exact WithBot.coe_lt_coe.2 (WithTop.coe_lt_top _)
  · refine WithBot.coe_lt_coe.2 (WithTop.coe_lt_coe.2 ?_)
    exact div_lt_div_of_pos_right (Int.cast_lt.2 hlt) (Nat.cast_pos.2 one_pos)

theorem value?_eq (h : x.isNaN = false) : x.value? = some (valueOfUnits x.units) := by
  have hpos := topUnits_pos
  rw [value?, h, if_neg Bool.false_ne_true]
  cases hinf : x.isInfinite with
  | true =>
    rw [if_pos rfl, units_of_isInfinite hinf, valueOfUnits]
    cases x.isNegative with
    | true => rw [if_pos rfl, if_pos rfl, if_neg (by omega), if_pos rfl]
    | false => rw [if_neg Bool.false_ne_true, if_neg Bool.false_ne_true, if_pos rfl]
  | false =>
    have hne : x.units.natAbs ≠ topUnits.natAbs := by
      rw [Ne, ← isInfinite_iff, hinf]
      exact Bool.false_ne_true
    rw [if_neg Bool.false_ne_true, valueOfUnits, if_neg (by omega), if_neg (by omega),
      finiteValue_eq]

end Double

namespace Number

variable {a b : Number}

/-- The exact value; a NaN has none. -/
def value? : Number → Option ExtendedRat
  | int n => some (((n.toInt : ℚ) : WithTop ℚ) : ExtendedRat)
  | float x => x.value?

/-- Integers are far from infinity. -/
theorem natAbs_units_int_lt (n : Int64) : (int n).units.natAbs < Double.topUnits.natAbs := by
  have hn : n.toInt.natAbs < 1 <<< 1024 := by
    have hlow := n.le_toInt
    have hhigh := n.toInt_lt
    have htop : 0x8000000000000000 < 1 <<< 1024 := by decide +kernel
    omega
  rw [units, Double.natAbs_mul_one, Double.topUnits, Int.natAbs_natCast,
    Double.unitsOfWord_topWord]
  exact Nat.mul_lt_mul_of_pos_right hn Double.one_pos

theorem natAbs_units_le (h : a.isNaN = false) : a.units.natAbs ≤ Double.topUnits.natAbs := by
  cases a with
  | int n => exact Nat.le_of_lt (natAbs_units_int_lt n)
  | float x => exact Double.natAbs_units_le h

theorem value?_eq (h : a.isNaN = false) : a.value? = some (Double.valueOfUnits a.units) := by
  cases a with
  | int n =>
    have hlt := natAbs_units_int_lt n
    have hne : ((Double.one : ℕ) : ℚ) ≠ 0 := Nat.cast_ne_zero.2 (Nat.ne_of_gt Double.one_pos)
    rw [value?, Double.valueOfUnits, if_neg (by omega), if_neg (by omega), units, Int.cast_mul,
      Int.cast_natCast, mul_div_cancel_right₀ _ hne]
  | float x => exact Double.value?_eq h

end Number

end LuaBytecode
