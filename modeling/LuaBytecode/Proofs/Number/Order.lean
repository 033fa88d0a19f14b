import LuaBytecode.Operator
import LuaBytecode.Proofs.Double.Value

/-!
# The order of numbers

Integers and floats are compared without rounding either of them: an integer with a float through
the floor of the float, within the range where the floor is a 64-bit integer, and equality through
the integer that a float is.  So the two, which are computed in different ways, are one order, that
of the exact values.

* `Number.compareIntDouble?_eq` : an integer and a float are ordered as their units are.
* `Number.lt_iff`, `Number.le_iff`, `Number.eq_iff` : the comparisons in units.
* `Number.comparisons_exact` : the comparisons are those of the values, and coherent.
-/

namespace LuaBytecode.Number

variable {a b : Number} {n : Int64} {x : Double}

/-! ### Orderings -/

theorem compare_toInt (m n : Int64) : compare m n = compare m.toInt n.toInt := by
  rcases Int.lt_trichotomy m.toInt n.toInt with h | h | h
  · rw [Int.compare_eq_lt.2 h, Std.compare_eq_lt.2 (Int64.lt_iff_toInt_lt.2 h)]
  · rw [Int.compare_eq_eq.2 h, Std.compare_eq_iff_eq.2 (Int64.toInt_inj.1 h)]
  · rw [Int.compare_eq_gt.2 h, Std.compare_eq_gt.2 (Int64.lt_iff_toInt_lt.2 h)]

theorem compare_mul_one (s t : ℤ) : compare (s * Double.one) (t * Double.one) = compare s t := by
  rcases Int.lt_trichotomy s t with h | h | h
  · rw [Int.compare_eq_lt.2 h,
      Int.compare_eq_lt.2 (Int.mul_lt_mul_of_pos_right h Double.natCast_one_pos)]
  · rw [h, Int.compare_eq_eq.2 rfl, Int.compare_eq_eq.2 rfl]
  · rw [Int.compare_eq_gt.2 h,
      Int.compare_eq_gt.2 (Int.mul_lt_mul_of_pos_right h Double.natCast_one_pos)]

/-! ### An integer and a float -/

/-- The floor is as good as the float, unless it is the integer itself: then the fraction
decides. -/
theorem compare_mul_one_left (n u : ℤ) :
    compare (n * Double.one) u =
      if n = u / Double.one then if u / Double.one * Double.one < u then .lt else .eq
      else compare n (u / Double.one) := by
  have hfloor : u / Double.one * Double.one ≤ u :=
    Int.ediv_mul_le _ (Int.ne_of_gt Double.natCast_one_pos)
  rcases Int.lt_trichotomy n (u / Double.one) with h | rfl | h
  · have hlt := Int.mul_lt_mul_of_pos_right h Double.natCast_one_pos
    rw [if_neg (Int.ne_of_lt h), Int.compare_eq_lt.2 h, Int.compare_eq_lt.2 (by omega)]
  · rw [if_pos rfl]
    split
    · exact Int.compare_eq_lt.2 ‹_›
    · exact Int.compare_eq_eq.2 (by omega)
  · rw [if_neg (Int.ne_of_gt h), Int.compare_eq_gt.2 h,
      Int.compare_eq_gt.2 ((Int.ediv_lt_iff_lt_mul Double.natCast_one_pos).1 h)]

theorem lt_floor_iff (h : x.isNaN = false) :
    x.floor.lt x = true ↔ x.units / Double.one * Double.one < x.units := by
  rw [Double.lt, Double.isNaN_floor h, h, Double.units_floor h]
  simp only [Bool.not_false, Bool.true_and, decide_eq_true_eq]

/-- **An integer and a float are ordered by their exact values**, also where the float is beyond
the integers, or the integer is no float. -/
theorem compareIntDouble?_eq (h : x.isNaN = false) (n : Int64) :
    compareIntDouble? n x = some (compare (n.toInt * Double.one) x.units) := by
  have hlow := n.le_toInt
  have hhigh := n.toInt_lt
  rw [compareIntDouble?, h, if_neg Bool.false_ne_true, compare_mul_one_left]
  by_cases hbeyond : Double.beyondInt.le x = true
  · rw [if_pos hbeyond]
    rw [Double.beyondInt_le_iff h] at hbeyond
    rw [if_neg (by omega), Int.compare_eq_lt.2 (by omega)]
  by_cases hbelow : x.lt Double.beyondInt.neg = true
  · rw [if_neg hbeyond, if_pos hbelow]
    rw [Double.lt_neg_beyondInt_iff h] at hbelow
    rw [if_neg (by omega), Int.compare_eq_gt.2 (by omega)]
  rw [if_neg hbeyond, if_neg hbelow]
  rw [Double.beyondInt_le_iff h] at hbeyond
  rw [Double.lt_neg_beyondInt_iff h] at hbelow
  -- Within the range the floor is a 64-bit integer, and the cast does not saturate.
  have hsaturate : x.floor.saturate.toInt = x.units / Double.one := by
    rw [Double.toInt_saturate (Double.isNaN_floor h) (Double.units_floor h)]
    omega
  rw [compare_toInt, hsaturate]
  rcases Int.lt_trichotomy n.toInt (x.units / Double.one) with hlt | heq | hgt
  · rw [if_neg (Int.ne_of_lt hlt), Int.compare_eq_lt.2 hlt]
  · rw [if_pos heq, Int.compare_eq_eq.2 heq]
    simp only [lt_floor_iff h]
  · rw [if_neg (Int.ne_of_gt hgt), Int.compare_eq_gt.2 hgt]

/-- Numbers are ordered as their units are. -/
theorem compare?_eq (a b : Number) :
    a.compare? b = if a.isNaN || b.isNaN then none else some (compare a.units b.units) := by
  cases a with
  | int m =>
    cases b with
    | int n => exact congrArg some ((compare_toInt m n).trans (compare_mul_one _ _).symm)
    | float y =>
      cases hy : y.isNaN with
      | true => simp only [compare?, compareIntDouble?, isNaN, hy, Bool.or_true, if_true]
      | false =>
        simp only [compare?, compareIntDouble?_eq hy, isNaN, hy, Bool.or_false,
          Bool.false_eq_true, if_false, units]
  | float x =>
    cases b with
    | int n =>
      cases hx : x.isNaN with
      | true => simp only [compare?, compareIntDouble?, isNaN, hx, Bool.or_false, if_true,
          Option.map_none]
      | false =>
        simp only [compare?, compareIntDouble?_eq hx, isNaN, hx, Bool.or_false,
          Bool.false_eq_true, if_false, Option.map_some, units, Int.compare_swap]
    | float y => rfl

/-! ### Comparisons -/

theorem lt_iff : a.lt b = true ↔ a.isNaN = false ∧ b.isNaN = false ∧ a.units < b.units := by
  rw [lt, compare?_eq, ← Int.compare_eq_lt, ← Ordering.isLT_iff_eq_lt]
  cases a.isNaN <;> cases b.isNaN <;> simp

theorem le_iff : a.le b = true ↔ a.isNaN = false ∧ b.isNaN = false ∧ a.units ≤ b.units := by
  rw [le, compare?_eq, ← Int.isLE_compare]
  cases a.isNaN <;> cases b.isNaN <;> simp

/-- The integer that a float is, if it is one, is the only integer with its value. -/
theorem toInt?_eq_iff (x : Double) (n : Int64) :
    x.toInt? = some n ↔ x.isNaN = false ∧ x.units = (int n).units := by
  rw [Double.toInt?_eq_some_iff]
  refine and_congr_right fun _ => ⟨And.right, fun hu => ⟨?_, hu⟩⟩
  rw [← Bool.not_eq_true, Double.isInfinite_iff, hu]
  exact Nat.ne_of_lt (natAbs_units_int_lt n)

theorem eq_iff : a.eq b = true ↔ a.isNaN = false ∧ b.isNaN = false ∧ a.units = b.units := by
  cases a with
  | int m =>
    cases b with
    | int n =>
      have hone : (Double.one : ℤ) ≠ 0 := Int.ne_of_gt Double.natCast_one_pos
      rw [eq, beq_iff_eq, units, units, Int.mul_eq_mul_right_iff hone, Int64.toInt_inj]
      simp only [isNaN, true_and]
    | float y =>
      rw [eq, beq_iff_eq, toInt?_eq_iff]
      simp only [isNaN, units, true_and, eq_comm]
  | float x =>
    cases b with
    | int n =>
      rw [eq, beq_iff_eq, toInt?_eq_iff]
      simp only [isNaN, units, true_and]
    | float y => exact Double.eq_iff

theorem le_eq_or (a b : Number) : a.le b = (a.lt b || a.eq b) := by
  rw [Bool.eq_iff_iff, Bool.or_eq_true, le_iff, lt_iff, eq_iff, ← and_or_left, ← and_or_left,
    Int.le_iff_lt_or_eq]

theorem lt_trans {c : Number} (h : a.lt b = true) (h' : b.lt c = true) : a.lt c = true := by
  obtain ⟨ha, -, hlt⟩ := lt_iff.1 h
  obtain ⟨-, hc, hlt'⟩ := lt_iff.1 h'
  exact lt_iff.2 ⟨ha, hc, Int.lt_trans hlt hlt'⟩

theorem le_trans {c : Number} (h : a.le b = true) (h' : b.le c = true) : a.le c = true := by
  obtain ⟨ha, -, hle⟩ := le_iff.1 h
  obtain ⟨-, hc, hle'⟩ := le_iff.1 h'
  exact le_iff.2 ⟨ha, hc, Int.le_trans hle hle'⟩

theorem eq_trans {c : Number} (h : a.eq b = true) (h' : b.eq c = true) : a.eq c = true := by
  obtain ⟨ha, -, heq⟩ := eq_iff.1 h
  obtain ⟨-, hc, heq'⟩ := eq_iff.1 h'
  exact eq_iff.2 ⟨ha, hc, heq.trans heq'⟩

/-! ### Values -/

/-- Two numbers that are not NaN have values, which are ordered as their units are. -/
theorem exists_values (ha : a.isNaN = false) (hb : b.isNaN = false) :
    ∃ u ∈ a.value?, ∃ v ∈ b.value?,
      (u < v ↔ a.units < b.units) ∧ (u ≤ v ↔ a.units ≤ b.units) ∧ (u = v ↔ a.units = b.units) := by
  have hrange {c : Number} (hc : c.isNaN = false) :
      c.units ∈ Set.Icc (-Double.topUnits) Double.topUnits := by
    have hle := natAbs_units_le hc
    have hpos := Double.topUnits_pos
    rw [Set.mem_Icc]
    omega
  have hmono := Double.valueOfUnits_strictMonoOn
  exact ⟨_, value?_eq ha, _, value?_eq hb, hmono.lt_iff_lt (hrange ha) (hrange hb),
    hmono.le_iff_le (hrange ha) (hrange hb), hmono.injOn.eq_iff (hrange ha) (hrange hb)⟩

/-- **Numbers are compared by their exact values**, integers and floats in any mix and without
rounding.  Numbers that are not NaN are ordered linearly, so that exactly one of `a < b`, `a = b`
and `b < a` holds; and a NaN compares with nothing. -/
theorem comparisons_exact (a b : Number) :
    ((Value.number a).rawLt? (.number b) = some (a.lt b) ∧
      (Value.number a).rawLe? (.number b) = some (a.le b) ∧
      (Value.number a).rawEq (.number b) = a.eq b) ∧
    (a.isNaN = true ∨ b.isNaN = true → a.lt b = false ∧ a.le b = false ∧ a.eq b = false) ∧
    (a.isNaN = false → b.isNaN = false →
      (∃ u ∈ a.value?, ∃ v ∈ b.value?,
        a.lt b = decide (u < v) ∧ a.le b = decide (u ≤ v) ∧ a.eq b = decide (u = v)) ∧
      (a.lt b = true ∧ a.eq b = false ∧ b.lt a = false ∨
        a.lt b = false ∧ a.eq b = true ∧ b.lt a = false ∨
        a.lt b = false ∧ a.eq b = false ∧ b.lt a = true)) ∧
    a.le b = (a.lt b || a.eq b) ∧
    ∀ c, (a.lt b = true → b.lt c = true → a.lt c = true) ∧
      (a.le b = true → b.le c = true → a.le c = true) ∧
      (a.eq b = true → b.eq c = true → a.eq c = true) := by
  refine ⟨⟨rfl, rfl, rfl⟩, fun h => ?_, fun ha hb => ⟨?_, ?_⟩, le_eq_or a b, fun c =>
    ⟨lt_trans, le_trans, eq_trans⟩⟩
  · rw [← Bool.not_eq_true, ← Bool.not_eq_true, ← Bool.not_eq_true, lt_iff, le_iff, eq_iff]
    rcases h with h | h <;> simp [h]
  · obtain ⟨u, hu, v, hv, hlt, hle, heq⟩ := exists_values ha hb
    refine ⟨u, hu, v, hv, ?_, ?_, ?_⟩ <;> rw [Bool.eq_iff_iff, decide_eq_true_iff]
    · simp only [lt_iff, hlt, ha, hb, true_and]
    · simp only [le_iff, hle, ha, hb, true_and]
    · simp only [eq_iff, heq, ha, hb, true_and]
  · simp only [← Bool.not_eq_true, lt_iff, eq_iff, ha, hb, true_and]
    omega

/-- The float nearest to `2 ^ 53 + 1` is below it. -/
example : (float ⟨0x4340000000000000⟩).lt (int 9007199254740993) = true ∧
    (int 9007199254740993).toDouble = ⟨0x4340000000000000⟩ := by
  decide +kernel

end LuaBytecode.Number
