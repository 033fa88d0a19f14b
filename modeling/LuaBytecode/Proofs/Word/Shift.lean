import LuaBytecode.Operator
import Mathlib.Algebra.Group.Nat.Defs

/-!
# Shifts of words

The machine shifts by counts below the width only, and which way is in the name of the operation.
`Word.shiftLeft` and `Word.shiftRight` take counts of any size and sign: they scale the word, read
without a sign, by a power of two.

* `Word.shiftUp?`, `Word.shiftDown?`, `Word.neg?` : the machine's operations, where they are defined.
* `Word.shiftLeft?_eq` : the guards keep within them.
* `Word.toNat_shiftLeft_of_nonneg`, `Word.toNat_shiftLeft_of_neg` : the two ways of a shift.
* `Word.shiftLeft_shiftRight_spec` : both shifts as operations on numbers.
-/

namespace LuaBytecode.Word

variable {x n : Int64}

/-! ### Steps that have to be defined -/

/-- The machine's shift to the left, if the count is below the width. -/
def shiftUp? (w : UInt64) (n : Int64) : Option UInt64 :=
  if 0 ≤ n.toInt ∧ n.toInt < 64 then some (w <<< n.toUInt64) else none

/-- The machine's shift to the right, if the count is below the width. -/
def shiftDown? (w : UInt64) (n : Int64) : Option UInt64 :=
  if 0 ≤ n.toInt ∧ n.toInt < 64 then some (w >>> n.toUInt64) else none

/-- The negative, if it is a 64-bit integer. -/
def neg? (n : Int64) : Option Int64 := if n = Int64.minValue then none else some (-n)

/-- `shiftLeft`, of steps that have to be defined. -/
def shiftLeft? (x n : Int64) : Option Int64 :=
  if n ≤ -64 ∨ 64 ≤ n then some 0
  else if 0 ≤ n then (shiftUp? x.toUInt64 n).map UInt64.toInt64
  else (neg? n).bind fun m => (shiftDown? x.toUInt64 m).map UInt64.toInt64

/-- `shiftRight`, on the same terms; the count is meant to wrap around. -/
def shiftRight? (x n : Int64) : Option Int64 := shiftLeft? x (-n)

/-! ### Counts -/

/-- The count is as large as the width, in one direction or the other. -/
theorem isBeyond_iff : (n ≤ -64 ∨ 64 ≤ n) ↔ 64 ≤ n.toInt.natAbs := by
  have h : (-64 : Int64).toInt = -64 := rfl
  have h' : (64 : Int64).toInt = 64 := rfl
  rw [Int64.le_iff_toInt_le, Int64.le_iff_toInt_le, h, h']
  omega

theorem zero_le_iff : 0 ≤ n ↔ 0 ≤ n.toInt := by
  rw [Int64.le_iff_toInt_le, Int64.toInt_zero]

/-- The only count without a negative stays as it is. -/
theorem toInt_neg_cases (n : Int64) :
    (-n).toInt = -n.toInt ∨ n.toInt = -0x8000000000000000 ∧ (-n).toInt = n.toInt := by
  have hlow := n.le_toInt
  have hhigh := n.toInt_lt
  by_cases hmin : n.toInt = -0x8000000000000000
  · obtain rfl : n = Int64.minValue := Int64.toInt_inj.1 hmin
    exact .inr ⟨rfl, rfl⟩
  · rw [Int64.toInt_neg]
    exact .inl (Int.bmod_eq_of_le (by omega) (by omega))

theorem natAbs_toInt_neg (n : Int64) : (-n).toInt.natAbs = n.toInt.natAbs := by
  obtain h | ⟨-, h⟩ := toInt_neg_cases n
  · rw [h, Int.natAbs_neg]
  · rw [h]

theorem neg?_eq (h : n.toInt.natAbs < 64) : neg? n = some (-n) := by
  refine if_neg ?_
  rintro rfl
  exact absurd h (by decide)

/-- A count below the width is the same number as a word. -/
theorem toNat_count (h : 0 ≤ n.toInt) : n.toUInt64.toNat = n.toInt.natAbs := by
  rw [Int64.toNat_toUInt64_of_le (zero_le_iff.2 h), ← Int64.toNat_toInt]
  omega

/-! ### Words -/

theorem toNat_up (w : UInt64) (h : 0 ≤ n.toInt) (hlt : n.toInt.natAbs < 64) :
    (w <<< n.toUInt64).toNat = w.toNat * 2 ^ n.toInt.natAbs % 2 ^ 64 := by
  rw [UInt64.toNat_shiftLeft, toNat_count h, Nat.mod_eq_of_lt hlt, Nat.shiftLeft_eq]

theorem toNat_down (w : UInt64) (h : 0 ≤ n.toInt) (hlt : n.toInt.natAbs < 64) :
    (w >>> n.toUInt64).toNat = w.toNat / 2 ^ n.toInt.natAbs := by
  rw [UInt64.toNat_shiftRight, toNat_count h, Nat.mod_eq_of_lt hlt, Nat.shiftRight_eq_div_pow]

/-- Nothing is left of a word beyond its width, whichever way it is shifted. -/
theorem scaled_eq_zero (w : UInt64) {k : ℕ} (h : 64 ≤ k) :
    w.toNat * 2 ^ k % 2 ^ 64 = 0 ∧ w.toNat / 2 ^ k = 0 := by
  refine ⟨Nat.mod_eq_zero_of_dvd (Nat.dvd_mul_left_of_dvd (Nat.pow_dvd_pow 2 h) _), ?_⟩
  exact Nat.div_eq_of_lt (Nat.lt_of_lt_of_le w.toNat_lt (Nat.pow_le_pow_right (by decide) h))

/-! ### Shifts -/

theorem shiftLeft_of_le_natAbs (x : Int64) (h : 64 ≤ n.toInt.natAbs) : shiftLeft x n = 0 :=
  if_pos (isBeyond_iff.2 h)

/-- To the left: a product, of which 64 bits are kept. -/
theorem toNat_shiftLeft_of_nonneg (x : Int64) (h : 0 ≤ n.toInt) :
    (shiftLeft x n).toUInt64.toNat = x.toUInt64.toNat * 2 ^ n.toInt.natAbs % 2 ^ 64 := by
  by_cases hbeyond : 64 ≤ n.toInt.natAbs
  · rw [shiftLeft_of_le_natAbs x hbeyond, (scaled_eq_zero _ hbeyond).1]
    rfl
  · rw [shiftLeft, if_neg (mt isBeyond_iff.1 hbeyond), if_pos (zero_le_iff.2 h),
      UInt64.toUInt64_toInt64, toNat_up _ h (by omega)]

/-- To the right: a quotient, rounded down. -/
theorem toNat_shiftLeft_of_neg (x : Int64) (h : n.toInt < 0) :
    (shiftLeft x n).toUInt64.toNat = x.toUInt64.toNat / 2 ^ n.toInt.natAbs := by
  by_cases hbeyond : 64 ≤ n.toInt.natAbs
  · rw [shiftLeft_of_le_natAbs x hbeyond, (scaled_eq_zero _ hbeyond).2]
    rfl
  · have hneg : 0 ≤ (-n).toInt := by
      have := toInt_neg_cases n
      omega
    have hlt : (-n).toInt.natAbs < 64 := by
      rw [natAbs_toInt_neg]
      omega
    rw [shiftLeft, if_neg (mt isBeyond_iff.1 hbeyond), if_neg (mt zero_le_iff.1 (by omega)),
      UInt64.toUInt64_toInt64, toNat_down _ hneg hlt, natAbs_toInt_neg]

theorem toNat_shiftRight_of_nonneg (x : Int64) (h : 0 ≤ n.toInt) :
    (shiftRight x n).toUInt64.toNat = x.toUInt64.toNat / 2 ^ n.toInt.natAbs := by
  rw [shiftRight, ← natAbs_toInt_neg]
  have hneg := toInt_neg_cases n
  by_cases hzero : (-n).toInt = 0
  · -- no shift at all, in either direction
    rw [toNat_shiftLeft_of_nonneg x (Int.le_of_eq hzero.symm), hzero, Int.natAbs_zero, Nat.pow_zero,
      Nat.mul_one, Nat.div_one, Nat.mod_eq_of_lt x.toUInt64.toNat_lt]
  · exact toNat_shiftLeft_of_neg x (by omega)

theorem toNat_shiftRight_of_neg (x : Int64) (h : n.toInt < 0) :
    (shiftRight x n).toUInt64.toNat = x.toUInt64.toNat * 2 ^ n.toInt.natAbs % 2 ^ 64 := by
  rw [shiftRight, ← natAbs_toInt_neg]
  obtain hneg | ⟨hmin, hneg⟩ := toInt_neg_cases n
  · exact toNat_shiftLeft_of_nonneg x (by omega)
  · -- the count stays negative, and nothing is left either way
    have hbeyond : 64 ≤ (-n).toInt.natAbs := by omega
    rw [toNat_shiftLeft_of_neg x (by omega), (scaled_eq_zero _ hbeyond).1,
      (scaled_eq_zero _ hbeyond).2]

/-- No shift leaves the range of the machine's operations. -/
theorem shiftLeft?_eq (x n : Int64) : shiftLeft? x n = some (shiftLeft x n) := by
  rw [shiftLeft?, shiftLeft]
  by_cases hbeyond : n ≤ -64 ∨ 64 ≤ n
  · rw [if_pos hbeyond, if_pos hbeyond]
  · have hlt : n.toInt.natAbs < 64 := Nat.lt_of_not_le (mt isBeyond_iff.2 hbeyond)
    rw [if_neg hbeyond, if_neg hbeyond]
    by_cases hnonneg : 0 ≤ n
    · have hn := zero_le_iff.1 hnonneg
      rw [if_pos hnonneg, if_pos hnonneg, shiftUp?, if_pos ⟨hn, by omega⟩]
      rfl
    · have hn := mt zero_le_iff.2 hnonneg
      have hneg := toInt_neg_cases n
      rw [if_neg hnonneg, if_neg hnonneg, neg?_eq hlt, Option.bind_some, shiftDown?,
        if_pos ⟨by omega, by omega⟩]
      rfl

/-- **Shifts scale words by powers of two**, read without a sign: to the left the product modulo
`2 ^ 64`, to the right the quotient rounded down.  A negative count turns the direction round, also
the one whose negative is no 64-bit integer; a count as large as the width leaves nothing.  The
machine shifts only by counts below the width, and negates only what has a negative. -/
theorem shiftLeft_shiftRight_spec (x n : Int64) :
    (0 ≤ n.toInt →
      (shiftLeft x n).toUInt64.toNat = x.toUInt64.toNat * 2 ^ n.toInt.natAbs % 2 ^ 64 ∧
        (shiftRight x n).toUInt64.toNat = x.toUInt64.toNat / 2 ^ n.toInt.natAbs) ∧
    (n.toInt < 0 →
      (shiftLeft x n).toUInt64.toNat = x.toUInt64.toNat / 2 ^ n.toInt.natAbs ∧
        (shiftRight x n).toUInt64.toNat = x.toUInt64.toNat * 2 ^ n.toInt.natAbs % 2 ^ 64) ∧
    (64 ≤ n.toInt.natAbs → shiftLeft x n = 0 ∧ shiftRight x n = 0) ∧
    shiftLeft? x n = some (shiftLeft x n) ∧ shiftRight? x n = some (shiftRight x n) := by
  refine ⟨fun h => ⟨toNat_shiftLeft_of_nonneg x h, toNat_shiftRight_of_nonneg x h⟩,
    fun h => ⟨toNat_shiftLeft_of_neg x h, toNat_shiftRight_of_neg x h⟩,
    fun h => ⟨shiftLeft_of_le_natAbs x h, ?_⟩, shiftLeft?_eq x n, shiftLeft?_eq x (-n)⟩
  rw [shiftRight]
  exact shiftLeft_of_le_natAbs x (by rwa [natAbs_toInt_neg])

/-- A shift to the right brings in no sign, and the least count shifts out everything. -/
example : shiftRight (-1) 63 = 1 ∧ shiftLeft 8 (-2) = 2 ∧ shiftRight 5 Int64.minValue = 0 := by
  decide

end LuaBytecode.Word
