import LuaBytecode.Loop
import LuaBytecode.Proofs.Double.Rounding

/-!
# The range of an integer loop

An integer loop has to visit the integers `init`, `init + step`, … up to its limit, which may be a
float.  Before the first round it reduces the limit to an integer and counts the rounds, in 64-bit
arithmetic that wraps around.

* `Loop.Admits` : the integers that the index may be, by the exact value of the limit.
* `Loop.intLimit_spec` : the integer to which the limit is reduced admits the same ones.
* `Loop.lt_rounds_iff` : the number of rounds, of which `2^64` are one too many.
* `Loop.prepare_spec` : the slots before the first round.
* `Loop.all_of_admits` : the only loop that has more rounds than can be counted.
-/

namespace LuaBytecode.Loop

variable {limit : Number} {init last step : Int64} {s t q : Int} {x : Double} {k : Nat}

/-- The integer is one of 64 bits. -/
def Fits (t : Int) : Prop := -0x8000000000000000 ≤ t ∧ t < 0x8000000000000000

/-- The index may be the integer `t`: it fits into 64 bits, and the limit by its exact value lets
the index be there.  A NaN lets it be nowhere. -/
def Admits (limit : Number) (step : Int64) (t : Int) : Prop :=
  Fits t ∧ limit.isNaN = false ∧
    if 0 < step then t * Double.one ≤ limit.units else limit.units ≤ t * Double.one

/-- The integer `t` is not beyond `last`, for a loop that counts by `step`. -/
def Within (last : Int) (step : Int64) (t : Int) : Prop := if 0 < step then t ≤ last else last ≤ t

theorem toInt_pos_iff : 0 < step.toInt ↔ 0 < step := by
  rw [Int64.lt_iff_toInt_lt, Int64.toInt_zero]

theorem fits_toInt (n : Int64) : Fits n.toInt := ⟨n.le_toInt, n.toInt_lt⟩

/-! ### Limits -/

theorem lt_neg_beyondInt_iff (h : x.isNaN = false) (hq : x.units = q * Double.one) :
    x.lt Double.beyondInt.neg = true ↔ q < -0x8000000000000000 := by
  rw [Double.lt_neg_beyondInt_iff h, hq, Double.mul_one_ediv_one]

theorem beyondInt_le_iff (h : x.isNaN = false) (hq : x.units = q * Double.one) :
    Double.beyondInt.le x = true ↔ 0x8000000000000000 ≤ q := by
  rw [Double.beyondInt_le_iff h, hq, Double.mul_one_ediv_one]

/-- The last integer that a float limit lets the index reach. -/
def floatLimit (x : Double) (step : Int64) : Option Int64 :=
  if x.isNaN then none
  else if 0 < step then if x.floor.lt Double.beyondInt.neg then none else some x.floor.saturate
  else if Double.beyondInt.le x.ceil then none else some x.ceil.saturate

/-- Any other limit than an integer is taken as a float. -/
theorem intLimit_of_toDouble? {v : Value} (hv : ∀ n, v ≠ .int n) (hx : v.toDouble? = some x)
    (step : Int64) : intLimit v step = .ok (floatLimit x step) := by
  rw [intLimit, floatLimit, hx]
  · dsimp only
    split
    · rfl
    · split <;> rfl
  · exact hv

/-- The float limit of a loop that counts up. -/
theorem within_floor_iff (h : x.isNaN = false) (ht : Fits t) :
    t * Double.one ≤ x.units ↔
      ∃ last,
        (if x.floor.lt Double.beyondInt.neg then none else some x.floor.saturate) = some last ∧
          t ≤ last.toInt := by
  have hfloor := Double.units_floor h
  have hnan := Double.isNaN_floor h
  rw [← Int.le_ediv_iff_mul_le Double.natCast_one_pos]
  obtain ⟨hlow, hhigh⟩ := ht
  by_cases hlt : x.floor.lt Double.beyondInt.neg = true
  · rw [if_pos hlt]
    rw [lt_neg_beyondInt_iff hnan hfloor] at hlt
    simp only [reduceCtorEq, false_and, exists_false, iff_false]
    omega
  · rw [if_neg hlt]
    rw [lt_neg_beyondInt_iff hnan hfloor] at hlt
    simp only [Option.some.injEq, exists_eq_left', Double.toInt_saturate hnan hfloor]
    omega

/-- The float limit of a loop that counts down. -/
theorem within_ceil_iff (h : x.isNaN = false) (ht : Fits t) :
    x.units ≤ t * Double.one ↔
      ∃ last, (if Double.beyondInt.le x.ceil then none else some x.ceil.saturate) = some last ∧
        last.toInt ≤ t := by
  have hceil := Double.units_ceil h
  have hnan := Double.isNaN_ceil h
  have hle : x.units ≤ t * Double.one ↔ -t ≤ -x.units / Double.one := by
    rw [Int.le_ediv_iff_mul_le Double.natCast_one_pos, Int.neg_mul]
    omega
  rw [hle]
  obtain ⟨hlow, hhigh⟩ := ht
  by_cases hbeyond : Double.beyondInt.le x.ceil = true
  · rw [if_pos hbeyond]
    rw [beyondInt_le_iff hnan hceil] at hbeyond
    simp only [reduceCtorEq, false_and, exists_false, iff_false]
    omega
  · rw [if_neg hbeyond]
    rw [beyondInt_le_iff hnan hceil] at hbeyond
    simp only [Option.some.injEq, exists_eq_left', Double.toInt_saturate hnan hceil]
    omega

/-- **The limit of an integer loop is reduced to an integer that admits the same indices**, if it
admits any. -/
theorem intLimit_spec (limit : Number) (step : Int64) :
    ∃ last? : Option Int64, intLimit (.number limit) step = .ok last? ∧
      ∀ t, Admits limit step t ↔ Fits t ∧ ∃ last, last? = some last ∧ Within last.toInt step t := by
  cases limit with
  | int n =>
    refine ⟨some n, rfl, fun t => and_congr_right fun _ => ?_⟩
    simp only [Number.isNaN, Number.units, Double.mul_one_le_mul_one_iff, true_and,
      Option.some.injEq, exists_eq_left', Within]
  | float x =>
    refine ⟨_, intLimit_of_toDouble? (by simp) rfl step, fun t => and_congr_right fun ht => ?_⟩
    simp only [Number.isNaN, Number.units, Within]
    change _ ↔ ∃ last, floatLimit x step = some last ∧ _
    rw [floatLimit]
    cases hnan : x.isNaN with
    | true => simp
    | false =>
      simp only [Bool.false_eq_true, if_false, true_and]
      by_cases hstep : 0 < step
      · simp only [hstep, if_true]
        exact within_floor_iff hnan ht
      · simp only [hstep, if_false]
        exact within_ceil_iff hnan ht

/-! ### Rounds -/

theorem toNat_toUInt64 (n : Int64) :
    (n.toUInt64.toNat : Int) = if n.toInt < 0 then n.toInt + 0x10000000000000000 else n.toInt := by
  have hcond := BitVec.toInt_eq_toNat_cond n.toBitVec
  change n.toInt = _ at hcond
  rw [Int64.toNat_toBitVec] at hcond
  have hlt := n.toUInt64.toNat_lt
  split at hcond <;> split <;> omega

/-- The distance of two integers, which wraps around in 64 bits but not without a sign. -/
theorem toNat_sub_toUInt64 {m n : Int64} (h : m.toInt ≤ n.toInt) :
    ((n.toUInt64 - m.toUInt64).toNat : Int) = n.toInt - m.toInt := by
  have hm := toNat_toUInt64 m
  have hn := toNat_toUInt64 n
  have hm' := m.le_toInt
  have hn' := n.toInt_lt
  rw [UInt64.toNat_sub]
  split at hm <;> split at hn <;> omega

theorem toNat_saturatingSucc (n : UInt64) :
    (saturatingSucc n).toNat = min 0xffffffffffffffff (n.toNat + 1) := by
  have hlt := n.toNat_lt
  have hsucc : (n + 1).toNat = (n.toNat + 1) % 0x10000000000000000 := UInt64.toNat_add n 1
  rw [saturatingSucc]
  split
  · rename_i hzero
    rw [hzero, UInt64.toNat_zero] at hsucc
    omega
  · rename_i hne
    rw [← UInt64.toNat_inj, hsucc, UInt64.toNat_zero] at hne
    omega

/-- There is a round for each whole step that fits between the ends. -/
theorem lt_saturatingSucc_div_iff {distance pace : UInt64} (hpace : 0 < pace.toNat) :
    k < (saturatingSucc (distance / pace)).toNat ↔
      k < 0xffffffffffffffff ∧ k * pace.toNat ≤ distance.toNat := by
  rw [toNat_saturatingSucc, UInt64.toNat_div, ← Nat.le_div_iff_mul_le hpace]
  omega

/-- **The number of rounds**: a round for each integer that is not beyond the last one, but one less
than `2^64` at most. -/
theorem lt_rounds_iff (hstep : step ≠ 0) :
    k < (rounds init last step).toNat ↔
      k < 0xffffffffffffffff ∧ Within last.toInt step (init.toInt + k * step.toInt) := by
  have hne : step.toInt ≠ 0 := fun h => hstep (Int64.toInt_inj.1 h)
  have hnonneg : 0 ≤ (k : Int) := Int.natCast_nonneg k
  rw [rounds, Within]
  by_cases hup : 0 < step
  · have hup' := toInt_pos_iff.2 hup
    have hmul : 0 ≤ k * step.toInt := Int.mul_nonneg hnonneg (Int.le_of_lt hup')
    have hpace := toNat_toUInt64 step
    rw [if_neg (Int.not_lt_of_ge (Int.le_of_lt hup'))] at hpace
    have hpace' : 0 < step.toUInt64.toNat := by omega
    simp only [hup, if_true, Int64.lt_iff_toInt_lt]
    split
    · -- the loop starts beyond its end
      rw [UInt64.toNat_zero]
      omega
    · rename_i hle
      have hdistance := toNat_sub_toUInt64 (Int.not_lt.1 hle)
      rw [lt_saturatingSucc_div_iff hpace', ← Int.ofNat_le, Int.natCast_mul, hpace, hdistance]
      omega
  · have hdown : step.toInt ≤ 0 := Int.not_lt.1 (mt toInt_pos_iff.1 hup)
    have hmul : 0 ≤ k * -step.toInt := Int.mul_nonneg hnonneg (by omega)
    rw [Int.mul_neg] at hmul
    have hpace : ((-step).toUInt64.toNat : Int) = -step.toInt := by
      have hneg := toNat_sub_toUInt64 (m := step) (n := 0) (by rw [Int64.toInt_zero]; omega)
      rw [Int64.toUInt64_neg, ← UInt64.zero_sub]
      rw [Int64.toInt_zero, Int.zero_sub] at hneg
      exact hneg
    have hpace' : 0 < (-step).toUInt64.toNat := by omega
    simp only [hup, if_false, Int64.lt_iff_toInt_lt]
    split
    · rw [UInt64.toNat_zero]
      omega
    · rename_i hle
      have hdistance := toNat_sub_toUInt64 (Int.not_lt.1 hle)
      rw [lt_saturatingSucc_div_iff hpace', ← Int.ofNat_le, Int.natCast_mul, hpace, hdistance,
        Int.mul_neg]
      omega

/-! ### Before the first round -/

/-- The integers that a loop has to visit: `init`, `init + step`, … -/
def term (init step : Int64) (k : Nat) : Int := init.toInt + k * step.toInt

/-- The terms up to the end are between the first one and the end. -/
theorem fits_of_within (h : Within last.toInt step (term init step k)) :
    Fits (term init step k) := by
  have hinit := fits_toInt init
  have hlast := fits_toInt last
  have hnonneg : 0 ≤ (k : Int) := Int.natCast_nonneg k
  rw [Fits] at hinit hlast
  rw [Within] at h
  rw [Fits]
  rw [term] at h ⊢
  split at h
  · rename_i hup
    have hmul := Int.mul_nonneg hnonneg (Int.le_of_lt (toInt_pos_iff.2 hup))
    omega
  · rename_i hdown
    have hle : step.toInt ≤ 0 := Int.not_lt.1 (mt toInt_pos_iff.1 hdown)
    have hmul := Int.mul_nonpos_of_nonneg_of_nonpos hnonneg hle
    omega

/-- **The slots of an integer loop before its first round**: the index is one step behind, and the
rounds are those for the integers that the limit admits, but `2^64 - 1` at most. -/
theorem prepare_spec (init : Int64) (limit : Number) (hstep : step ≠ 0) :
    ∃ count : UInt64, prepare ⟨.int init, .number limit, .int step⟩ =
        .ok ⟨.int (init - step), .int count.toInt64, .int step⟩ ∧
      ∀ k : Nat, k < count.toNat ↔
        k < 0xffffffffffffffff ∧ Admits limit step (term init step k) := by
  obtain ⟨last?, hlimit, hadmits⟩ := intLimit_spec limit step
  refine ⟨(last?.map fun last => rounds init last step).getD 0, ?_, fun k => ?_⟩
  · rw [prepare]
    simp only [hstep, if_false, hlimit]
    rfl
  · rw [hadmits]
    cases last? with
    | none => simp
    | some last =>
      simp only [Option.map_some, Option.getD_some, Option.some.injEq, exists_eq_left']
      rw [lt_rounds_iff hstep]
      exact and_congr_right fun _ => ⟨fun h => ⟨fits_of_within h, h⟩, And.right⟩

/-! ### All terms -/

/-- What a limit admits it also admits before. -/
theorem Admits.of_within (h : Admits limit step s) (ht : Fits t) (hle : Within s step t) :
    Admits limit step t := by
  obtain ⟨-, hnan, hs⟩ := h
  refine ⟨ht, hnan, ?_⟩
  rw [Within] at hle
  by_cases hup : 0 < step
  · rw [if_pos hup] at hs hle ⊢
    exact Int.le_trans (Double.mul_one_le_mul_one_iff.2 hle) hs
  · rw [if_neg hup] at hs hle ⊢
    exact Int.le_trans hs (Double.mul_one_le_mul_one_iff.2 hle)

/-- The terms that a limit admits are the first ones. -/
theorem Admits.term_of_le {m : Nat} (h : Admits limit step (term init step k)) (hle : m ≤ k) :
    Admits limit step (term init step m) := by
  obtain ⟨hinit, hinit'⟩ := fits_toInt init
  obtain ⟨hlow, hhigh⟩ := h.1
  have hsplit : term init step k = term init step m + (k - m : Int) * step.toInt := by
    rw [term, term, Int.sub_mul]
    omega
  by_cases hup : 0 < step
  · have hpos := Int.le_of_lt (toInt_pos_iff.2 hup)
    have hmul := Int.mul_nonneg (Int.natCast_nonneg m) hpos
    have hrest := Int.mul_nonneg (Int.sub_nonneg_of_le (Int.ofNat_le.2 hle)) hpos
    refine h.of_within ⟨?_, ?_⟩ ?_
    · rw [term]
      omega
    · omega
    · rw [Within, if_pos hup]
      omega
  · have hneg : step.toInt ≤ 0 := Int.not_lt.1 (mt toInt_pos_iff.1 hup)
    have hmul := Int.mul_nonpos_of_nonneg_of_nonpos (Int.natCast_nonneg m) hneg
    have hrest := Int.mul_nonpos_of_nonneg_of_nonpos
      (Int.sub_nonneg_of_le (Int.ofNat_le.2 hle)) hneg
    refine h.of_within ⟨?_, ?_⟩ ?_
    · omega
    · rw [term]
      omega
    · rw [Within, if_neg hup]
      omega

/-- **Only a loop through all integers has more rounds than can be counted.** -/
theorem all_of_admits (hstep : step ≠ 0) (hk : 0xffffffffffffffff ≤ k)
    (h : Admits limit step (term init step k)) (ht : Fits t) :
    Admits limit step t ∧ ∃ k, term init step k = t := by
  have hne : step.toInt ≠ 0 := fun h => hstep (Int64.toInt_inj.1 h)
  obtain ⟨hinit, hinit'⟩ := fits_toInt init
  obtain ⟨hlow, hhigh⟩ := h.1
  rw [term] at hlow hhigh
  have hspan : k * step.toInt.natAbs ≤ 0xffffffffffffffff := by
    have habs := Int.natAbs_mul k step.toInt
    rw [Int.natAbs_natCast] at habs
    omega
  have hpace : step.toInt.natAbs ≤ 1 := by
    refine Nat.le_of_not_lt fun htwo => ?_
    have hmul := Nat.mul_le_mul hk htwo
    omega
  -- the loop counts by one, from one end of the integers to the other
  obtain ⟨ht₁, ht₂⟩ := id ht
  obtain hone | hone : step.toInt = 1 ∨ step.toInt = -1 := by omega
  · have hup : 0 < step := toInt_pos_iff.1 (by omega)
    rw [hone] at hlow hhigh
    refine ⟨h.of_within ht ?_, (t - init.toInt).natAbs, ?_⟩
    · rw [Within, if_pos hup, term, hone]
      omega
    · rw [term, hone]
      omega
  · have hdown : ¬ 0 < step := fun hup => by
      have hpos := toInt_pos_iff.2 hup
      omega
    rw [hone] at hlow hhigh
    refine ⟨h.of_within ht ?_, (t - init.toInt).natAbs, ?_⟩
    · rw [Within, if_neg hdown, term, hone]
      omega
    · rw [term, hone]
      omega

end LuaBytecode.Loop
