import LuaBytecode.Proofs.Instruction.Layout
import LuaBytecode.SizeHint
import Mathlib.Order.Bounds.Basic
import Mathlib.Order.Monotone.Basic

/-!
# Rounding to size hints

Hints are numbered in the order of the sizes that they stand for, so the hint of the least size
that is large enough is the least such hint.

* `SizeHint.size`, `SizeHint.size_strictMono` : sizes by the number of the hint.
* `SizeHint.Scaled` : what rounding up in steps keeps: the steps add up to one, and no smaller
  exponent would do.
* `SizeHint.encode_le_iff` : **a hint is large enough just if it is not below the one chosen.**
* `SizeHint.encode_spec` : the least size, monotone and exact, and where the sums leave 32 bits.
-/

namespace LuaBytecode.SizeHint

/-! ### Steps that may not wrap around -/

/-- The sum, if it is a 32-bit number. -/
def add? (x y : UInt32) : Option UInt32 :=
  if x.toNat + y.toNat < 0x100000000 then some (x + y) else none

/-- The difference, if it is not negative. -/
def sub? (x y : UInt32) : Option UInt32 := if y.toNat ≤ x.toNat then some (x - y) else none

/-- `shrink`, where no sum may wrap around, and the number fits in the end. -/
def shrink? (bits : UInt32) : Nat → UInt32 → UInt32 → Option (UInt32 × UInt32)
  | 0, x, e => if x < 8 <<< bits then some (x, e) else none
  | rounds + 1, x, e =>
    if x < 8 <<< bits then some (x, e)
    else
      (add? x (1 <<< bits - 1)).bind fun raised =>
        (add? e bits).bind fun f => shrink? bits rounds (raised >>> bits) f

/-- `encode`, on the same terms. -/
def encode? (x : UInt32) : Option UInt32 :=
  if x < 8 then some x
  else
    (shrink? 4 8 x 0).bind fun (x, e) =>
      (shrink? 1 4 x e).bind fun (x, e) =>
        (add? e 1).bind fun f => (sub? x 8).map fun digits => f <<< 3 ||| digits

/-! ### Sizes -/

theorem lt_eight_iff {x : UInt32} : x < 8 ↔ x.toNat < 8 := UInt32.lt_iff_toNat_lt

/-- The size that the hint with the given number stands for. -/
def size (c : ℕ) : ℕ := if c < 8 then c else (8 + c % 8) * 2 ^ (c / 8 - 1)

theorem size_of_lt {c : ℕ} (h : c < 8) : size c = c := if_pos h

/-- Digits and exponent. -/
theorem size_mul_add (e : ℕ) {y : ℕ} (h : 8 ≤ y) (h' : y ≤ 15) : size (8 * e + y) = y * 2 ^ e := by
  have hdigits : 8 + (8 * e + y) % 8 = y := by omega
  have hexponent : (8 * e + y) / 8 - 1 = e := by omega
  rw [size, if_neg (by omega), hdigits, hexponent]

/-- Every number from 8 on is that of some digits and an exponent. -/
theorem exists_eq_mul_add {c : ℕ} (h : 8 ≤ c) : ∃ e y, 8 ≤ y ∧ y ≤ 15 ∧ c = 8 * e + y :=
  ⟨c / 8 - 1, 8 + c % 8, by omega, by omega, by omega⟩

theorem size_lt_succ (c : ℕ) : size c < size (c + 1) := by
  obtain hlt | heq | hgt := Nat.lt_trichotomy c 7
  · rw [size_of_lt (by omega), size_of_lt (by omega)]
    omega
  · subst heq
    decide
  · obtain ⟨e, y, hy, hy', rfl⟩ := exists_eq_mul_add (c := c) (by omega)
    rw [size_mul_add e hy hy']
    by_cases hlast : y = 15
    · -- the digits start again, with the next exponent
      subst hlast
      have hnext : 8 * e + 15 + 1 = 8 * (e + 1) + 8 := by omega
      have hpos := Nat.two_pow_pos e
      rw [hnext, size_mul_add (e + 1) (by omega) (by omega), Nat.pow_succ]
      omega
    · rw [Nat.add_assoc, size_mul_add e (by omega) (by omega)]
      exact Nat.mul_lt_mul_of_pos_right (Nat.lt_succ_self y) (Nat.two_pow_pos e)

theorem size_strictMono : StrictMono size := strictMono_nat_of_lt_succ size_lt_succ

/-- The hint of digits and exponent, read from its two parts. -/
theorem toNat_parts (c : UInt32) :
    (c &&& 7 ||| 8).toNat = 8 + c.toNat % 8 ∧ (c >>> 3).toNat = c.toNat / 8 := by
  refine ⟨?_, (UInt32.toNat_shiftRight c 3).trans (Nat.shiftRight_eq_div_pow c.toNat 3)⟩
  have hmark : ∀ digits < 8, digits ||| 8 = 8 + digits := by decide
  rw [UInt32.toNat_or, UInt32.toNat_and, ← hmark _ (Nat.mod_lt c.toNat (by decide))]
  exact congrArg (· ||| 8) (Nat.and_two_pow_sub_one_eq_mod c.toNat 3)

theorem toNat_decode {c : UInt32} (h : c < 256) : (decode c).toNat = size c.toNat := by
  rw [UInt32.lt_iff_toNat_lt] at h
  change c.toNat < 256 at h
  rw [decode]
  by_cases hsmall : c < 8
  · rw [if_pos hsmall, size_of_lt (lt_eight_iff.1 hsmall), UInt32.toNat_toUInt64]
  · have hle : 8 ≤ c.toNat := Nat.le_of_not_lt (mt lt_eight_iff.2 hsmall)
    obtain ⟨hdigits, hexponent⟩ := toNat_parts c
    have hcount : ((c >>> 3).toUInt64 - 1).toNat = c.toNat / 8 - 1 := by
      rw [UInt64.toNat_sub_of_le, UInt32.toNat_toUInt64, hexponent]
      · rfl
      · rw [UInt64.le_iff_toNat_le, UInt32.toNat_toUInt64, hexponent]
        change 1 ≤ _
        omega
    have hfits : (8 + c.toNat % 8) * 2 ^ (c.toNat / 8 - 1) < 2 ^ 64 :=
      calc (8 + c.toNat % 8) * 2 ^ (c.toNat / 8 - 1) ≤ 15 * 2 ^ 30 :=
            Nat.mul_le_mul (by omega) (Nat.pow_le_pow_right (by decide) (by omega))
        _ < 2 ^ 64 := by decide
    rw [if_neg hsmall, UInt64.toNat_shiftLeft, UInt32.toNat_toUInt64, hdigits, hcount,
      Nat.mod_eq_of_lt (a := c.toNat / 8 - 1) (by omega), Nat.shiftLeft_eq, Nat.mod_eq_of_lt hfits,
      size, if_neg (by omega)]

/-! ### Rounding up in steps -/

/-- `y` is `n / 2 ^ e` rounded up, has a fourth digit, and with a smaller exponent it would have
more than four. -/
structure Scaled (n y e : ℕ) : Prop where
  le_iff : ∀ m, y ≤ m ↔ n ≤ m * 2 ^ e
  le : 8 ≤ y
  lt_of_lt : ∀ i < e, 15 * 2 ^ i < n

theorem scaled_self {n : ℕ} (h : 8 ≤ n) : Scaled n n 0 where
  le_iff m := by rw [Nat.pow_zero, Nat.mul_one]
  le := h
  lt_of_lt i hi := absurd hi (Nat.not_lt_zero i)

/-- Division by `2 ^ b`, rounded up. -/
theorem add_pred_div_le_iff (y m b : ℕ) : (y + (2 ^ b - 1)) / 2 ^ b ≤ m ↔ y ≤ m * 2 ^ b := by
  have hpos := Nat.two_pow_pos b
  rw [Nat.div_le_iff_le_mul_add_pred hpos, Nat.mul_comm]
  omega

/-- Roundings up add up to one. -/
theorem Scaled.step {n y e b : ℕ} (h : Scaled n y e) (hb : 0 < b) (hy : 8 * 2 ^ b ≤ y) :
    Scaled n ((y + (2 ^ b - 1)) / 2 ^ b) (e + b) where
  le_iff m := by
    rw [add_pred_div_le_iff, h.le_iff, Nat.mul_assoc, ← Nat.pow_add, Nat.add_comm b e]
  le := by
    have hpos := Nat.two_pow_pos b
    rw [Nat.le_div_iff_mul_le hpos]
    omega
  lt_of_lt i hi := by
    -- `y` does not fit into four digits and `b - 1` more
    obtain ⟨b, rfl⟩ := Nat.exists_eq_succ_of_ne_zero (Nat.ne_of_gt hb)
    have hpos := Nat.two_pow_pos b
    have hlong : ¬ y ≤ 15 * 2 ^ b := by
      rw [Nat.pow_succ] at hy
      omega
    have hn : 15 * 2 ^ b * 2 ^ e < n := Nat.lt_of_not_le (mt (h.le_iff _).2 hlong)
    calc 15 * 2 ^ i ≤ 15 * 2 ^ (b + e) :=
          Nat.mul_le_mul_left 15 (Nat.pow_le_pow_right (by decide) (by omega))
      _ = 15 * 2 ^ b * 2 ^ e := by rw [Nat.pow_add, Nat.mul_assoc]
      _ < n := hn

/-- Numbers of 32 bits have small exponents. -/
theorem Scaled.le_of_lt_two_pow {n y e : ℕ} (h : Scaled n y e) (hn : n < 0x100000000) : e ≤ 29 := by
  by_contra hlarge
  have hlt := h.lt_of_lt 29 (by omega)
  omega

/-- The size before that of the digits and the exponent is below the number. -/
theorem Scaled.size_pred_lt {n y e : ℕ} (h : Scaled n y e) (hy : y ≤ 15) (hn : 8 ≤ n) :
    size (8 * e + y - 1) < n := by
  obtain hlt | heq := Nat.lt_or_eq_of_le h.le
  · have hpred : 8 * e + y - 1 = 8 * e + (y - 1) := by omega
    rw [hpred, size_mul_add e (by omega) (by omega)]
    refine Nat.lt_of_not_le (mt (h.le_iff _).2 ?_)
    omega
  · subst heq
    cases e with
    | zero =>
      rw [size_of_lt (by omega)]
      omega
    | succ i =>
      -- the last size with the exponent before
      have hpred : 8 * (i + 1) + 8 - 1 = 8 * i + 15 := by omega
      rw [hpred, size_mul_add i (by omega) (Nat.le_refl 15)]
      exact h.lt_of_lt i (Nat.lt_succ_self i)

/-! ### Words -/

section Words

variable {b : ℕ} {x y : UInt32}

theorem toNat_bits (hb : b = 4 ∨ b = 1) : (UInt32.ofNat b).toNat = b := by
  obtain rfl | rfl := hb <;> rfl

theorem toNat_limit (hb : b = 4 ∨ b = 1) : (8 <<< UInt32.ofNat b).toNat = 8 * 2 ^ b := by
  obtain rfl | rfl := hb <;> rfl

theorem toNat_slack (hb : b = 4 ∨ b = 1) : (1 <<< UInt32.ofNat b - 1).toNat = 2 ^ b - 1 := by
  obtain rfl | rfl := hb <;> rfl

theorem toNat_drop (hb : b = 4 ∨ b = 1) (w : UInt32) :
    (w >>> UInt32.ofNat b).toNat = w.toNat / 2 ^ b := by
  obtain rfl | rfl := hb <;> exact (UInt32.toNat_shiftRight w _).trans (Nat.shiftRight_eq_div_pow ..)

theorem add?_of_lt (h : x.toNat + y.toNat < 0x100000000) :
    add? x y = some (x + y) ∧ (x + y).toNat = x.toNat + y.toNat := by
  refine ⟨if_pos h, ?_⟩
  rw [UInt32.toNat_add]
  exact Nat.mod_eq_of_lt h

/-- **Rounds of division** leave a number that fits, without a sum that wraps around, if their
number is large enough. -/
theorem shrink_spec (hb : b = 4 ∨ b = 1) {n rounds : ℕ} {e : UInt32}
    (h : Scaled n x.toNat e.toNat) (hx : x.toNat + 2 ^ b ≤ 0x100000000)
    (hrounds : x.toNat ≤ (8 * 2 ^ b - 1) * 2 ^ (b * rounds))
    (he : e.toNat + b * rounds < 0x100000000) :
    ∃ y f, shrink? (.ofNat b) rounds x e = some (y, f) ∧ shrink (.ofNat b) rounds x e = (y, f) ∧
      Scaled n y.toNat f.toNat ∧ y.toNat < 8 * 2 ^ b := by
  have hlimit := toNat_limit hb
  have hpos := Nat.two_pow_pos b
  induction rounds generalizing x e with
  | zero =>
    rw [Nat.mul_zero, Nat.pow_zero, Nat.mul_one] at hrounds
    have hlt : x < 8 <<< UInt32.ofNat b := UInt32.lt_iff_toNat_lt.2 (by omega)
    exact ⟨x, e, if_pos hlt, rfl, h, by omega⟩
  | succ rounds ih =>
    rw [shrink?, shrink]
    by_cases hlt : x < 8 <<< UInt32.ofNat b
    · rw [if_pos hlt, if_pos hlt]
      exact ⟨x, e, rfl, rfl, h, hlimit ▸ UInt32.lt_iff_toNat_lt.1 hlt⟩
    · rw [if_neg hlt, if_neg hlt]
      have hle : 8 * 2 ^ b ≤ x.toNat :=
        hlimit ▸ Nat.le_of_not_lt (mt UInt32.lt_iff_toNat_lt.2 hlt)
      have hslack := toNat_slack hb
      have hbits := toNat_bits hb
      rw [Nat.mul_succ] at hrounds he
      obtain ⟨hraised, hraised'⟩ := add?_of_lt (x := x) (y := 1 <<< UInt32.ofNat b - 1) (by omega)
      obtain ⟨hf, hf'⟩ := add?_of_lt (x := e) (y := UInt32.ofNat b) (by omega)
      have hdrop : ((x + (1 <<< UInt32.ofNat b - 1)) >>> UInt32.ofNat b).toNat =
          (x.toNat + (2 ^ b - 1)) / 2 ^ b := by
        rw [toNat_drop hb, hraised', hslack]
      have hstep := h.step (by obtain rfl | rfl := hb <;> decide) hle
      rw [hraised, hf, Option.bind_some, Option.bind_some]
      refine ih (by rwa [hdrop, hf', hbits]) ?_ ?_ (by omega)
      · have hsmaller : (x.toNat + (2 ^ b - 1)) / 2 ^ b ≤ x.toNat := by
          rw [add_pred_div_le_iff]
          exact Nat.le_mul_of_pos_right _ hpos
        omega
      · rw [hdrop, add_pred_div_le_iff, Nat.mul_assoc, ← Nat.pow_add]
        exact hrounds

end Words

/-! ### Encoding -/

variable {x : UInt32}

theorem encode_of_lt (h : x.toNat < 8) : encode? x = some x ∧ encode x = x :=
  ⟨if_pos (lt_eight_iff.2 h), if_pos (lt_eight_iff.2 h)⟩

/-- The digits, less their fourth one, stand below the exponent. -/
theorem toNat_joined {e y : UInt32} (he : e.toNat ≤ 29) (hy : 8 ≤ y.toNat) (hy' : y.toNat ≤ 15) :
    sub? y 8 = some (y - 8) ∧ ((e + 1) <<< 3 ||| (y - 8)).toNat = 8 * e.toNat + y.toNat := by
  have hone : (1 : UInt32).toNat = 1 := rfl
  have hdigits : (y - 8).toNat = y.toNat - 8 := UInt32.toNat_sub_of_le y 8 hy
  have hexponent : (e + 1).toNat = e.toNat + 1 := (add?_of_lt (y := 1) (by omega)).2
  have hword := Instruction.toNat_or_shiftLeft (x := y - 8) (y := e + 1) (n := 3) (by decide)
    (by omega) (by omega)
  refine ⟨if_pos hy, ?_⟩
  rw [UInt32.or_comm]
  exact hword.trans (by omega)

/-- From 8 on, the hint is made of digits and exponent of the number rounded up. -/
theorem exists_encode_eq (h : 8 ≤ x.toNat) (hx : x.toNat ≤ 0xfffffff0) :
    ∃ y e, encode? x = some (encode x) ∧ (encode x).toNat = 8 * e + y ∧ Scaled x.toNat y e ∧
      y ≤ 15 ∧ e ≤ 29 := by
  obtain ⟨y, e, hfirst?, hfirst, hy, hylt⟩ : ∃ y e, shrink? 4 8 x 0 = some (y, e) ∧
      shrink 4 8 x 0 = (y, e) ∧ Scaled x.toNat y.toNat e.toNat ∧ y.toNat < 128 :=
    shrink_spec (b := 4) (e := 0) (.inl rfl) (scaled_self h) (by omega) (by omega) (by decide)
  have he := hy.le_of_lt_two_pow (by omega)
  obtain ⟨z, f, hsecond?, hsecond, hz, hzlt⟩ : ∃ z f, shrink? 1 4 y e = some (z, f) ∧
      shrink 1 4 y e = (z, f) ∧ Scaled x.toNat z.toNat f.toNat ∧ z.toNat < 16 :=
    shrink_spec (b := 1) (.inr rfl) hy (by omega) (by omega) (by omega)
  have hf := hz.le_of_lt_two_pow (by omega)
  obtain ⟨hdigits, hjoined⟩ := toNat_joined hf hz.le (by omega)
  have hone : (1 : UInt32).toNat = 1 := rfl
  have hencode : encode x = (f + 1) <<< 3 ||| (z - 8) := by
    rw [encode, if_neg (mt lt_eight_iff.1 (by omega)), hfirst]
    dsimp only
    rw [hsecond]
  refine ⟨z.toNat, f.toNat, ?_, by rw [hencode, hjoined], hz, by omega, hf⟩
  rw [encode?, if_neg (mt lt_eight_iff.1 (by omega)), hfirst?, Option.bind_some]
  dsimp only
  rw [hsecond?, Option.bind_some]
  dsimp only
  rw [(add?_of_lt (by omega)).1, Option.bind_some, hdigits, hencode]
  rfl

/-- **A hint is large enough just if it is not below the one chosen.** -/
theorem encode_le_iff (hx : x.toNat ≤ 0xfffffff0) (c : ℕ) :
    (encode x).toNat ≤ c ↔ x.toNat ≤ size c := by
  by_cases hsmall : x.toNat < 8
  · rw [(encode_of_lt hsmall).2, ← size_strictMono.le_iff_le, size_of_lt hsmall]
  · obtain ⟨y, e, -, hcode, h, hy, -⟩ := exists_encode_eq (Nat.le_of_not_lt hsmall) hx
    rw [hcode]
    constructor
    · intro hle
      calc x.toNat ≤ y * 2 ^ e := (h.le_iff y).1 (Nat.le_refl y)
        _ = size (8 * e + y) := (size_mul_add e h.le hy).symm
        _ ≤ size c := size_strictMono.monotone hle
    · intro hle
      -- the size of the hint before it is too small
      by_contra hlt
      have hbefore : size c ≤ size (8 * e + y - 1) := size_strictMono.monotone (by omega)
      have hshort := h.size_pred_lt hy (Nat.le_of_not_lt hsmall)
      omega

theorem encode?_eq (hx : x.toNat ≤ 0xfffffff0) : encode? x = some (encode x) := by
  by_cases hsmall : x.toNat < 8
  · rw [(encode_of_lt hsmall).1, (encode_of_lt hsmall).2]
  · obtain ⟨-, -, h, -⟩ := exists_encode_eq (Nat.le_of_not_lt hsmall) hx
    exact h

theorem encode_lt (hx : x.toNat ≤ 0xfffffff0) : (encode x).toNat < 256 := by
  refine Nat.lt_succ_of_le ((encode_le_iff hx 255).2 (hx.trans ?_))
  decide

/-- Of the size of a hint, that hint is chosen: the largest that has 32 bits is that of hint 239. -/
theorem encode_of_decode_eq {c : UInt32} (hc : c < 256) (h : (decode c).toNat = x.toNat) :
    encode x = c := by
  rw [toNat_decode hc] at h
  have hlt : size c.toNat < size 240 := h ▸ x.toNat_lt
  have hx : x.toNat ≤ size 239 :=
    h ▸ size_strictMono.monotone (Nat.le_of_lt_succ (size_strictMono.lt_iff_lt.1 hlt))
  have hgalois := encode_le_iff (x := x) (hx.trans (by decide))
  have hle : size c.toNat ≤ size (encode x).toNat := h ▸ (hgalois _).1 (Nat.le_refl _)
  exact UInt32.toNat_inj.1
    (Nat.le_antisymm ((hgalois _).2 (Nat.le_of_eq h.symm)) (size_strictMono.le_iff_le.1 hle))

/-! ### Sums that wrap around -/

/-- The first sum is too large for 32 bits, and what is left of it is no number of four digits. -/
theorem encode_of_gt (hx : 0xfffffff0 < x.toNat) : encode? x = none ∧ encode x = 0xfffffff8 := by
  have hlt := x.toNat_lt
  have hsmall : ¬ x < 8 := mt lt_eight_iff.1 (by omega)
  have hlimit : ((8 : UInt32) <<< (4 : UInt32)).toNat = 128 := rfl
  have hlarge : ¬ x < (8 : UInt32) <<< (4 : UInt32) := fun h => by
    have := UInt32.lt_iff_toNat_lt.1 h
    omega
  have hslack : ((1 : UInt32) <<< (4 : UInt32) - 1).toNat = 15 := rfl
  have hadd : add? x ((1 : UInt32) <<< (4 : UInt32) - 1) = none := if_neg (by omega)
  have hzero : (x + ((1 : UInt32) <<< (4 : UInt32) - 1)) >>> 4 = 0 := by
    have hdrop := toNat_drop (.inl rfl) (x + ((1 : UInt32) <<< (4 : UInt32) - 1))
    rw [UInt32.toNat_add, hslack] at hdrop
    refine UInt32.toNat_inj.1 (hdrop.trans ?_)
    change _ = 0
    omega
  constructor
  · rw [encode?, if_neg hsmall, shrink?, if_neg hlarge, hadd]
    rfl
  · rw [encode, if_neg hsmall, shrink, if_neg hlarge, hzero]
    rfl

/-! ### Hints and sizes -/

/-- **The least size that is large enough is chosen**, without a sum or a difference that wraps
around, for all sizes up to `2^32 - 16`; so hints grow with sizes, and a size that a hint stands for
is kept, as are all such sizes of 32 bits.  Beyond, the first sum wraps around: what is chosen then
is no hint. -/
theorem encode_spec (x : UInt32) :
    (x ≤ 0xfffffff0 → encode? x = some (encode x) ∧ encode x < 256 ∧
      IsLeast {n | x.toNat ≤ n ∧ ∃ c < 256, (decode c).toNat = n} (decode (encode x)).toNat ∧
      ∀ y ≤ x, encode y ≤ encode x) ∧
    (∀ c < 256, (decode c).toNat = x.toNat → encode x = c) ∧
    (0xfffffff0 < x → encode? x = none ∧ encode x = 0xfffffff8) := by
  refine ⟨fun hx => ?_, fun c hc => encode_of_decode_eq hc,
    fun hx => encode_of_gt (UInt32.lt_iff_toNat_lt.1 hx)⟩
  have hx' : x.toNat ≤ 0xfffffff0 := UInt32.le_iff_toNat_le.1 hx
  have hcode : encode x < 256 := UInt32.lt_iff_toNat_lt.2 (encode_lt hx')
  have henough : x.toNat ≤ (decode (encode x)).toNat := by
    rw [toNat_decode hcode]
    exact (encode_le_iff hx' _).1 (Nat.le_refl _)
  refine ⟨encode?_eq hx', hcode, ⟨⟨henough, encode x, hcode, rfl⟩, ?_⟩, fun y hy => ?_⟩
  · rintro n ⟨hn, c, hc, rfl⟩
    rw [toNat_decode hc] at hn ⊢
    rw [toNat_decode hcode]
    exact size_strictMono.monotone ((encode_le_iff hx' _).2 hn)
  · have hle : y.toNat ≤ x.toNat := UInt32.le_iff_toNat_le.1 hy
    rw [UInt32.le_iff_toNat_le, encode_le_iff (hle.trans hx')]
    exact hle.trans ((encode_le_iff hx' _).1 (Nat.le_refl _))

/-- **The largest sizes have no hint**: for the last one the hint 240 would do, and 239 would not. -/
theorem encode_last :
    encode? 0xffffffff = none ∧ encode 0xffffffff = 0xfffffff8 ∧
      (decode 239).toNat < 0xffffffff ∧ 0xffffffff ≤ (decode 240).toNat := by
  decide +kernel

end LuaBytecode.SizeHint
