import Mathlib.Algebra.Group.Nat.Defs
import LuaBytecode.Instruction

/-!
# Words and their fields

An instruction word is an opcode with the operands of a layout, each in a field of its own.  The
fields fill the word, so that the operands of any of the four layouts make up the whole word, also
of a layout that is not the one of its opcode.

* `Operands` : the operands of a layout, within the widths of their fields.
* `Operands.word`, `Operands.ofWord` : building a word from its fields and reading them.
* `Instruction.toNat_word_abc`, `toNat_word_abx`, `toNat_word_ax` : words as sums.
* `Operands.word_ofWord_inverse` : building and reading are inverse.
-/

namespace LuaBytecode

/-! ### Opcodes and their numbers -/

theorem Opcode.toNat_of_ofNat? {n : ℕ} {op : Opcode} (h : ofNat? n = some op) : op.toNat = n := by
  have hn : n < 47 := (Array.getElem?_eq_some_iff.1 h).1
  have hall : ∀ k < 47, (ofNat? k).map toNat = some k := by decide +kernel
  simpa [h] using hall n hn

/-! ### Words as sums -/

namespace Instruction

variable {op : Opcode} {i : Instruction}

/-- A field above others does not touch them. -/
theorem toNat_or_shiftLeft {x y : UInt32} {n : ℕ} (hn : n < 32) (hx : x.toNat < 2 ^ n)
    (hy : y.toNat < 2 ^ (32 - n)) :
    (x ||| y <<< UInt32.ofNat n).toNat = x.toNat + y.toNat * 2 ^ n := by
  have hfits : y.toNat * 2 ^ n < 2 ^ 32 := by
    calc y.toNat * 2 ^ n < 2 ^ (32 - n) * 2 ^ n :=
          Nat.mul_lt_mul_of_pos_right hy (Nat.two_pow_pos n)
      _ = 2 ^ 32 := by rw [← Nat.pow_add, Nat.sub_add_cancel (Nat.le_of_lt hn)]
  have hshift : (y <<< UInt32.ofNat n).toNat = y.toNat <<< n := by
    have hcount : (UInt32.ofNat n).toNat % 32 = n := by
      rw [UInt32.toNat_ofNat']
      omega
    rw [UInt32.toNat_shiftLeft, hcount, Nat.shiftLeft_eq, Nat.mod_eq_of_lt hfits]
  rw [UInt32.toNat_or, hshift, Nat.or_comm, ← Nat.shiftLeft_add_eq_or_of_lt hx, Nat.shiftLeft_eq,
    Nat.add_comm]

theorem toNat_opcode (op : Opcode) : (UInt32.ofNat op.toNat).toNat = op.toNat := by
  have := op.toNat_lt
  rw [UInt32.toNat_ofNat']
  omega

theorem toNat_word_ax {extra : UInt32} (h : extra.toNat < 2 ^ 26) :
    (ax op extra).word.toNat = op.toNat + extra.toNat * 0x40 := by
  have hop := op.toNat_lt
  have hword := toNat_or_shiftLeft (n := 6) (x := .ofNat op.toNat) (by omega)
    (by rw [toNat_opcode]; omega) h
  rwa [toNat_opcode] at hword

theorem toNat_word_abx {a bx : UInt32} (ha : a.toNat < 2 ^ 8) (hbx : bx.toNat < 2 ^ 18) :
    (abx op a bx).word.toNat = op.toNat + a.toNat * 0x40 + bx.toNat * 0x4000 := by
  have hop := op.toNat_lt
  have hlow : (ax op a).word.toNat = op.toNat + a.toNat * 0x40 := toNat_word_ax (by omega)
  have hword := toNat_or_shiftLeft (n := 14) (x := (ax op a).word) (by omega) (by omega) hbx
  rwa [hlow] at hword

/-- The operand `B` stands above `C`. -/
theorem toNat_word_abc {a b c : UInt32} (ha : a.toNat < 2 ^ 8) (hb : b.toNat < 2 ^ 9)
    (hc : c.toNat < 2 ^ 9) :
    (abc op a b c).word.toNat =
      op.toNat + a.toNat * 0x40 + c.toNat * 0x4000 + b.toNat * 0x800000 := by
  have hop := op.toNat_lt
  have hlow : (abx op a c).word.toNat = op.toNat + a.toNat * 0x40 + c.toNat * 0x4000 :=
    toNat_word_abx ha (by omega)
  have hword := toNat_or_shiftLeft (n := 23) (x := (abx op a c).word) (by omega) (by omega) hb
  have hswap : (abc op a b c).word = (abx op a c).word ||| b <<< 23 := by
    rw [abc, abx, UInt32.or_assoc, UInt32.or_comm (b <<< 23), ← UInt32.or_assoc]
  rw [hswap]
  rwa [hlow] at hword

/-- The biased operand of a jump. -/
theorem toNat_biased {sbx : ℤ} (hlow : -131071 ≤ sbx) (hhigh : sbx ≤ 131072) :
    ((Int32.ofInt sbx).toUInt32 + UInt32.ofNat offsetBias).toNat = (sbx + 131071).toNat := by
  obtain ⟨n, hn⟩ := Int.eq_ofNat_of_zero_le (show 0 ≤ sbx + 131071 by omega)
  have hsum : (Int32.ofInt sbx).toUInt32 + UInt32.ofNat offsetBias = UInt32.ofNat n := by
    have hbias : UInt32.ofNat offsetBias = (Int32.ofInt 131071).toUInt32 := rfl
    rw [hbias, ← Int32.toUInt32_add, ← Int32.ofInt_add, hn]
    rfl
  rw [hsum, UInt32.toNat_ofNat', hn, Int.toNat_natCast]
  omega

/-! ### The widths of fields -/

theorem a_lt (i : Instruction) : i.a < 2 ^ 8 := Nat.mod_lt _ (by decide)

theorem b_lt (i : Instruction) : i.b < 2 ^ 9 := by
  have := i.word.toNat_lt
  rw [b]
  omega

theorem c_lt (i : Instruction) : i.c < 2 ^ 9 := Nat.mod_lt _ (by decide)

theorem bx_lt (i : Instruction) : i.bx < 2 ^ 18 := by
  have := i.word.toNat_lt
  rw [bx]
  omega

theorem extra_lt (i : Instruction) : i.extra < 2 ^ 26 := by
  have := i.word.toNat_lt
  rw [extra]
  omega

theorem sbx_bounds (i : Instruction) : -131071 ≤ i.sbx ∧ i.sbx ≤ 131072 := by
  have := i.bx_lt
  rw [sbx, offsetBias]
  omega

theorem code_of_opcode? (h : i.opcode? = some op) : i.code = op.toNat :=
  (Opcode.toNat_of_ofNat? h).symm

theorem opcode?_of_code (h : i.code = op.toNat) : i.opcode? = some op := by
  rw [opcode?, h, Opcode.ofNat?_toNat]

end Instruction

/-! ### Operands -/

/-- The operands that an instruction has in a layout, each within the width of its field. -/
inductive Operands : Layout → Type where
  | abc (a : Fin (2 ^ 8)) (b c : Fin (2 ^ 9)) : Operands .abc
  | abx (a : Fin (2 ^ 8)) (bx : Fin (2 ^ 18)) : Operands .abx
  | asbx (a : Fin (2 ^ 8)) (sbx : {s : ℤ // -131071 ≤ s ∧ s ≤ 131072}) : Operands .asbx
  | ax (extra : Fin (2 ^ 26)) : Operands .ax
deriving DecidableEq

namespace Operands

variable {l : Layout}

/-- The word of an opcode with operands. -/
def word (op : Opcode) : Operands l → Instruction
  | abc a b c => .abc op (.ofNat a) (.ofNat b) (.ofNat c)
  | abx a bx => .abx op (.ofNat a) (.ofNat bx)
  | asbx a sbx => .asbx op (.ofNat a) (.ofInt sbx)
  | ax extra => .ax op (.ofNat extra)

/-- The operands that are read from a word in a layout. -/
def ofWord (i : Instruction) : (l : Layout) → Operands l
  | .abc => .abc ⟨i.a, i.a_lt⟩ ⟨i.b, i.b_lt⟩ ⟨i.c, i.c_lt⟩
  | .abx => .abx ⟨i.a, i.a_lt⟩ ⟨i.bx, i.bx_lt⟩
  | .asbx => .asbx ⟨i.a, i.a_lt⟩ ⟨i.sbx, i.sbx_bounds⟩
  | .ax => .ax ⟨i.extra, i.extra_lt⟩

/-- The operands as one number, which stands above the opcode in the word. -/
def number : Operands l → ℕ
  | abc a b c => a + c * 0x100 + b * 0x20000
  | abx a bx => a + bx * 0x100
  | asbx a sbx => a + (sbx + 131071 : ℤ).toNat * 0x100
  | ax extra => extra

theorem toNat_ofNat_fin {m : ℕ} (x : Fin m) (hm : m ≤ 2 ^ 32) : (UInt32.ofNat x).toNat = x := by
  have := x.isLt
  rw [UInt32.toNat_ofNat']
  omega

theorem toNat_word (op : Opcode) (x : Operands l) :
    (x.word op).word.toNat = op.toNat + x.number * 0x40 := by
  cases x with
  | abc a b c =>
    have ha := toNat_ofNat_fin a (by decide)
    have hb := toNat_ofNat_fin b (by decide)
    have hc := toNat_ofNat_fin c (by decide)
    rw [word, number, Instruction.toNat_word_abc (by omega) (by omega) (by omega), ha, hb, hc]
    omega
  | abx a bx =>
    have ha := toNat_ofNat_fin a (by decide)
    have hbx := toNat_ofNat_fin bx (by decide)
    rw [word, number, Instruction.toNat_word_abx (by omega) (by omega), ha, hbx]
    omega
  | asbx a sbx =>
    have ha := toNat_ofNat_fin a (by decide)
    have hsbx := Instruction.toNat_biased sbx.2.1 sbx.2.2
    have := sbx.2.2
    rw [word, number, Instruction.asbx,
      Instruction.toNat_word_abx (by omega) (by rw [hsbx]; omega), ha, hsbx]
    omega
  | ax extra =>
    have hextra := toNat_ofNat_fin extra (by decide)
    rw [word, number, Instruction.toNat_word_ax (by omega), hextra]

/-- In every layout the operands are all that stands above the opcode. -/
theorem number_ofWord (i : Instruction) (l : Layout) : (ofWord i l).number = i.extra := by
  have hi := i.word.toNat_lt
  cases l with
  | abc =>
    simp only [ofWord, number, Instruction.a, Instruction.b, Instruction.c, Instruction.extra]
    omega
  | abx =>
    simp only [ofWord, number, Instruction.a, Instruction.bx, Instruction.extra]
    omega
  | asbx =>
    simp only [ofWord, number, Instruction.a, Instruction.sbx, Instruction.offsetBias,
      Instruction.bx, Instruction.extra]
    omega
  | ax => rfl

/-- The fields of a layout do not overlap. -/
theorem number_injective : Function.Injective (number : Operands l → ℕ) := by
  intro x y h
  cases x with
  | abc a b c =>
    cases y with
    | abc a' b' c' =>
      simp only [number] at h
      simp only [abc.injEq, Fin.ext_iff]
      omega
  | abx a bx =>
    cases y with
    | abx a' bx' =>
      simp only [number] at h
      simp only [abx.injEq, Fin.ext_iff]
      omega
  | asbx a sbx =>
    cases y with
    | asbx a' sbx' =>
      have hlow := sbx.2.1
      have hlow' := sbx'.2.1
      simp only [number] at h
      simp only [asbx.injEq, Fin.ext_iff, Subtype.ext_iff]
      omega
  | ax extra =>
    cases y with
    | ax extra' => exact congrArg ax (Fin.ext h)

/-! ### There and back -/

theorem extra_word (op : Opcode) (x : Operands l) : (x.word op).extra = x.number := by
  have hop := op.toNat_lt
  rw [Instruction.extra, toNat_word]
  omega

theorem opcode?_word (op : Opcode) (x : Operands l) : (x.word op).opcode? = some op := by
  have hop := op.toNat_lt
  refine Instruction.opcode?_of_code ?_
  rw [Instruction.code, toNat_word]
  omega

theorem ofWord_word (op : Opcode) (x : Operands l) : ofWord (x.word op) l = x :=
  number_injective ((number_ofWord _ l).trans (extra_word op x))

theorem word_ofWord {i : Instruction} {op : Opcode} (h : i.opcode? = some op) (l : Layout) :
    (ofWord i l).word op = i := by
  have hcode := Instruction.code_of_opcode? h
  have hword : ((ofWord i l).word op).word.toNat = i.word.toNat := by
    rw [toNat_word, number_ofWord, ← hcode, Instruction.code, Instruction.extra]
    omega
  exact congrArg Instruction.mk (UInt32.toNat_inj.1 hword)

/-! ### Operands that may be constants -/

theorem toNat_ofConstant {k : UInt32} (hk : k.toNat < 2 ^ 8) :
    (RK.ofConstant k).toNat = k.toNat + 2 ^ 8 :=
  Instruction.toNat_or_shiftLeft (n := 8) (y := 1) (by decide) hk (by decide)

theorem isConstant_eq {x : ℕ} (hx : x < 2 ^ 9) : RK.isConstant x = decide (2 ^ 8 ≤ x) := by
  rw [RK.isConstant, Nat.testBit_eq_decide_div_mod_eq, decide_eq_decide]
  omega

/-- **Building instruction words and reading them are inverse**, in each of the four layouts: a
word gives back its opcode and its operands, and the operands that are read from a word with a known
opcode, in any layout, give back the word.  A constant below 256 fits the fields of operands that
may be constants, is recognised there and gives back its index; a register below 256 is not taken
for one. -/
theorem word_ofWord_inverse (l : Layout) :
    (∀ op (x : Operands l), (x.word op).opcode? = some op ∧ ofWord (x.word op) l = x) ∧
    (∀ i op, i.opcode? = some op → (ofWord i l).word op = i) ∧
    (∀ k : UInt32, k.toNat < 2 ^ 8 →
      (RK.ofConstant k).toNat < 2 ^ 9 ∧ RK.isConstant (RK.ofConstant k).toNat = true ∧
        RK.constantIndex (RK.ofConstant k).toNat = k.toNat) ∧
    ∀ r < 2 ^ 8, RK.isConstant r = false := by
  refine ⟨fun op x => ⟨opcode?_word op x, ofWord_word op x⟩, fun i op h => word_ofWord h l,
    fun k hk => ?_, fun r hr => ?_⟩
  · have hvalue := toNat_ofConstant hk
    have hfits : (RK.ofConstant k).toNat < 2 ^ 9 := by omega
    refine ⟨hfits, ?_, ?_⟩
    · rw [isConstant_eq hfits, decide_eq_true_iff]
      omega
    · rw [RK.constantIndex, hvalue]
      omega
  · rw [isConstant_eq (by omega), decide_eq_false_iff_not]
    omega

/-- The farthest jump back, and one of another opcode's words read as a jump. -/
example : ofWord (.asbx .jump 255 (-131071)) .asbx = .asbx 255 ⟨-131071, by decide⟩ ∧
    (ofWord (.abc .call 3 2 1) .asbx).word .call = .abc .call 3 2 1 := by
  decide +kernel

end Operands

end LuaBytecode
