import Mathlib.Data.Nat.Digits.Lemmas
import LuaBytecode.BaseLibrary
import LuaBytecode.Proofs.Number.Numeral

/-!
# Integers in a base

The digits of a base, with or without a minus, are read as an integer that wraps around to 64 bits,
by the reader of a given base as by that of hexadecimal numerals.

* `Numeral.InBase` : the texts that are read in a base, with the value that they denote.
* `Numeral.inBase?_of_inBase`, `Numeral.inBase?_eq_none_iff` : these are read, and no other ones.
* `Text.digits` : the digits of a number in a base.
* `BaseLibrary.tonumber_inBase_spec` : what this says of conversions by scripts.
-/

namespace LuaBytecode

/-! ### Writing digits -/

namespace Text

/-- The digits of a number in a base up to 36, the most significant first. -/
def digits (base n : Nat) : List Char :=
  if n = 0 then ['0'] else (Nat.digits base n).reverse.map (alphabet.getD · '0')

variable {base n d : Nat} {c : Char}

theorem digitValue_getD_alphabet (hd : d < 36) : digitValue (alphabet.getD d '0') = d := by
  revert d
  decide +kernel

theorem digitValue_zero : digitValue '0' = 0 := by decide +kernel

theorem isRun_digits (hlow : 2 ≤ base) (hhigh : base ≤ 36) (n : Nat) :
    IsRun base (digits base n) := by
  rw [digits]
  split
  case isTrue =>
    refine ⟨List.cons_ne_nil _ _, fun c hc => ?_⟩
    rw [List.mem_singleton.1 hc, digitValue_zero]
    omega
  case isFalse hn =>
    refine ⟨by simpa [Nat.digits_eq_nil_iff_eq_zero] using hn, fun c hc => ?_⟩
    obtain ⟨d, hd, rfl⟩ := List.mem_map.1 hc
    have hlt : d < base := Nat.digits_lt_base hlow (List.mem_reverse.1 hd)
    rwa [digitValue_getD_alphabet (by omega)]

theorem value_digits (hlow : 2 ≤ base) (hhigh : base ≤ 36) (n : Nat) :
    value base (digits base n) = n := by
  rw [digits]
  split
  case isTrue hn =>
    rw [hn, value, List.reverse_singleton, List.map_singleton, Nat.ofDigits_singleton,
      digitValue_zero]
  case isFalse hn =>
    have hmap : (Nat.digits base n).map (digitValue ∘ (alphabet.getD · '0')) =
        Nat.digits base n := by
      refine (List.map_congr_left fun d hd => ?_).trans (List.map_id _)
      have hlt : d < base := Nat.digits_lt_base hlow hd
      exact digitValue_getD_alphabet (by omega)
    rw [value, ← List.map_reverse, List.reverse_reverse, List.map_map, hmap, Nat.ofDigits_digits]

end Text

/-! ### Reading digits -/

namespace Numeral

open Text (digitValue value IsRun)

/-- An integer in a base: digits behind an optional minus. -/
inductive InBase (base : Nat) : Bool → List Char → List Char → Prop where
  | plain {ds : List Char} : IsRun base ds → InBase base false ds ds
  | minus {ds : List Char} : IsRun base ds → InBase base true ds ('-' :: ds)

/-- A text without the minus that it may start with. -/
def withoutMinus : List Char → List Char
  | '-' :: cs => cs
  | cs => cs

variable {base : Nat} {negative : Bool} {c : Char} {ds t : List Char} {s : String} {n : Int64}

/-- A minus is a digit of no base. -/
theorem ne_minus (hbase : base ≤ 36) (hc : digitValue c < base) : c ≠ '-' := by
  rintro rfl
  have hminus : digitValue '-' = 36 := by decide +kernel
  omega

theorem withoutMinus_of_isRun (hbase : base ≤ 36) (h : IsRun base ds) : withoutMinus ds = ds := by
  obtain ⟨c, rest, rfl, hc⟩ := h.exists_cons
  unfold withoutMinus
  split
  case h_1 heq => exact absurd (List.cons.inj heq).1 (ne_minus hbase hc)
  case h_2 => rfl

theorem InBase.withoutMinus_eq (hbase : base ≤ 36) (h : InBase base negative ds t) :
    withoutMinus t = ds := by
  cases h with
  | plain hrun => exact withoutMinus_of_isRun hbase hrun
  | minus hrun => rfl

theorem InBase.isRun (h : InBase base negative ds t) : IsRun base ds := by
  cases h with
  | plain hrun => exact hrun
  | minus hrun => exact hrun

theorem InBase.isBlank_eq_false (hbase : base ≤ 36) (h : InBase base negative ds t) :
    ∀ c ∈ t, Text.isBlank c = false := by
  have hdigits {ds : List Char} (hrun : IsRun base ds) : ∀ c ∈ ds, Text.isBlank c = false :=
    fun c hc => isBlank_eq_false_of_digit (Nat.lt_of_lt_of_le (hrun.isDigit c hc) hbase)
  cases h with
  | plain hrun => exact hdigits hrun
  | minus hrun =>
    intro c hc
    obtain rfl | hc := List.mem_cons.1 hc
    · decide
    · exact hdigits hrun c hc

theorem inBase?_of_inBase (hbase : base ≤ 36) (h : InBase base negative ds (Text.trim s.toList)) :
    inBase? base s = some (Int64.ofInt (signed negative (value base ds))) := by
  have hread {ds : List Char} (hrun : IsRun base ds) :
      Text.readDigits? base ds = some (Int64.ofInt (value base ds)) := by
    rw [Text.readDigits?_eq hbase, if_pos hrun, Int64.ofInt_eq_ofNat]
  rw [inBase?]
  generalize Text.trim s.toList = t at h
  cases h with
  | plain hrun =>
    split
    case h_1 rest => exact absurd rfl (ne_minus hbase (hrun.isDigit '-' List.mem_cons_self))
    case h_2 => exact hread hrun
  | minus hrun =>
    change (Text.readDigits? base ds).map (- ·) = _
    rw [hread hrun, Option.map_some, signed, if_pos rfl, Int64.ofInt_neg]

theorem inBase_of_isSome (hbase : base ≤ 36) (h : (inBase? base s).isSome) :
    ∃ negative ds, InBase base negative ds (Text.trim s.toList) := by
  have hrun {ds : List Char} (hsome : (Text.readDigits? base ds).isSome) : IsRun base ds := by
    rw [Text.readDigits?_eq hbase] at hsome
    by_contra hds
    rw [if_neg hds] at hsome
    exact absurd hsome (by simp)
  rw [inBase?] at h
  split at h
  case h_1 ds heq => exact ⟨true, ds, heq ▸ .minus (hrun (by simpa using h))⟩
  case h_2 ds => exact ⟨false, _, .plain (hrun h)⟩

/-- Digits behind an optional minus are read, and nothing else is. -/
theorem inBase?_eq_none_iff (hbase : base ≤ 36) :
    inBase? base s = none ↔ ∀ negative ds, ¬ InBase base negative ds (Text.trim s.toList) := by
  constructor
  · intro hnone negative ds h
    rw [inBase?_of_inBase hbase h] at hnone
    exact absurd hnone (by simp)
  · intro hno
    by_contra hsome
    obtain ⟨negative, ds, h⟩ := inBase_of_isSome hbase (Option.isSome_iff_ne_none.2 hsome)
    exact hno negative ds h

/-- A text that is digits behind an optional minus has no blanks to strip. -/
theorem inBase?_ofList (hbase : base ≤ 36) (h : InBase base negative ds t) :
    inBase? base (String.ofList t) = some (Int64.ofInt (signed negative (value base ds))) := by
  refine inBase?_of_inBase hbase ?_
  rwa [String.toList_ofList, Text.trim_eq_self (h.isBlank_eq_false hbase)]

/-- Hexadecimal digits behind their mark are read as the same integer. -/
theorem ofText?_ofList (h : Hexadecimal negative ds t) :
    Number.ofText? (String.ofList t) =
      some (.int (Int64.ofInt (signed negative (value 16 ds)))) := by
  refine Number.ofText?_of_hexadecimal ?_
  rwa [String.toList_ofList, Text.trim_eq_self fun c => Numeral.isBlank_eq_false (.inl ⟨_, _, h⟩)]

end Numeral

namespace BaseLibrary

open Numeral
open Text (digitValue value IsRun)

variable {base : Nat} {v : Value}

theorem base?_eq (hlow : 2 ≤ base) (hhigh : base ≤ 36) (hv : v.toInt? = some (Int64.ofNat base)) :
    base? v = some base := by
  have hint : (Int64.ofNat base).toInt = base := Int64.toInt_ofNat_of_lt (by omega)
  have hrange : 2 ≤ Int64.ofNat base ∧ Int64.ofNat base ≤ 36 := by
    rw [Int64.le_iff_toInt_le, Int64.le_iff_toInt_le, hint]
    change (2 : Int) ≤ base ∧ (base : Int) ≤ 36
    omega
  rw [base?, hv, Option.bind_some, if_pos hrange, hint, Int.toNat_natCast]

/-- A string is converted by the reader of the base. -/
theorem tonumber_eq (hlow : 2 ≤ base) (hhigh : base ≤ 36)
    (hv : v.toInt? = some (Int64.ofNat base)) (s : String) :
    tonumber [.string s, v] = pure [((inBase? base s).map Value.int).getD .nil] := by
  have hnil : v.isNil = false := by
    cases v with
    | nil => exact absurd hv (by simp [Value.toInt?, Value.toNumber?])
    | _ => rfl
  have hbase : base? (arg [.string s, v] 2) = some base := base?_eq hlow hhigh hv
  unfold tonumber
  change (if v.isNil = true then _ else _ : Script (List Value)) = _
  rw [hnil, if_neg Bool.false_ne_true, hbase]

/-- Numbers that differ by a multiple of `2 ^ 64` are the same 64-bit integer; so an integer is
read from the digits of its magnitude, also the least one, whose magnitude is no such integer. -/
theorem ofInt_signed (n : Int64) :
    Int64.ofInt (signed (decide (n < 0)) n.toInt.natAbs) = n := by
  have hneg : n < 0 ↔ n.toInt < 0 := Int64.lt_iff_toInt_lt
  have hsigned : signed (decide (n < 0)) n.toInt.natAbs = n.toInt := by
    simp only [signed, decide_eq_true_eq, hneg]
    split <;> omega
  rw [hsigned, Int64.ofInt_toInt]

/-- **Integers in a base from 2 to 36.**  Let `base` be given by a value that converts to it.

* One or more digits of the base, in letters of either case, are read as the 64-bit integer that is
  their positional value modulo `2 ^ 64`, and behind a minus as its negative.
* The reader of hexadecimal numerals reads the same integers from digits of base 16 behind `0x`.
* So an integer is read back from its digits, and every integer has digits.
* There is no number where another character stands, such as an inner blank, a plus, a second
  minus or a digit of a higher base, or where there is no digit. -/
theorem tonumber_inBase_spec (hlow : 2 ≤ base) (hhigh : base ≤ 36)
    (hv : v.toInt? = some (Int64.ofNat base)) :
    (∀ ds, IsRun base ds → ∃ n : Int64,
      n.toInt = Int.bmod (value base ds) 0x10000000000000000 ∧
      inBase? base (String.ofList ds) = some n ∧
      inBase? base (String.ofList ('-' :: ds)) = some (-n) ∧
      (base = 16 → ∀ mark, mark = 'x' ∨ mark = 'X' →
        Number.ofText? (String.ofList ('0' :: mark :: ds)) = some (.int n) ∧
        Number.ofText? (String.ofList ('-' :: '0' :: mark :: ds)) = some (.int (-n)))) ∧
    (∀ s, tonumber [.string s, v] = pure [((inBase? base s).map Value.int).getD .nil]) ∧
    (∀ (n : Int64) ds, IsRun base ds → value base ds = n.toInt.natAbs →
      tonumber [.string (String.ofList (if n < 0 then '-' :: ds else ds)), v] = pure [.int n]) ∧
    (∀ k, IsRun base (Text.digits base k) ∧ value base (Text.digits base k) = k) ∧
    ∀ s t, Text.Strips s.toList t →
      (withoutMinus t = [] ∨ ∃ c ∈ withoutMinus t, base ≤ digitValue c) →
      tonumber [.string s, v] = pure [.nil] := by
  refine ⟨fun ds hds => ?_, tonumber_eq hlow hhigh hv, fun n ds hds hvalue => ?_,
    fun k => ⟨Text.isRun_digits hlow hhigh k, Text.value_digits hlow hhigh k⟩,
    fun s t ht hother => ?_⟩
  · have hneg : Int64.ofInt (-(value base ds : Int)) = -Int64.ofInt (value base ds) :=
      Int64.ofInt_neg _
    refine ⟨Int64.ofInt (value base ds), Int64.toInt_ofInt, inBase?_ofList hhigh (.plain hds),
      (inBase?_ofList hhigh (.minus hds)).trans (congrArg some hneg), ?_⟩
    rintro rfl mark hmark
    have hplain : Hexadecimal false ds ('0' :: mark :: ds) := .mk .none hmark hds
    have hminus : Hexadecimal true ds ('-' :: '0' :: mark :: ds) := .mk .minus hmark hds
    rw [ofText?_ofList hplain, ofText?_ofList hminus, ← hneg]
    exact ⟨rfl, rfl⟩
  · have hbase : InBase base (decide (n < 0)) ds (if n < 0 then '-' :: ds else ds) := by
      by_cases hn : n < 0
      · rw [if_pos hn, decide_eq_true hn]
        exact .minus hds
      · rw [if_neg hn, decide_eq_false hn]
        exact .plain hds
    rw [tonumber_eq hlow hhigh hv, inBase?_ofList hhigh hbase, hvalue, ofInt_signed]
    rfl
  · have hnone : inBase? base s = none := by
      rw [inBase?_eq_none_iff hhigh, ← ht.eq_trim]
      intro negative ds h
      rw [h.withoutMinus_eq hhigh] at hother
      obtain hempty | ⟨c, hc, hdigit⟩ := hother
      · exact h.isRun.ne_nil hempty
      · exact absurd (h.isRun.isDigit c hc) (Nat.not_lt_of_le hdigit)
    rw [tonumber_eq hlow hhigh hv, hnone]
    rfl

/-- The digits of the least integer, in a base that is given by a numeral, and a second minus. -/
theorem tonumber_inBase_spec_minValue :
    (Value.string " 0x10").toInt? = some (Int64.ofNat 16) ∧
      tonumber [.string "-8000000000000000", .string " 0x10"] = pure [.int Int64.minValue] ∧
      tonumber [.string "--80", .string " 0x10"] = pure [.nil] := by
  have hv : (Value.string " 0x10").toInt? = some (Int64.ofNat 16) := by decide +kernel
  obtain ⟨-, -, hread, -, hother⟩ := tonumber_inBase_spec (by decide) (by decide) hv
  refine ⟨hv, hread Int64.minValue "8000000000000000".toList ?_ ?_,
    hother _ "--80".toList (Text.strips_iff.2 ?_) (.inr ⟨'-', ?_, ?_⟩)⟩ <;> decide +kernel

end BaseLibrary

end LuaBytecode
