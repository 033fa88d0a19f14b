import Mathlib.Data.List.DropRight
import LuaBytecode.Proofs.Number.Grammar

/-!
# Reading numerals

`Number.ofText?` accepts the numerals of the grammar between blanks, and nothing else.

* `Text.Strips` : a text without the blanks at its ends, which is `Text.trim` (`Text.strips_iff`).
* `Number.isSome_ofText?_iff`, `Number.ofText?_of_hexadecimal`, `Number.ofText?_of_decimal` : what
  is accepted, and how it is read.
* `Numeral.Malformed` : texts of some kinds that are no numerals.
* `Number.ofText?_toString` : the text of an integer is read as that integer.
* `Number.ofText?_spec` : all of it, for every text.
-/

namespace LuaBytecode

/-! ### Blanks -/

namespace Text

/-- `t` is a text without the blanks at its two ends. -/
structure Strips (cs t : List Char) : Prop where
  parts : ∃ front back, cs = front ++ t ++ back ∧ (∀ c ∈ front, isBlank c = true) ∧
    ∀ c ∈ back, isBlank c = true
  head : ∀ c ∈ t.head?, isBlank c = false
  last : ∀ c ∈ t.getLast?, isBlank c = false

variable {cs t : List Char}

theorem strips_trim (cs : List Char) : Strips cs (trim cs) := by
  have htrim : trim cs = (cs.dropWhile isBlank).rdropWhile isBlank := rfl
  rw [htrim]
  refine ⟨⟨cs.takeWhile isBlank, (cs.dropWhile isBlank).rtakeWhile isBlank, ?_, ?_, ?_⟩, ?_, ?_⟩
  · rw [List.append_assoc, List.rdropWhile_append_rtakeWhile, List.takeWhile_append_dropWhile]
  · exact fun c hc => List.mem_takeWhile_imp hc
  · exact fun c hc => List.mem_rtakeWhile_imp hc
  · intro c hc
    obtain ⟨rest, hrest⟩ := List.head?_eq_some_iff.1 hc
    obtain ⟨behind, hbehind⟩ := List.rdropWhile_prefix isBlank (cs.dropWhile isBlank)
    have hhead := List.head?_dropWhile_not isBlank cs
    rwa [← hbehind, hrest, List.cons_append, List.head?_cons] at hhead
  · intro c hc
    have hne : (cs.dropWhile isBlank).rdropWhile isBlank ≠ [] := by
      rintro h
      rw [h] at hc
      exact absurd hc (by simp)
    rw [List.getLast?_eq_getLast_of_ne_nil hne] at hc
    obtain rfl := Option.some.inj hc
    simpa using List.rdropWhile_last_not isBlank _ hne

theorem Strips.eq_trim (h : Strips cs t) : t = trim cs := by
  obtain ⟨⟨front, back, rfl, hfront, hback⟩, hhead, hlast⟩ := h
  have htrim : trim (front ++ t ++ back) =
      ((front ++ t ++ back).dropWhile isBlank).rdropWhile isBlank := rfl
  rw [htrim, List.append_assoc, List.dropWhile_append_of_pos hfront]
  cases t with
  | nil =>
    have hnone : back.dropWhile isBlank = [] := List.dropWhile_eq_nil_iff.2 hback
    rw [List.nil_append, hnone]
    rfl
  | cons c t =>
    have hc : ¬ isBlank c = true := by simp [hhead c rfl]
    have hback' : ∀ c ∈ back.reverse, isBlank c = true := by simpa using hback
    rw [List.cons_append, List.dropWhile_cons_of_neg hc, ← List.cons_append, List.rdropWhile,
      List.reverse_append, List.dropWhile_append_of_pos hback']
    refine (List.rdropWhile_eq_self_iff.2 fun hne => ?_).symm
    simp [hlast _ (List.getLast?_eq_getLast_of_ne_nil hne)]

/-- There is one way to strip a text of its blanks. -/
theorem strips_iff : Strips cs t ↔ t = trim cs :=
  ⟨Strips.eq_trim, fun h => h ▸ strips_trim cs⟩

theorem trim_eq_self (h : ∀ c ∈ cs, isBlank c = false) : trim cs = cs := by
  have hstrips : Strips cs cs := by
    refine ⟨⟨[], [], by simp, by simp, by simp⟩, fun c hc => ?_, fun c hc => ?_⟩
    · exact h c (List.mem_of_head? hc)
    · exact h c (List.mem_of_getLast? hc)
  exact hstrips.eq_trim.symm

end Text

/-! ### Hexadecimal integers -/

namespace Numeral

open Text (digitValue value IsRun)

variable {negative : Bool} {c : Char} {ds t body : List Char}

theorem hexDigits?_eq_some_iff :
    hexDigits? body = some ds ↔ ∃ mark, (mark = 'x' ∨ mark = 'X') ∧ body = '0' :: mark :: ds := by
  unfold hexDigits?
  split <;> simp_all

theorem hexadecimal_iff :
    Hexadecimal negative ds t ↔
      (sign t).1 = negative ∧ hexDigits? (sign t).2 = some ds ∧ IsRun 16 ds := by
  rw [hexDigits?_eq_some_iff]
  constructor
  · rintro ⟨hsg, hmark, hrun⟩
    rw [sign_append hsg ⟨by simp, by simp⟩]
    exact ⟨rfl, ⟨_, hmark, rfl⟩, hrun⟩
  · rintro ⟨hsign, ⟨mark, hmark, hbody⟩, hrun⟩
    obtain ⟨sg, hsg, ht⟩ := exists_sign t
    rw [hsign] at hsg
    rw [ht, hbody]
    exact .mk hsg hmark hrun

/-- A decimal numeral has no mark of a hexadecimal integer. -/
theorem hexDigits?_eq_none (h : Unsigned body) : hexDigits? body = none := by
  rw [Option.eq_none_iff_forall_ne_some]
  intro ds hds
  obtain ⟨mark, hmark, rfl⟩ := hexDigits?_eq_some_iff.1 hds
  have hdecimal := h.isDecimalChar_of_mem (c := mark) (by simp)
  obtain rfl | rfl := hmark <;> exact absurd hdecimal (by decide +kernel)

theorem hexadecimal?_eq (negative : Bool) (ds : List Char) :
    hexadecimal? negative ds =
      if IsRun 16 ds then some (.int (Int64.ofInt (signed negative (value 16 ds)))) else none := by
  rw [hexadecimal?, Text.readDigits?_eq (by decide)]
  by_cases hrun : IsRun 16 ds
  · rw [if_pos hrun, if_pos hrun]
    cases negative with
    | false => rfl
    | true => simp [signed, Int64.ofInt_neg, Int64.ofInt_eq_ofNat]
  · rw [if_neg hrun, if_neg hrun]
    rfl

/-! ### What no numeral has -/

theorem isBlank_eq_false_of_digit (hc : digitValue c < 36) : Text.isBlank c = false := by
  induction c using Text.ascii_cases with
  | ascii n hn => revert n; decide +kernel
  | rest c hlarge =>
    rw [Text.digitValue_of_le hlarge] at hc
    exact absurd hc (Nat.lt_irrefl 36)

theorem isBlank_eq_false_of_isDecimalChar (hc : isDecimalChar c = true) :
    Text.isBlank c = false := by
  obtain hdigit | hother := isDecimalChar_iff.1 hc
  · exact isBlank_eq_false_of_digit (by omega)
  · obtain rfl | rfl | rfl | rfl | rfl := hother <;> decide

theorem isBlank_eq_false (h : IsNumeral t) (hc : c ∈ t) : Text.isBlank c = false := by
  obtain ⟨negative, ds, hsg, hmark, hrun⟩ | h := h
  · obtain hc | hc := List.mem_append.1 hc
    · exact isBlank_eq_false_of_isDecimalChar (hsg.isDecimalChar_of_mem hc)
    · simp only [List.mem_cons] at hc
      obtain rfl | rfl | hc := hc
      · decide
      · obtain rfl | rfl := hmark <;> decide
      · exact isBlank_eq_false_of_digit (Nat.lt_trans (hrun.isDigit c hc) (by decide))
  · exact isBlank_eq_false_of_isDecimalChar (h.isDecimalChar_of_mem hc)

/-- A numeral has a decimal digit. -/
theorem exists_digit (h : IsNumeral t) : ∃ c ∈ t, digitValue c < 10 := by
  obtain ⟨negative, ds, hsg, hmark, hrun⟩ | ⟨hsg, hm, hx⟩ := h
  · exact ⟨'0', by simp, by decide +kernel⟩
  · rcases hm with hrun | ⟨hrun, -⟩ | hrun <;>
    · obtain ⟨c, rest, rfl, hc⟩ := hrun.exists_cons
      exact ⟨c, by simp, hc⟩

/-- A second sign is not taken for a part of the numeral. -/
theorem noSign_of_isNumeral (h : IsNumeral t) : NoSign (sign t).2 := by
  obtain ⟨negative, ds, h⟩ | h := h
  · obtain ⟨mark, -, hbody⟩ := hexDigits?_eq_some_iff.1 (hexadecimal_iff.1 h).2.1
    rw [hbody]
    exact ⟨by simp, by simp⟩
  · exact (decimal_iff.1 h).noSign

/-- There are only hexadecimal digits behind the mark of a numeral. -/
theorem isRun_of_hexDigits? (h : IsNumeral t) (hds : hexDigits? (sign t).2 = some ds) :
    IsRun 16 ds := by
  obtain ⟨negative, ds', h⟩ | h := h
  · obtain ⟨-, hds', hrun⟩ := hexadecimal_iff.1 h
    rw [hds] at hds'
    exact Option.some.inj hds' ▸ hrun
  · rw [hexDigits?_eq_none (decimal_iff.1 h)] at hds
    exact absurd hds (by simp)

/-- Some kinds of texts that are close to numerals. -/
inductive Malformed : List Char → Prop where
  /-- A word, a lone point or a lone sign. -/
  | noDigit {t : List Char} : (∀ c ∈ t, 10 ≤ digitValue c) → Malformed t
  | blank {t : List Char} {c : Char} : c ∈ t → Text.isBlank c = true → Malformed t
  | twoSigns {a b : Char} {rest : List Char} :
    a = '+' ∨ a = '-' → b = '+' ∨ b = '-' → Malformed (a :: b :: rest)
  | hexFraction {negative : Bool} {mark : Char} {sg ds : List Char} :
    Sign negative sg → mark = 'x' ∨ mark = 'X' → '.' ∈ ds → Malformed (sg ++ '0' :: mark :: ds)

theorem Malformed.not_isNumeral (h : Malformed t) : ¬ IsNumeral t := by
  intro ht
  cases h with
  | noDigit hnone =>
    obtain ⟨c, hc, hdigit⟩ := exists_digit ht
    exact absurd (hnone c hc) (Nat.not_le_of_lt hdigit)
  | blank hc hblank =>
    rw [isBlank_eq_false ht hc] at hblank
    exact absurd hblank (by decide)
  | twoSigns ha hb =>
    have hsecond := noSign_of_isNumeral ht
    rcases ha with rfl | rfl <;> rcases hb with rfl | rfl
    · exact hsecond.2 rfl
    · exact hsecond.1 rfl
    · exact hsecond.2 rfl
    · exact hsecond.1 rfl
  | hexFraction hsg hmark hpoint =>
    have hrun := isRun_of_hexDigits? ht (by
      rw [sign_append hsg ⟨by simp, by simp⟩]
      exact hexDigits?_eq_some_iff.2 ⟨_, hmark, rfl⟩)
    exact absurd (hrun.isDigit '.' hpoint) (by decide +kernel)

end Numeral

namespace Number

open Numeral
open Text (digitValue value IsRun trim)

variable {negative : Bool} {ds : List Char} {s : String}

theorem ofText?_of_hexadecimal (h : Hexadecimal negative ds (trim s.toList)) :
    ofText? s = some (.int (Int64.ofInt (signed negative (value 16 ds)))) := by
  obtain ⟨rfl, hds, hrun⟩ := hexadecimal_iff.1 h
  rw [ofText?]
  dsimp only
  rw [hds]
  exact (hexadecimal?_eq _ _).trans (if_pos hrun)

theorem ofText?_of_decimal (h : Decimal (trim s.toList)) :
    ofText? s = decimal? (trim s.toList) := by
  have hbody := decimal_iff.1 h
  rw [ofText?]
  dsimp only
  rw [hexDigits?_eq_none hbody, if_pos hbody.all_isDecimalChar]

theorem isSome_decimal?_iff {t : List Char} (h : (sign t).2.all isDecimalChar = true) :
    (decimal? t).isSome ↔ Decimal t := by
  rw [← isSome_double?_iff h, decimal?]
  cases hint : int? t with
  | none => simp
  | some n =>
    obtain ⟨negative, ds, hwhole, -⟩ := int?_eq_some_iff.1 hint
    exact iff_of_true rfl ((isSome_double?_iff h).2 hwhole.decimal)

theorem isSome_ofText?_iff : (ofText? s).isSome ↔ IsNumeral (trim s.toList) := by
  constructor
  · intro h
    rw [ofText?] at h
    dsimp only at h
    split at h
    case h_1 ds hds =>
      have hrun : IsRun 16 ds := by
        by_contra hrun
        rw [hexadecimal?_eq, if_neg hrun] at h
        exact absurd h (by simp)
      exact .inl ⟨_, ds, hexadecimal_iff.2 ⟨rfl, hds, hrun⟩⟩
    case h_2 =>
      split at h
      case isTrue hall => exact .inr ((isSome_decimal?_iff hall).1 h)
      case isFalse => exact absurd h (by simp)
  · rintro (⟨negative, ds, h⟩ | h)
    · rw [ofText?_of_hexadecimal h]
      rfl
    · rw [ofText?_of_decimal h]
      exact (isSome_decimal?_iff (decimal_iff.1 h).all_isDecimalChar).2 h

/-- A decimal numeral is a float unless it is a run of digits whose value fits. -/
theorem exists_decimal?_eq_float {t : List Char} (h : Decimal t)
    (hfits : ∀ negative ds, Whole negative ds t →
      ∀ n : Int64, n.toInt ≠ signed negative (value 10 ds)) :
    ∃ x, decimal? t = some (.float x) := by
  have hint : int? t = none := by
    rw [Option.eq_none_iff_forall_ne_some]
    intro n hn
    obtain ⟨negative, ds, hwhole, hvalue⟩ := int?_eq_some_iff.1 hn
    exact hfits negative ds hwhole n hvalue
  obtain ⟨x, hx⟩ := Option.isSome_iff_exists.1
    ((isSome_double?_iff (decimal_iff.1 h).all_isDecimalChar).2 h)
  exact ⟨x, by rw [decimal?, hint, hx]; rfl⟩

/-! ### The texts of integers -/

/-- The decimal digits of a number are a run with its value. -/
theorem toDigits_spec (n : Nat) :
    IsRun 10 (Nat.toDigits 10 n) ∧ value 10 (Nat.toDigits 10 n) = n := by
  have hchar : ∀ d < 10, digitValue (Nat.digitChar d) = d := by decide +kernel
  induction n using Nat.strongRecOn with
  | ind n ih =>
    obtain hn | hn := Nat.lt_or_ge n 10
    · rw [Nat.toDigits_of_lt_base hn]
      refine ⟨⟨by simp, by simpa [hchar n hn] using hn⟩, ?_⟩
      simp [value, hchar n hn]
    · obtain ⟨hrun, hvalue⟩ := ih (n / 10) (by omega)
      have hlast := hchar (n % 10) (Nat.mod_lt n (by decide))
      rw [Nat.toDigits_of_base_le (by decide) hn]
      refine ⟨⟨by simp, fun c hc => ?_⟩, ?_⟩
      · obtain hc | hc := List.mem_append.1 hc
        · exact hrun.isDigit c hc
        · obtain rfl := List.mem_singleton.1 hc
          rw [hlast]
          exact Nat.mod_lt n (by decide)
      · rw [Text.value_append_singleton, hvalue, hlast]
        exact Nat.div_add_mod' n 10

theorem toList_toString (i : Int) :
    (toString i).toList =
      if i < 0 then '-' :: Nat.toDigits 10 i.natAbs else Nat.toDigits 10 i.natAbs := by
  cases i with
  | ofNat m => exact String.toList_ofList
  | negSucc m =>
    show ("-" ++ String.ofList (Nat.toDigits 10 (m + 1))).toList = _
    rw [String.toList_append, String.toList_ofList, String.toList_ofList,
      if_pos (Int.negSucc_lt_zero m)]
    rfl

theorem whole_toString (i : Int) :
    ∃ negative ds, Whole negative ds (toString i).toList ∧ signed negative (value 10 ds) = i := by
  obtain ⟨hrun, hvalue⟩ := toDigits_spec i.natAbs
  rw [toList_toString]
  split
  case isTrue hneg =>
    refine ⟨true, _, .mk .minus hrun, ?_⟩
    show -(value 10 (Nat.toDigits 10 i.natAbs) : Int) = i
    rw [hvalue]
    omega
  case isFalse hneg =>
    refine ⟨false, _, .mk .none hrun, ?_⟩
    show (value 10 (Nat.toDigits 10 i.natAbs) : Int) = i
    rw [hvalue]
    omega

theorem text_int (n : Int64) : text (.int n) = toString n.toInt := by
  have hneg : n < 0 ↔ n.toInt < 0 := Int64.lt_iff_toInt_lt
  rw [← String.toList_inj, toList_toString, text, intText, String.toList_ofList]
  simp only [hneg]

theorem ofText?_toString (n : Int64) : ofText? (toString n.toInt) = some (.int n) := by
  obtain ⟨negative, ds, hwhole, hvalue⟩ := whole_toString n.toInt
  rw [← Text.trim_eq_self fun c => Numeral.isBlank_eq_false (.inr hwhole.decimal)] at hwhole
  rw [ofText?_of_decimal hwhole.decimal, decimal?,
    int?_eq_some_iff.2 ⟨negative, ds, hwhole, hvalue.symm⟩]

/-! ### Reading any text -/

/-- **Exactly the numerals are read, and their integers exactly.**  Let `t` be the text without
the blanks at its ends.

* There is a number if `t` is a numeral, and only then.
* A hexadecimal integer is wrapped around to 64 bits, and so is its negative.
* A run of decimal digits behind a sign is the integer of its value, if this fits into 64 bits.
* All other decimal numerals are floats.
* Words, lone points, inner blanks, doubled signs and hexadecimal fractions are no numerals.

In particular the text of an integer is its decimal text, and is read as that integer. -/
theorem ofText?_spec :
    (∀ s, ∃ t, (∀ t', Text.Strips s.toList t' ↔ t' = t) ∧
      ((ofText? s).isSome ↔ (∃ negative ds, Hexadecimal negative ds t) ∨ Decimal t) ∧
      (∀ negative ds, Hexadecimal negative ds t →
        ofText? s = some (.int (Int64.ofInt (signed negative (value 16 ds))))) ∧
      (∀ negative ds (n : Int64), Whole negative ds t → n.toInt = signed negative (value 10 ds) →
        ofText? s = some (.int n)) ∧
      (Decimal t → (∀ negative ds (n : Int64), Whole negative ds t →
          n.toInt ≠ signed negative (value 10 ds)) → ∃ x, ofText? s = some (.float x)) ∧
      (Malformed t → ofText? s = none)) ∧
    ∀ n : Int64, text (.int n) = toString n.toInt ∧
      ofText? (toString n.toInt) = some (.int n) := by
  refine ⟨fun s => ⟨trim s.toList, fun t' => Text.strips_iff, isSome_ofText?_iff, ?_, ?_, ?_, ?_⟩,
    fun n => ⟨text_int n, ofText?_toString n⟩⟩
  · intro negative ds h
    exact ofText?_of_hexadecimal h
  · intro negative ds n hwhole hn
    rw [ofText?_of_decimal hwhole.decimal, decimal?,
      int?_eq_some_iff.2 ⟨negative, ds, hwhole, hn⟩]
  · intro h hfits
    rw [ofText?_of_decimal h]
    exact exists_decimal?_eq_float h fun negative ds hwhole n => hfits negative ds n hwhole
  · intro h
    rw [← Option.not_isSome_iff_eq_none, isSome_ofText?_iff]
    exact h.not_isNumeral

/-- Hexadecimal integers wrap around, behind a minus as well. -/
example : ofText? " -0xFFFFFFFFFFFFFFFE\t" = some (.int 2) := by decide +kernel

end Number

end LuaBytecode
