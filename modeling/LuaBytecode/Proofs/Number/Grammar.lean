import Mathlib.Data.List.TakeDrop
import Mathlib.Data.List.TakeWhile
import LuaBytecode.Number.Numeral
import LuaBytecode.Proofs.Text.Digit

/-!
# The grammar of numerals

A numeral is an optional sign and a hexadecimal integer, or an optional sign and an unsigned
decimal numeral, which is a mantissa and an optional exponent.  The relations of this file say so
without reading anything, and each part of the reader accepts what its relation holds of.

* `Numeral.Sign`, `Numeral.Mantissa`, `Numeral.Exponent` : the parts.
* `Numeral.Hexadecimal`, `Numeral.Whole`, `Numeral.Decimal` : the numerals.
* `Numeral.isSome_exponent?_iff`, `Numeral.isSome_float?_iff`, `Numeral.int?_eq_some_iff` : what is
  accepted as an exponent, as an unsigned decimal numeral, and as an integer.
-/

namespace LuaBytecode.Numeral

open Text (digitValue value IsRun)

/-- An optional sign, which may be a minus. -/
inductive Sign : Bool → List Char → Prop where
  | none : Sign false []
  | plus : Sign false ['+']
  | minus : Sign true ['-']

/-- The value behind a sign. -/
def signed (negative : Bool) (n : Nat) : Int := if negative then -n else n

/-- Decimal digits with at most one point, before, between or behind them. -/
inductive Mantissa : List Char → Prop where
  | whole {ds : List Char} : IsRun 10 ds → Mantissa ds
  | point {ds part : List Char} :
    IsRun 10 ds → (∀ c ∈ part, digitValue c < 10) → Mantissa (ds ++ '.' :: part)
  | fraction {part : List Char} : IsRun 10 part → Mantissa ('.' :: part)

/-- An optional exponent, which has a sign of its own. -/
inductive Exponent : List Char → Prop where
  | none : Exponent []
  | some {mark : Char} {negative : Bool} {sg ds : List Char} :
    mark = 'e' ∨ mark = 'E' → Sign negative sg → IsRun 10 ds → Exponent (mark :: (sg ++ ds))

/-- A decimal numeral without a sign. -/
inductive Unsigned : List Char → Prop where
  | mk {m x : List Char} : Mantissa m → Exponent x → Unsigned (m ++ x)

/-- A decimal numeral. -/
inductive Decimal : List Char → Prop where
  | mk {negative : Bool} {sg body : List Char} :
    Sign negative sg → Unsigned body → Decimal (sg ++ body)

/-- A decimal numeral that is a run of digits behind its sign. -/
inductive Whole : Bool → List Char → List Char → Prop where
  | mk {negative : Bool} {sg ds : List Char} :
    Sign negative sg → IsRun 10 ds → Whole negative ds (sg ++ ds)

/-- A hexadecimal integer. -/
inductive Hexadecimal : Bool → List Char → List Char → Prop where
  | mk {negative : Bool} {mark : Char} {sg ds : List Char} :
    Sign negative sg → mark = 'x' ∨ mark = 'X' → IsRun 16 ds →
    Hexadecimal negative ds (sg ++ '0' :: mark :: ds)

/-- A hexadecimal or decimal numeral. -/
def IsNumeral (t : List Char) : Prop := (∃ negative ds, Hexadecimal negative ds t) ∨ Decimal t

variable {negative : Bool} {c : Char} {sg cs ds t body : List Char}

/-! ### Signs -/

/-- The text does not start with a sign. -/
def NoSign (cs : List Char) : Prop := cs.head? ≠ some '-' ∧ cs.head? ≠ some '+'

theorem sign_eq_of_noSign (h : NoSign cs) : sign cs = (false, cs) := by
  unfold sign
  split
  · exact absurd rfl h.1
  · exact absurd rfl h.2
  · rfl

theorem sign_append (hsg : Sign negative sg) (h : NoSign body) :
    sign (sg ++ body) = (negative, body) := by
  cases hsg with
  | none => exact sign_eq_of_noSign h
  | plus => rfl
  | minus => rfl

/-- A text is its sign and what follows it. -/
theorem exists_sign (cs : List Char) : ∃ sg, Sign (sign cs).1 sg ∧ cs = sg ++ (sign cs).2 := by
  unfold sign
  split
  · exact ⟨_, .minus, rfl⟩
  · exact ⟨_, .plus, rfl⟩
  · exact ⟨_, .none, rfl⟩

theorem noSign_of_digit (hc : digitValue c < 10) : NoSign (c :: cs) := by
  constructor <;>
  · intro h
    obtain rfl := Option.some.inj h
    exact absurd hc (by decide +kernel)

theorem noSign_of_isRun (h : IsRun 10 ds) : NoSign ds := by
  obtain ⟨c, rest, rfl, hc⟩ := h.exists_cons
  exact noSign_of_digit hc

/-! ### Digits -/

theorem isDigit_iff : isDigit c = true ↔ digitValue c < 10 := by
  rw [isDigit, decide_eq_true_iff, Text.between_iff_digitValue_lt]

theorem all_isDigit_iff : ds.all isDigit = true ↔ ∀ c ∈ ds, digitValue c < 10 := by
  simp only [List.all_eq_true, isDigit_iff]

theorem isRun_iff : IsRun 10 ds ↔ ds ≠ [] ∧ ds.all isDigit = true := by
  rw [all_isDigit_iff]
  exact ⟨fun h => ⟨h.ne_nil, h.isDigit⟩, fun ⟨hne, hall⟩ => ⟨hne, hall⟩⟩

/-- Digits end where no digit follows. -/
theorem span_isDigit (hds : ∀ c ∈ ds, digitValue c < 10)
    (hcs : ∀ c ∈ cs.head?, ¬ digitValue c < 10) : (ds ++ cs).span isDigit = (ds, cs) := by
  have hall : ∀ c ∈ ds, isDigit c = true := fun c hc => isDigit_iff.2 (hds c hc)
  rw [List.span_eq_takeWhile_dropWhile, List.takeWhile_append_of_pos hall,
    List.dropWhile_append_of_pos hall]
  cases cs with
  | nil => simp
  | cons c cs =>
    have hc : ¬ isDigit c = true := fun h => hcs c rfl (isDigit_iff.1 h)
    simp [hc]

/-! ### Parts of a decimal numeral -/

/-- The condition under which the marked digits of an exponent are read. -/
theorem isSome_exponent?_cons (mark : Char) (cs : List Char) :
    (exponent? (mark :: cs)).isSome ↔
      (mark = 'e' ∨ mark = 'E') ∧ IsRun 10 (sign cs).2 := by
  rw [exponent?, isRun_iff]
  dsimp only
  split
  · exact iff_of_true rfl ‹_›
  · exact iff_of_false (by simp) ‹_›

theorem isSome_exponent?_iff : (exponent? cs).isSome ↔ Exponent cs := by
  cases cs with
  | nil => exact iff_of_true rfl .none
  | cons mark cs =>
    rw [isSome_exponent?_cons]
    constructor
    · rintro ⟨hmark, hrun⟩
      obtain ⟨sg, hsg, hcs⟩ := exists_sign cs
      rw [hcs]
      exact .some hmark hsg hrun
    · intro h
      cases h with
      | some hmark hsg hrun =>
        rw [sign_append hsg (noSign_of_isRun hrun)]
        exact ⟨hmark, hrun⟩

/-- What follows the digits of a mantissa. -/
theorem Exponent.head_cases (h : Exponent cs) : ∀ c ∈ cs.head?, c = 'e' ∨ c = 'E' := by
  cases h with
  | none => simp
  | some hmark _ _ => simpa using hmark

theorem Exponent.fraction_eq (h : Exponent cs) : fraction cs = ([], cs) := by
  have hpoint : ∀ rest, cs ≠ '.' :: rest := by
    rintro rest rfl
    exact absurd (h.head_cases '.' rfl) (by decide)
  unfold fraction
  split
  · exact absurd rfl (hpoint _)
  · rfl

theorem not_digit_point : ¬ digitValue '.' < 10 := by decide +kernel

theorem Exponent.not_digit (h : Exponent cs) : ∀ c ∈ cs.head?, ¬ digitValue c < 10 := by
  intro c hc
  obtain rfl | rfl := h.head_cases c hc <;> decide +kernel

theorem fraction_append (hds : ∀ c ∈ ds, digitValue c < 10) (h : Exponent cs) :
    fraction ('.' :: (ds ++ cs)) = (ds, cs) :=
  span_isDigit hds h.not_digit

/-- There is a fraction behind a point, and none elsewhere. -/
theorem fraction_cases (cs : List Char) :
    (∃ part rest, cs = '.' :: (part ++ rest) ∧ fraction cs = (part, rest) ∧
      ∀ c ∈ part, digitValue c < 10) ∨ fraction cs = ([], cs) := by
  unfold fraction
  split
  case h_1 cs =>
    refine .inl ⟨cs.takeWhile isDigit, cs.dropWhile isDigit, ?_, ?_, ?_⟩
    · rw [List.takeWhile_append_dropWhile]
    · rw [List.span_eq_takeWhile_dropWhile]
    · exact fun c hc => isDigit_iff.1 (List.mem_takeWhile_imp hc)
  case h_2 => exact .inr rfl

/-- The condition under which digits, a fraction and an exponent are read. -/
theorem isSome_float?_of_span {whole rest part behind : List Char}
    (hspan : cs.span isDigit = (whole, rest)) (hfraction : fraction rest = (part, behind)) :
    (float? negative cs).isSome ↔ ¬ (whole = [] ∧ part = []) ∧ Exponent behind := by
  rw [float?, hspan, ← isSome_exponent?_iff]
  dsimp only
  rw [hfraction]
  dsimp only
  split <;> simp_all

/-- An unsigned decimal numeral is read as a float, and nothing else is. -/
theorem isSome_float?_iff (negative : Bool) : (float? negative cs).isSome ↔ Unsigned cs := by
  constructor
  · intro h
    have hspan := List.span_eq_takeWhile_dropWhile (p := isDigit) cs
    have hwhole : ∀ c ∈ cs.takeWhile isDigit, digitValue c < 10 := fun c hc =>
      isDigit_iff.1 (List.mem_takeWhile_imp hc)
    rw [← List.takeWhile_append_dropWhile (p := isDigit) (l := cs)]
    generalize cs.takeWhile isDigit = whole, cs.dropWhile isDigit = rest at hspan hwhole ⊢
    obtain ⟨part, behind, rfl, hfraction, hpart⟩ | hfraction := fraction_cases rest
    · obtain ⟨hsome, hexp⟩ := (isSome_float?_of_span hspan hfraction).1 h
      obtain rfl | hw := eq_or_ne whole []
      · show Unsigned (('.' :: part) ++ behind)
        exact .mk (.fraction ⟨fun hp => hsome ⟨rfl, hp⟩, hpart⟩) hexp
      · rw [← List.cons_append, ← List.append_assoc]
        exact .mk (.point ⟨hw, hwhole⟩ hpart) hexp
    · obtain ⟨hsome, hexp⟩ := (isSome_float?_of_span hspan hfraction).1 h
      exact .mk (.whole ⟨fun hw => hsome ⟨hw, rfl⟩, hwhole⟩) hexp
  -- The longest run of digits is all of the first part: a point or the mark of an exponent ends it.
  · rintro ⟨hm, hx⟩
    cases hm with
    | whole hrun =>
      exact (isSome_float?_of_span (span_isDigit hrun.isDigit hx.not_digit) hx.fraction_eq).2
        ⟨fun h => hrun.ne_nil h.1, hx⟩
    | point hrun hpart =>
      rw [List.append_assoc, List.cons_append]
      refine (isSome_float?_of_span (span_isDigit hrun.isDigit ?_) (fraction_append hpart hx)).2
        ⟨fun h => hrun.ne_nil h.1, hx⟩
      simpa using not_digit_point
    | fraction hrun =>
      have hnone : ∀ c ∈ ([] : List Char), digitValue c < 10 := by simp
      rw [List.cons_append]
      refine (isSome_float?_of_span (span_isDigit hnone ?_)
        (fraction_append hrun.isDigit hx)).2 ⟨fun h => hrun.ne_nil h.2, hx⟩
      simpa using not_digit_point

/-! ### Decimal numerals -/

/-- An unsigned numeral starts with a digit or a point. -/
theorem Unsigned.head_cases (h : Unsigned body) :
    ∃ c rest, body = c :: rest ∧ (digitValue c < 10 ∨ c = '.') := by
  obtain ⟨hm, -⟩ := h
  cases hm with
  | whole hrun =>
    obtain ⟨c, rest, rfl, hc⟩ := hrun.exists_cons
    exact ⟨c, _, rfl, .inl hc⟩
  | point hrun _ =>
    obtain ⟨c, rest, rfl, hc⟩ := hrun.exists_cons
    exact ⟨c, _, rfl, .inl hc⟩
  | fraction _ => exact ⟨'.', _, rfl, .inr rfl⟩

theorem Unsigned.noSign (h : Unsigned body) : NoSign body := by
  obtain ⟨c, rest, rfl, hc | rfl⟩ := h.head_cases
  · exact noSign_of_digit hc
  · exact ⟨by simp, by simp⟩

theorem decimal_iff : Decimal t ↔ Unsigned (sign t).2 := by
  constructor
  · rintro ⟨hsg, hbody⟩
    rwa [sign_append hsg hbody.noSign]
  · intro h
    obtain ⟨sg, hsg, ht⟩ := exists_sign t
    rw [ht]
    exact .mk hsg h

theorem whole_iff : Whole negative ds t ↔ sign t = (negative, ds) ∧ IsRun 10 ds := by
  constructor
  · rintro ⟨hsg, hrun⟩
    exact ⟨sign_append hsg (noSign_of_isRun hrun), hrun⟩
  · rintro ⟨hsign, hrun⟩
    obtain ⟨sg, hsg, ht⟩ := exists_sign t
    rw [hsign] at hsg ht
    rw [ht]
    exact .mk hsg hrun

theorem Whole.decimal (h : Whole negative ds t) : Decimal t := by
  obtain ⟨hsg, hrun⟩ := h
  simpa using Decimal.mk hsg (.mk (.whole hrun) .none)

theorem int?_of_sign {n : Int64} (hsign : sign t = (negative, ds)) :
    int? t = some n ↔ IsRun 10 ds ∧ n.toInt = signed negative (value 10 ds) := by
  rw [int?, hsign, signed]
  dsimp only
  by_cases hrun : IsRun 10 ds
  · rw [if_pos (isRun_iff.1 hrun), Text.decimalValue_eq hrun.isDigit]
    generalize (if negative = true then -(value 10 ds : Int) else value 10 ds) = v
    have hlow := n.le_toInt
    have hhigh := n.toInt_lt
    constructor
    · intro h
      split at h
      case isTrue hrange =>
        obtain rfl := Option.some.inj h
        exact ⟨hrun, Int64.toInt_ofInt_of_le hrange.1 hrange.2⟩
      case isFalse => exact absurd h (by simp)
    · rintro ⟨-, hn⟩
      rw [← hn, if_pos ⟨hlow, hhigh⟩, Int64.ofInt_toInt]
  · rw [if_neg fun h => hrun (isRun_iff.2 h)]
    simp [hrun]

/-- A text is read as an integer if it is a run of digits behind a sign whose value fits. -/
theorem int?_eq_some_iff {n : Int64} :
    int? t = some n ↔
      ∃ negative ds, Whole negative ds t ∧ n.toInt = signed negative (value 10 ds) := by
  simp only [whole_iff, int?_of_sign (n := n) (Prod.mk.eta (p := sign t)).symm]
  constructor
  · rintro ⟨hrun, hn⟩
    exact ⟨_, _, ⟨rfl, hrun⟩, hn⟩
  · rintro ⟨negative, ds, ⟨hsign, hrun⟩, hn⟩
    rw [hsign]
    exact ⟨hrun, hn⟩

/-! ### Characters -/

theorem isDecimalChar_iff :
    isDecimalChar c = true ↔
      digitValue c < 10 ∨ c = '.' ∨ c = 'e' ∨ c = 'E' ∨ c = '+' ∨ c = '-' := by
  simp only [isDecimalChar, Bool.or_eq_true, isDigit_iff, beq_iff_eq, or_assoc]

theorem Sign.isDecimalChar_of_mem (h : Sign negative sg) (hc : c ∈ sg) :
    isDecimalChar c = true := by
  cases h <;> simp_all [isDecimalChar_iff]

theorem Mantissa.isDecimalChar_of_mem (h : Mantissa cs) (hc : c ∈ cs) : isDecimalChar c = true := by
  rw [isDecimalChar_iff]
  cases h with
  | whole hrun => exact .inl (hrun.isDigit c hc)
  | point hrun hpart =>
    obtain hc | hc := List.mem_append.1 hc
    · exact .inl (hrun.isDigit c hc)
    · obtain rfl | hc := List.mem_cons.1 hc
      · exact .inr (.inl rfl)
      · exact .inl (hpart c hc)
  | fraction hrun =>
    obtain rfl | hc := List.mem_cons.1 hc
    · exact .inr (.inl rfl)
    · exact .inl (hrun.isDigit c hc)

theorem Exponent.isDecimalChar_of_mem (h : Exponent cs) (hc : c ∈ cs) : isDecimalChar c = true := by
  cases h with
  | none => exact absurd hc List.not_mem_nil
  | some hmark hsg hrun =>
    obtain rfl | hc := List.mem_cons.1 hc
    · rw [isDecimalChar_iff]
      obtain rfl | rfl := hmark <;> simp
    · obtain hc | hc := List.mem_append.1 hc
      · exact hsg.isDecimalChar_of_mem hc
      · exact isDecimalChar_iff.2 (.inl (hrun.isDigit c hc))

theorem Unsigned.isDecimalChar_of_mem (h : Unsigned body) (hc : c ∈ body) :
    isDecimalChar c = true := by
  obtain ⟨hm, hx⟩ := h
  obtain hc | hc := List.mem_append.1 hc
  · exact hm.isDecimalChar_of_mem hc
  · exact hx.isDecimalChar_of_mem hc

theorem Unsigned.all_isDecimalChar (h : Unsigned body) : body.all isDecimalChar = true :=
  List.all_eq_true.2 fun _ => h.isDecimalChar_of_mem

theorem Decimal.isDecimalChar_of_mem (h : Decimal t) (hc : c ∈ t) : isDecimalChar c = true := by
  obtain ⟨hsg, hbody⟩ := h
  obtain hc | hc := List.mem_append.1 hc
  · exact hsg.isDecimalChar_of_mem hc
  · exact hbody.isDecimalChar_of_mem hc

/-- No name of a float passes as a decimal numeral. -/
theorem named?_eq_none (h : body.all isDecimalChar = true) : named? negative body = none := by
  have hletter (c : Char) (hc : isDecimalChar c = true) : c.toLower ≠ 'i' ∧ c.toLower ≠ 'n' := by
    obtain hdigit | hother := isDecimalChar_iff.1 hc
    · rw [Text.digitValue] at hdigit
      constructor <;>
      · intro h
        rw [h] at hdigit
        exact absurd hdigit (by decide +kernel)
    · obtain rfl | rfl | rfl | rfl | rfl := hother <;> decide
  cases body with
  | nil => rfl
  | cons c cs =>
    obtain ⟨hi, hn⟩ := hletter c (List.all_eq_true.1 h c List.mem_cons_self)
    unfold named?
    split <;> simp_all

theorem isSome_double?_iff (h : (sign t).2.all isDecimalChar = true) :
    (double? t).isSome ↔ Decimal t := by
  rw [decimal_iff, ← isSome_float?_iff (sign t).1, double?]
  dsimp only
  rw [named?_eq_none h]
  cases float? (sign t).1 (sign t).2 <;> simp

end LuaBytecode.Numeral
