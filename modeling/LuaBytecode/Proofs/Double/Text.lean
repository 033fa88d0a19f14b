import LuaBytecode.Proofs.Double.Decimal
import LuaBytecode.Proofs.Double.Value
import LuaBytecode.Proofs.Number.Numeral

/-!
# Reading the text of a float

The text of a finite float is a decimal numeral with a point or an exponent, in whichever style it
is laid out, so it is not read as an integer.  What is read is the double nearest to the digits that
were written.  An integral value of at most fourteen digits is written in full, with a zero behind
the point, and is the one that comes back.

* `Text.value_decimalDigits`, `decimalDigits_mul_pow` : the digits of a number.
* `Double.FloatText`, `Double.floatText_magnitudeText` : the grammar of the texts of floats.
* `Number.ofText?_of_floatText` : a text of this grammar is read as a float, with its sign.
* `Double.magnitudeText_mul_one` : the texts of integral values.
* `Double.ofText?_text` : **what the text of a float is read as**.
-/

namespace LuaBytecode

open Text (digitValue value IsRun)

variable {c : Char} {count k n : Nat} {ds part whole t : List Char}

/-! ### Digits -/

namespace Text

theorem digitValue_digitChar {d : Nat} (h : d < 10) : digitValue (Nat.digitChar d) = d := by
  have hall : ∀ d < 10, digitValue (Nat.digitChar d) = d := by decide +kernel
  exact hall d h

theorem length_decimalDigits (count n : Nat) : (decimalDigits count n).length = count := by
  induction count generalizing n with
  | zero => rfl
  | succ count ih => rw [decimalDigits, List.length_append, ih, List.length_singleton]

theorem isDigit_decimalDigits (count n : Nat) : ∀ c ∈ decimalDigits count n, digitValue c < 10 := by
  induction count generalizing n with
  | zero => exact fun c hc => absurd hc List.not_mem_nil
  | succ count ih =>
    intro c hc
    obtain hc | hc := List.mem_append.1 hc
    · exact ih (n / 10) c hc
    · have hlast : n % 10 < 10 := Nat.mod_lt n (by decide)
      rw [List.mem_singleton.1 hc, digitValue_digitChar hlast]
      exact hlast

theorem value_decimalDigits (count n : Nat) :
    value 10 (decimalDigits count n) = n % Nat.pow 10 count := by
  induction count generalizing n with
  | zero => exact (Nat.mod_one n).symm
  | succ count ih =>
    have hpow : Nat.pow 10 (count + 1) = 10 * Nat.pow 10 count := Nat.mul_comm _ _
    rw [decimalDigits, value_append_singleton, ih, digitValue_digitChar (Nat.mod_lt n (by decide)),
      hpow, Nat.mod_mul, Nat.mul_comm, Nat.add_comm]

/-- Zeros are appended. -/
theorem decimalDigits_mul_pow (count n k : Nat) :
    decimalDigits (count + k) (n * Nat.pow 10 k) =
      decimalDigits count n ++ List.replicate k '0' := by
  induction k with
  | zero =>
    rw [List.replicate_zero, List.append_nil]
    exact congrArg _ (Nat.mul_one n)
  | succ k ih =>
    have hpow : n * Nat.pow 10 (k + 1) = n * Nat.pow 10 k * 10 := (Nat.mul_assoc _ _ _).symm
    rw [← Nat.add_assoc, decimalDigits, hpow, Nat.mul_div_cancel _ (by decide), Nat.mul_mod_left,
      ih, List.append_assoc, List.replicate_succ']
    rfl

/-- The number of digits bounds the value. -/
theorem lt_pow_decimalLength (n : Nat) : n < Nat.pow 10 (decimalLength n) := by
  obtain ⟨hrun, hvalue⟩ := Number.toDigits_spec n
  have hdigits : ∀ d ∈ (Nat.toDigits 10 n).reverse.map digitValue, d < 10 := by
    simpa using hrun.isDigit
  have hlt := Nat.ofDigits_lt_base_pow_length (by decide) hdigits
  rw [← value, hvalue, List.length_map, List.length_reverse] at hlt
  exact hlt

end Text

open Numeral

namespace Double

/-! ### The grammar of the text -/

/-- An unsigned decimal numeral with a point or an exponent. -/
structure FloatText (t : List Char) : Prop where
  unsigned : Unsigned t
  not_isRun : ¬ IsRun 10 t

theorem isRun_zero : IsRun 10 ['0'] := by decide +kernel

theorem mem_of_mem_trimZeros (hc : c ∈ trimZeros ds) : c ∈ ds :=
  List.mem_reverse.1 ((List.dropWhile_sublist _).subset (List.mem_reverse.1 hc))

theorem trimZeros_replicate (k : Nat) : trimZeros (List.replicate k '0') = [] := by
  have hall : ∀ c ∈ List.replicate k '0', decide (c = '0') = true := fun c hc =>
    decide_eq_true (List.eq_of_mem_replicate hc)
  rw [trimZeros, List.reverse_replicate, List.dropWhile_eq_nil_iff.2 hall, List.reverse_nil]

theorem fractionText_cases (hds : ∀ c ∈ ds, digitValue c < 10) :
    fractionText ds = [] ∨
      ∃ part, fractionText ds = '.' :: part ∧ ∀ c ∈ part, digitValue c < 10 := by
  rw [fractionText]
  cases htrim : trimZeros ds with
  | nil => exact .inl rfl
  | cons c part =>
    exact .inr ⟨c :: part, rfl, fun d hd => hds d (mem_of_mem_trimZeros (htrim ▸ hd))⟩

theorem exponent_exponentText (e : Int) : Exponent ('e' :: exponentText e) := by
  obtain ⟨hrun, -⟩ := Number.toDigits_spec e.natAbs
  have hdigits : IsRun 10 (if e.natAbs < 10 then '0' :: Nat.toDigits 10 e.natAbs
      else Nat.toDigits 10 e.natAbs) := by
    split
    · refine ⟨List.cons_ne_nil _ _, fun c hc => ?_⟩
      obtain rfl | hc := List.mem_cons.1 hc
      · decide +kernel
      · exact hrun.isDigit c hc
    · exact hrun
  rw [exponentText]
  split
  · exact .some (.inl rfl) .minus hdigits
  · exact .some (.inl rfl) .plus hdigits

/-- A point is no digit, and neither is the mark of an exponent. -/
theorem not_isRun_of_mem (hc : c ∈ t) (hmark : c = '.' ∨ c = 'e') : ¬ IsRun 10 t := by
  intro hrun
  have hdigit := hrun.isDigit c hc
  obtain rfl | rfl := hmark <;> exact absurd hdigit (by decide +kernel)

theorem floatText_point (hwhole : IsRun 10 whole) (hpart : ∀ c ∈ part, digitValue c < 10) :
    FloatText (whole ++ '.' :: part) where
  unsigned := by simpa using Unsigned.mk (.point hwhole hpart) .none
  not_isRun := not_isRun_of_mem (c := '.') (by simp) (.inl rfl)

theorem floatText_scientificText (hds : IsRun 10 ds) (e : Int) :
    FloatText (scientificText ds e) := by
  have hfirst : IsRun 10 (ds.take 1) := by
    obtain ⟨c, rest, rfl, hc⟩ := hds.exists_cons
    exact ⟨by simp, by simpa using hc⟩
  have hmantissa : Mantissa (ds.take 1 ++ fractionText (ds.drop 1)) := by
    obtain hnone | ⟨part, hpart, hdigits⟩ :=
      fractionText_cases fun c hc => hds.isDigit c (List.mem_of_mem_drop hc)
    · rw [hnone, List.append_nil]
      exact .whole hfirst
    · rw [hpart]
      exact .point hfirst hdigits
  refine ⟨.mk hmantissa (exponent_exponentText e), ?_⟩
  exact not_isRun_of_mem (c := 'e') (by simp [scientificText]) (.inr rfl)

/-- A fraction behind its point, with a zero if it has no other digit. -/
def pointText (ds : List Char) : List Char :=
  if (fractionText ds).isEmpty then ['.', '0'] else fractionText ds

theorem positionalText_eq (ds : List Char) (e : Int) :
    positionalText ds e =
      if 0 ≤ e then ds.take (e.toNat + 1) ++ pointText (ds.drop (e.toNat + 1))
      else ['0'] ++ pointText (List.replicate (e.natAbs - 1) '0' ++ ds) := by
  rw [positionalText, pointText, pointText]
  by_cases he : 0 ≤ e
  · simp only [if_pos he]
    cases fractionText (ds.drop (e.toNat + 1)) <;> rfl
  · simp only [if_neg he]
    cases fractionText (List.replicate (e.natAbs - 1) '0' ++ ds) <;> rfl

theorem exists_pointText (hds : ∀ c ∈ ds, digitValue c < 10) :
    ∃ part, pointText ds = '.' :: part ∧ ∀ c ∈ part, digitValue c < 10 := by
  obtain hnone | ⟨part, hpart, hdigits⟩ := fractionText_cases hds
  · refine ⟨['0'], ?_, isRun_zero.isDigit⟩
    rw [pointText, hnone]
    rfl
  · refine ⟨part, ?_, hdigits⟩
    rw [pointText, hpart]
    rfl

theorem floatText_positionalText (hds : IsRun 10 ds) (e : Int) :
    FloatText (positionalText ds e) := by
  have happend {whole fraction : List Char} (hwhole : IsRun 10 whole)
      (hfraction : ∀ c ∈ fraction, digitValue c < 10) :
      FloatText (whole ++ pointText fraction) := by
    obtain ⟨part, hpart, hdigits⟩ := exists_pointText hfraction
    rw [hpart]
    exact floatText_point hwhole hdigits
  rw [positionalText_eq]
  split
  · obtain ⟨c, rest, rfl, hc⟩ := hds.exists_cons
    exact happend ⟨List.cons_ne_nil _ _, fun d hd => hds.isDigit d (List.mem_of_mem_take hd)⟩
      fun d hd => hds.isDigit d (List.mem_of_mem_drop hd)
  · refine happend isRun_zero fun c hc => ?_
    obtain hc | hc := List.mem_append.1 hc
    · rw [List.eq_of_mem_replicate hc]
      decide +kernel
    · exact hds.isDigit c hc

/-- In both styles the text of a finite float is a numeral of this kind. -/
theorem floatText_magnitudeText (u : Nat) : FloatText (magnitudeText u) := by
  have hds (n : Nat) : IsRun 10 (decimalDigits precision n) := by
    refine ⟨List.ne_nil_of_length_pos ?_, Text.isDigit_decimalDigits _ _⟩
    rw [Text.length_decimalDigits]
    decide
  rw [magnitudeText]
  dsimp only
  split
  · exact floatText_scientificText (hds _) _
  · exact floatText_positionalText (hds _) _

/-! ### Integral values -/

variable {m : Nat}

theorem decimalExponent_mul_one (hm : 0 < m) :
    decimalExponent (m * one) = (decimalLength m : Int) - 1 := by
  rw [decimalExponent, if_pos (Nat.le_mul_of_pos_left one hm), Nat.mul_div_cancel _ one_pos]

theorem scaled_mul_one (m k : Nat) : scaled (m * one) k = m * Nat.pow 10 k := by
  rw [scaled, if_pos (Int.natCast_nonneg k), Int.toNat_natCast, Nat.mul_right_comm,
    divRoundEven_of_dvd one_pos (Nat.dvd_mul_left _ _), Nat.mul_div_cancel _ one_pos]

/-- The digits of an integral value are its own, with zeros behind them. -/
theorem exists_significand_mul_one (hm : m < 100000000000000) :
    ∃ e ≤ 13, m < Nat.pow 10 (e + 1) ∧
      significand (m * one) = (m * Nat.pow 10 (13 - e), (e : Int)) := by
  obtain rfl | hpos := Nat.eq_zero_or_pos m
  · refine ⟨0, by decide, by decide, ?_⟩
    rw [Nat.zero_mul, Nat.zero_mul, significand, if_pos rfl]
    rfl
  have hlength : 0 < decimalLength m ∧ decimalLength m ≤ 14 :=
    ⟨List.length_pos_of_ne_nil (Number.toDigits_spec m).1.ne_nil,
      Nat.toDigits_length 10 m 14 (by decide) hm⟩
  obtain ⟨e, he⟩ : ∃ e, decimalLength m = e + 1 := ⟨decimalLength m - 1, by omega⟩
  have hlt : m < Nat.pow 10 (e + 1) := he ▸ Text.lt_pow_decimalLength m
  have hexponent : decimalExponent (m * one) = e := by
    rw [decimalExponent_mul_one hpos, he]
    omega
  have hshift : (precision : Int) - 1 - e = ((13 - e : Nat) : Int) := by
    rw [precision]
    omega
  -- Nothing is rounded away, so that no further digit comes up.
  have hcarry : m * Nat.pow 10 (13 - e) ≠ Nat.pow 10 precision := by
    have hsplit : Nat.pow 10 (e + 1) * Nat.pow 10 (13 - e) = Nat.pow 10 precision := by
      have hsum : e + 1 + (13 - e) = precision := by
        rw [precision]
        omega
      exact hsum ▸ (Nat.pow_add 10 (e + 1) (13 - e)).symm
    rw [← hsplit]
    exact Nat.ne_of_lt (Nat.mul_lt_mul_of_pos_right hlt (Nat.pow_pos (by decide)))
  refine ⟨e, by omega, hlt, ?_⟩
  rw [significand, if_neg (Nat.ne_of_gt (Nat.mul_pos hpos one_pos)), hexponent]
  dsimp only
  rw [hshift, scaled_mul_one, if_neg hcarry]

/-- The text of an integral value has all its digits, and a zero behind the point. -/
theorem magnitudeText_mul_one (hm : m < 100000000000000) :
    ∃ ds, IsRun 10 ds ∧ value 10 ds = m ∧ magnitudeText (m * one) = ds ++ '.' :: ['0'] := by
  obtain ⟨e, he, hlt, hsignificand⟩ := exists_significand_mul_one hm
  have hlength : (decimalDigits (e + 1) m).length = e + 1 := Text.length_decimalDigits _ _
  have hdigits : decimalDigits precision (m * Nat.pow 10 (13 - e)) =
      decimalDigits (e + 1) m ++ List.replicate (13 - e) '0' := by
    rw [← Text.decimalDigits_mul_pow]
    congr 1
    rw [precision]
    omega
  refine ⟨decimalDigits (e + 1) m, ⟨?_, Text.isDigit_decimalDigits _ _⟩, ?_, ?_⟩
  · exact List.ne_nil_of_length_pos (by omega)
  · rw [Text.value_decimalDigits, Nat.mod_eq_of_lt hlt]
  · have hpoint : pointText (List.replicate (13 - e) '0') = ['.', '0'] := by
      rw [pointText, fractionText, trimZeros_replicate]
      rfl
    have hplace : ¬ ((e : Int) < -4 ∨ (precision : Int) ≤ e) := by
      rw [precision]
      omega
    rw [magnitudeText, hsignificand]
    dsimp only
    rw [if_neg hplace, positionalText_eq, if_pos (Int.natCast_nonneg e), Int.toNat_natCast, hdigits,
      List.take_left' hlength, List.drop_left' hlength, hpoint]

end Double

/-! ### Reading -/

namespace Numeral

variable {negative : Bool} {body sg : List Char} {y : Double}

theorem isNegative_of_float? (h : float? negative t = some y) : y.isNegative = negative := by
  rw [float?] at h
  dsimp only at h
  split at h
  · exact absurd h (by simp)
  · obtain ⟨e, -, rfl⟩ := Option.map_eq_some_iff.1 h
    exact Double.isNegative_ofDecimal _ _ _

/-- Digits around a point. -/
theorem float?_point (hwhole : IsRun 10 whole) (hpart : ∀ c ∈ part, digitValue c < 10) :
    float? negative (whole ++ '.' :: part) =
      some (.ofDecimal negative (value 10 (whole ++ part)) (-part.length)) := by
  have hspan : (whole ++ '.' :: part).span isDigit = (whole, '.' :: part) :=
    span_isDigit hwhole.isDigit (by simpa using not_digit_point)
  have hfraction : fraction ('.' :: part) = (part, []) := by
    simpa using fraction_append hpart .none
  have hdigits : ∀ c ∈ whole ++ part, digitValue c < 10 := fun c hc =>
    (List.mem_append.1 hc).elim (hwhole.isDigit c) (hpart c)
  have hempty : ¬ (whole.isEmpty && part.isEmpty) = true := by
    simp [hwhole.ne_nil]
  rw [float?, hspan]
  dsimp only
  rw [hfraction]
  dsimp only
  rw [if_neg hempty, exponent?, Option.map_some, Text.decimalValue_eq hdigits, Int.zero_sub]

end Numeral

namespace Number

variable {negative : Bool} {body sg : List Char} {s : String}

/-- The text of a float is read as one. -/
theorem ofText?_of_floatText (hs : s.toList = sg ++ body) (hsg : Sign negative sg)
    (hbody : Double.FloatText body) :
    ∃ y, float? negative body = some y ∧ ofText? s = some (.float y) := by
  have hdecimal : Decimal (sg ++ body) := .mk hsg hbody.unsigned
  have hsign : sign (sg ++ body) = (negative, body) := sign_append hsg hbody.unsigned.noSign
  have htrim : Text.trim s.toList = sg ++ body :=
    hs ▸ Text.trim_eq_self fun c hc => isBlank_eq_false (.inr hdecimal) (hs ▸ hc)
  obtain ⟨y, hy⟩ := Option.isSome_iff_exists.1 ((isSome_float?_iff negative).2 hbody.unsigned)
  have hint : int? (sg ++ body) = none := by
    rw [Option.eq_none_iff_forall_ne_some]
    exact fun n hn => hbody.not_isRun ((int?_of_sign hsign).1 hn).1
  have hdouble : double? (sg ++ body) = some y := by
    rw [double?, hsign]
    dsimp only
    rw [hy]
    rfl
  refine ⟨y, hy, ?_⟩
  rw [ofText?_of_decimal (htrim ▸ hdecimal), htrim, decimal?, hint, hdouble]
  rfl

end Number

namespace Double

variable {x : Double}

/-- The text of a finite float is that of its magnitude, behind its sign. -/
theorem exists_toList_text (hnan : x.isNaN = false) (hinf : x.isInfinite = false) :
    ∃ sg, Sign x.isNegative sg ∧ x.text.toList = sg ++ magnitudeText x.units.natAbs := by
  have htext : x.text.toList = if x.isNegative then '-' :: magnitudeText x.units.natAbs
      else magnitudeText x.units.natAbs := by
    rw [text, String.toList_ofList, hnan, hinf]
    rfl
  rw [htext]
  cases x.isNegative with
  | true => exact ⟨['-'], .minus, rfl⟩
  | false => exact ⟨[], .none, rfl⟩

/-- An integral value in units. -/
theorem units_eq_of_finiteValue {m : ℤ} (h : x.finiteValue = m) : x.units = m * one := by
  have hone : ((one : ℕ) : ℚ) ≠ 0 := Nat.cast_ne_zero.2 (Nat.ne_of_gt one_pos)
  rw [finiteValue_eq, div_eq_iff hone] at h
  exact_mod_cast h

/-- **A float keeps its kind and its sign through its text**, and an integral value of at most
fourteen digits is kept altogether, a negative zero included. -/
theorem ofText?_text (hnan : x.isNaN = false) (hinf : x.isInfinite = false) :
    ∃ y, Number.ofText? x.text = some (.float y) ∧ y.isNegative = x.isNegative ∧
      ∀ m : ℤ, x.finiteValue = m → m.natAbs < 100000000000000 → y = x := by
  obtain ⟨sg, hsg, htext⟩ := exists_toList_text hnan hinf
  obtain ⟨y, hy, hread⟩ := Number.ofText?_of_floatText htext hsg (floatText_magnitudeText _)
  refine ⟨y, hread, isNegative_of_float? hy, fun m hm hlt => ?_⟩
  have hunits : x.units.natAbs = m.natAbs * one := by
    rw [← natAbs_mul_one, units_eq_of_finiteValue hm]
  obtain ⟨ds, hrun, hvalue, hdigits⟩ := magnitudeText_mul_one hlt
  rw [hunits, hdigits, float?_point hrun isRun_zero.isDigit, Text.value_append_singleton,
    hvalue] at hy
  rw [← Option.some.inj hy]
  exact ofDecimal_eq_self hunits (by omega) (k := 1) (by decide) (by decide)

theorem ofText?_text_zero_true :
    (zero true).isNaN = false ∧ (zero true).isInfinite = false ∧ (zero true).text = "-0.0" ∧
      Number.ofText? (zero true).text = some (.float (zero true)) := by
  have hnan : (zero true).isNaN = false := by decide
  have hinf : (zero true).isInfinite = false := by decide
  have hvalue : (zero true).finiteValue = (0 : ℤ) := by
    have hunits : (zero true).units = 0 := by decide
    rw [finiteValue_eq, hunits, Int.cast_zero, zero_div]
  obtain ⟨y, hread, -, hsame⟩ := ofText?_text hnan hinf
  rw [hsame 0 hvalue (by decide)] at hread
  exact ⟨hnan, hinf, by decide +kernel, hread⟩

end Double

end LuaBytecode
