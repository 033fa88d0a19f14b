import LuaBytecode.Proofs.Number.Order
import LuaBytecode.Proofs.Table.Key

/-!
# Keys as canonical forms

Raw equality compares numbers by their exact values; keys compare floats by their words.  Both agree
because the key of a float is that of an integer whenever the float has the value of one, and a
value that no integer has belongs to one word only, unless it is a NaN.

* `Double.toInt?_eq_some_iff_value?` : the integer of a double is the one with the same exact value.
* `Value.rawEq_equivalence` : raw equality is an equivalence where values have keys.
* `Key.canonical_form` : keys are canonical forms of raw equality.
-/

namespace LuaBytecode

/-- A number has the value of another one exactly if they have the same units. -/
theorem Number.value?_eq_iff {a b : Number} (ha : a.isNaN = false) (hb : b.isNaN = false) :
    a.value? = b.value? ↔ a.units = b.units := by
  obtain ⟨u, hu, v, hv, -, -, heq⟩ := Number.exists_values ha hb
  rw [hu, hv, Option.some.injEq, heq]

/-- An integer in the range of 64 bits is found exactly if the double has its value. -/
theorem Double.toInt?_eq_some_iff_value? {x : Double} {n : Int64} :
    x.toInt? = some n ↔ x.value? = (Number.int n).value? := by
  cases hnan : x.isNaN with
  | true =>
    -- a NaN has neither an integer nor a value
    have hvalue : x.value? = none := by rw [Double.value?, hnan, if_pos rfl]
    rw [hvalue]
    constructor
    · intro h
      exact absurd (Double.isNaN_of_toInt? h) (by simp [hnan])
    · exact fun h => absurd h.symm (by simp [Number.value?])
  | false =>
    have hunits : x.value? = (Number.int n).value? ↔ x.units = n.toInt * Double.one :=
      Number.value?_eq_iff (a := .float x) hnan rfl
    rw [hunits, Double.toInt?_eq_some_iff, hnan]
    constructor
    · exact fun h => h.2.2
    · intro h
      refine ⟨rfl, ?_, h⟩
      -- an infinity is larger than all integers
      have hlt : x.units.natAbs < Double.topUnits.natAbs :=
        (congrArg Int.natAbs h).trans_lt (Number.natAbs_units_int_lt n)
      rw [← Bool.not_eq_true, Double.isInfinite_iff]
      omega

/-- Raw equality is an equivalence on the values that can index a table. -/
theorem Value.rawEq_equivalence :
    Equivalence fun a b : {v : Value // v.IsIndex} => a.1.rawEq b.1 = true where
  refl a := (Key.rawEq_iff a.2).2 rfl
  symm {a b} h := (Key.rawEq_iff b.2).2 ((Key.rawEq_iff a.2).1 h).symm
  trans {a b _} h h' :=
    (Key.rawEq_iff a.2).2 (((Key.rawEq_iff b.2).1 h').trans ((Key.rawEq_iff a.2).1 h))

namespace Key

/-- The value that a key stands for has that key, and is raw-equal to all values that have it. -/
theorem rawEq_toValue {v : Value} {k : Key} (h : ofValue? v = some k) :
    ofValue? k.toValue = some k ∧ k.toValue.rawEq v = true := by
  have hk : ofValue? k.toValue = some k := ofValue?_toValue (isNormal_of_ofValue? h)
  have hindex : k.toValue.IsIndex := isSome_ofValue?_iff.1 (hk ▸ rfl)
  exact ⟨hk, (rawEq_iff hindex).2 (h.trans hk.symm)⟩

/-- **Keys are canonical forms of raw equality.**  All values but nil and NaN have a key; two of
them have the same key exactly if they are raw-equal, which is an equivalence.  The value that a key
stands for has this key, and is raw-equal to every value that has it; it is an integer for every
float with the exact value of a 64-bit integer. -/
theorem canonical_form :
    (∀ a b : Value, a.IsIndex → b.IsIndex → (ofValue? a = ofValue? b ↔ a.rawEq b = true)) ∧
    (∀ v, ofValue? v = none ↔ v = .nil ∨ ∃ x : Double, v = .float x ∧ x.isNaN = true) ∧
    (∀ a : Value, a.IsIndex ↔ a ≠ .nil ∧ ∀ x : Double, a = .float x → x.isNaN = false) ∧
    (∀ a : Value, a.IsIndex → ∃ k, ofValue? a = some k ∧ k.toValue.rawEq a = true) ∧
    (∀ (x : Double) (n : Int64), x.value? = (Number.int n).value? →
      ∃ k, ofValue? (.float x) = some k ∧ k.toValue = .int n) ∧
    (∀ v k, ofValue? v = some k → ofValue? k.toValue = some k) ∧
    Equivalence fun a b : {v : Value // v.IsIndex} => a.1.rawEq b.1 = true := by
  refine ⟨fun a b ha _ => ?_, fun v => ?_, fun a => ?_, fun a ha => ?_, fun x n h => ?_,
    fun v k h => (rawEq_toValue h).1, Value.rawEq_equivalence⟩
  · rw [rawEq_iff ha]
    exact eq_comm
  · by_cases hv : v = .nil
    · simp [hv]
    · rw [ofValue?_eq_none_iff_isNaN hv, or_iff_right hv]
  · cases a with
    | number n => cases n <;> simp [Value.IsIndex, Number.isNaN]
    | _ => simp [Value.IsIndex]
  · obtain ⟨k, hk⟩ := exists_key ha
    exact ⟨k, hk, (rawEq_toValue hk).2⟩
  · exact ⟨int n, ofValue?_float_of_toInt? (Double.toInt?_eq_some_iff_value?.2 h), rfl⟩

-- The float at the end of the integers is none of them; the one at their beginning is.
example : ofValue? (.float .beyondInt) = some (float .beyondInt) ∧
    ofValue? (.float Double.beyondInt.neg) = some (int Int64.minValue) ∧
    ofValue? (.float (.zero true)) = some (int 0) := by
  decide +kernel

end Key

end LuaBytecode
