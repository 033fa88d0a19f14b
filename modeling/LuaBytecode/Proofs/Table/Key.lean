import LuaBytecode.Proofs.Double.Units
import LuaBytecode.Table.Key

/-!
# Keys and raw equality

A key is a canonical form of raw equality: `Key.rawEq_iff` says that a value which indexes a
table is raw-equal to exactly the values with the same key.  Nil and NaN are the only values
without one (`Key.ofValue?_eq_none_iff`).

`Key.IsNormal` holds of the keys that values have: of the floats only those without an exact
integer value.
-/

namespace LuaBytecode

/-- A value that can index a table: neither nil nor NaN. -/
def Value.IsIndex : Value → Prop
  | .nil => False
  | .number n => n.isNaN = false
  | _ => True

instance : DecidablePred Value.IsIndex
  | .nil => isFalse id
  | .number n => inferInstanceAs (Decidable (n.isNaN = false))
  | .bool _ | .string _ | .table _ | .function _ => isTrue trivial

namespace Key

variable {a b v : Value} {k : Key}

@[simp] theorem ofValue?_nil : ofValue? .nil = none := rfl

@[simp] theorem ofValue?_bool (b : Bool) : ofValue? (.bool b) = some (bool b) := rfl

@[simp] theorem ofValue?_int (n : Int64) : ofValue? (.int n) = some (int n) := rfl

@[simp] theorem ofValue?_string (s : String) : ofValue? (.string s) = some (string s) := rfl

@[simp] theorem ofValue?_table (t : TableRef) : ofValue? (.table t) = some (table t) := rfl

@[simp] theorem ofValue?_function (f : FunctionRef) : ofValue? (.function f) = some (function f) :=
  rfl

theorem ofValue?_float_of_toInt? {x : Double} {n : Int64} (h : x.toInt? = some n) :
    ofValue? (.float x) = some (int n) := by
  simp only [ofValue?, h]

theorem ofValue?_float_of_isNaN {x : Double} (h : x.isNaN = true) :
    ofValue? (.float x) = none := by
  cases hi : x.toInt? with
  | none => simp only [ofValue?, hi, h, if_true]
  | some n => exact absurd (Double.isNaN_of_toInt? hi) (by simp [h])

theorem ofValue?_float_of_toInt?_eq_none {x : Double} (h : x.toInt? = none)
    (hn : x.isNaN = false) : ofValue? (.float x) = some (float x) := by
  simp only [ofValue?, h, hn, Bool.false_eq_true, if_false]

/-- The key of a float is that of the integer with the same value, or the float itself. -/
theorem ofValue?_float_cases (x : Double) :
    (∃ n, x.toInt? = some n ∧ ofValue? (.float x) = some (int n)) ∨
    (x.toInt? = none ∧ x.isNaN = false ∧ ofValue? (.float x) = some (float x)) ∨
    (x.isNaN = true ∧ ofValue? (.float x) = none) := by
  cases hi : x.toInt? with
  | some n => exact .inl ⟨n, rfl, ofValue?_float_of_toInt? hi⟩
  | none =>
    cases hn : x.isNaN with
    | false => exact .inr (.inl ⟨rfl, rfl, ofValue?_float_of_toInt?_eq_none hi hn⟩)
    | true => exact .inr (.inr ⟨rfl, ofValue?_float_of_isNaN hn⟩)

/-- Exactly the values that can index a table have a key. -/
theorem isSome_ofValue?_iff : (ofValue? v).isSome ↔ v.IsIndex := by
  cases v with
  | number n =>
    cases n with
    | int n => simp [Value.IsIndex, Number.isNaN]
    | float x =>
      simp only [Value.IsIndex, Number.isNaN]
      obtain ⟨n, hi, hk⟩ | ⟨-, hn, hk⟩ | ⟨hn, hk⟩ := ofValue?_float_cases x
      · simp [hk, Double.isNaN_of_toInt? hi]
      · simp [hk, hn]
      · simp [hk, hn]
  | _ => simp [Value.IsIndex]

theorem ofValue?_eq_none_iff : ofValue? v = none ↔ ¬ v.IsIndex := by
  rw [← isSome_ofValue?_iff, Bool.not_eq_true, Option.isSome_eq_false_iff,
    Option.isNone_iff_eq_none]

/-- Apart from nil, only NaN has no key. -/
theorem ofValue?_eq_none_iff_isNaN (hv : v ≠ .nil) :
    ofValue? v = none ↔ ∃ x : Double, v = .float x ∧ x.isNaN = true := by
  rw [ofValue?_eq_none_iff]
  cases v with
  | number n => cases n <;> simp [Value.IsIndex, Number.isNaN]
  | nil => exact absurd rfl hv
  | _ => simp [Value.IsIndex]

theorem exists_key (h : v.IsIndex) : ∃ k, ofValue? v = some k :=
  Option.isSome_iff_exists.1 (isSome_ofValue?_iff.2 h)

/-! ### Raw equality -/

/-- Floats are equal if they are the same integer, or no integers and the same float. -/
theorem eq_float_iff {x : Double} (hx : x.isNaN = false) (y : Double) :
    x.eq y = true ↔ ofValue? (.float y) = ofValue? (.float x) := by
  obtain ⟨n, hi, hk⟩ | ⟨hi, -, hk⟩ | ⟨hn, -⟩ := ofValue?_float_cases x
  · rw [hk]
    constructor
    · exact fun h => ofValue?_float_of_toInt? (Double.toInt?_eq_of_eq h ▸ hi)
    · intro h
      obtain ⟨m, hj, hk'⟩ | ⟨-, -, hk'⟩ | ⟨-, hk'⟩ := ofValue?_float_cases y
      · obtain rfl : m = n := by simpa [hk'] using h
        exact Double.eq_of_toInt? hi hj
      · exact absurd h (by simp [hk'])
      · exact absurd h (by simp [hk'])
  · rw [hk, Double.eq_iff_of_toInt?_eq_none hi hx]
    constructor
    · rintro rfl
      exact hk
    · intro h
      obtain ⟨m, -, hk'⟩ | ⟨-, -, hk'⟩ | ⟨-, hk'⟩ := ofValue?_float_cases y
      · exact absurd h (by simp [hk'])
      · simpa [hk', eq_comm] using h
      · exact absurd h (by simp [hk'])
  · exact absurd hx (by simp [hn])

theorem rawEq_float_iff {x : Double} (hx : x.isNaN = false) (b : Value) :
    (Value.float x).rawEq b = true ↔ ofValue? b = ofValue? (.float x) := by
  cases b with
  | number m =>
    cases m with
    | float y => exact eq_float_iff hx y
    | int m =>
      obtain ⟨n, hi, hk⟩ | ⟨hi, -, hk⟩ | ⟨hn, -⟩ := ofValue?_float_cases x
      · simp only [Value.rawEq, Number.eq, hi, hk, ofValue?_int, beq_iff_eq, Option.some.injEq,
          int.injEq]
        exact eq_comm
      · simp [Value.rawEq, Number.eq, hi, hk]
      · exact absurd hx (by simp [hn])
  | _ =>
    -- a float has a key of another kind
    obtain ⟨n, -, hk⟩ | ⟨-, -, hk⟩ | ⟨hn, -⟩ := ofValue?_float_cases x
    · simp [Value.rawEq, hk]
    · simp [Value.rawEq, hk]
    · exact absurd hx (by simp [hn])

/-- **Keys are canonical**: a value that can index a table is raw-equal to those with its key. -/
theorem rawEq_iff (ha : a.IsIndex) : a.rawEq b = true ↔ ofValue? b = ofValue? a := by
  cases a with
  | nil => exact absurd ha (by simp [Value.IsIndex])
  | number n =>
    cases n with
    | float x => exact rawEq_float_iff ha b
    | int n =>
      cases b with
      | number m =>
        cases m with
        | int m =>
          simp only [Value.rawEq, Number.eq, ofValue?_int, beq_iff_eq, Option.some.injEq, int.injEq]
          exact eq_comm
        | float y =>
          simp only [Value.rawEq, Number.eq]
          obtain ⟨m, hj, hk⟩ | ⟨hj, -, hk⟩ | ⟨hn, hk⟩ := ofValue?_float_cases y
          · simp [hj, hk]
          · simp [hj, hk]
          · -- an integer equals no NaN
            have hj : y.toInt? = none := by
              cases hj : y.toInt? with
              | none => rfl
              | some m => exact absurd (Double.isNaN_of_toInt? hj) (by simp [hn])
            simp [hj, hk]
      | _ => simp [Value.rawEq]
  | _ =>
    cases b with
    | number m =>
      cases m with
      | int m => simp [Value.rawEq]
      | float y =>
        obtain ⟨m, -, hk⟩ | ⟨-, -, hk⟩ | ⟨-, hk⟩ := ofValue?_float_cases y <;>
          simp [Value.rawEq, hk]
    | _ => simp [Value.rawEq, eq_comm]

/-! ### Normal keys -/

/-- A key that a value has: a float only if no integer has its value, and no NaN. -/
def IsNormal : Key → Prop
  | float x => x.toInt? = none ∧ x.isNaN = false
  | _ => True

theorem isNormal_of_ofValue? (h : ofValue? v = some k) : k.IsNormal := by
  cases v with
  | number n =>
    cases n with
    | int n =>
      obtain rfl := Option.some.inj h
      trivial
    | float x =>
      obtain ⟨n, -, hk⟩ | ⟨hi, hn, hk⟩ | ⟨-, hk⟩ := ofValue?_float_cases x
      · obtain rfl := Option.some.inj (hk.symm.trans h)
        trivial
      · obtain rfl := Option.some.inj (hk.symm.trans h)
        exact ⟨hi, hn⟩
      · exact absurd (hk.symm.trans h) (by simp)
  | nil => exact absurd h (by simp)
  | _ =>
    obtain rfl := Option.some.inj h
    trivial

theorem ofValue?_toValue (h : k.IsNormal) : ofValue? k.toValue = some k := by
  cases k with
  | float x => exact ofValue?_float_of_toInt?_eq_none h.1 h.2
  | _ => rfl

/-! ### Integers near the array part -/

/-- An integer from 1 to `n`. -/
def IsWithin (n : Nat) : Key → Prop
  | int i => 1 ≤ i.toInt ∧ i.toInt ≤ n
  | _ => False

instance (n : Nat) : DecidablePred (IsWithin n)
  | int i => inferInstanceAs (Decidable (1 ≤ i.toInt ∧ i.toInt ≤ n))
  | bool _ | float _ | string _ | table _ | function _ => isFalse id

theorem IsWithin.mono {m n : Nat} (h : k.IsWithin m) (hmn : m ≤ n) : k.IsWithin n := by
  cases k with
  | int i => exact ⟨h.1, h.2.trans (by omega)⟩
  | _ => exact h

theorem not_isWithin_zero : ¬ k.IsWithin 0 := by
  cases k with
  | int i =>
    rintro ⟨h1, h2⟩
    omega
  | _ => exact id

end Key

end LuaBytecode
