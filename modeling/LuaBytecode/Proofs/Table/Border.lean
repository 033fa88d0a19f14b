import LuaBytecode.Proofs.Table.FiniteMap
import Mathlib.Data.Set.Card

/-!
# What the two parts of a table say about it

In a reachable table the size of the array part is a border, also when there are holes below it;
the fields are counted by the entries outside the array part; and a table without entries has two
empty parts.

* `Table.liveKeys` are the keys of all entries;
* `Table.reachable_shape` states the invariant of the two parts and what follows from it.
-/

namespace LuaBytecode

namespace Table

/-- The keys of the entries of a table: of the values that do not read as nil. -/
def liveKeys (t : Table) : Set Key := {k | ∃ key, Key.ofValue? key = some k ∧ t.get key ≠ .nil}

variable {t : Table} {k : Key}

/-! ### Entries -/

theorem mem_fields_iff (h : t.WellFormed) : k ∈ t.fields ↔ t.fields.getD k .nil ≠ .nil := by
  constructor
  · intro hk
    obtain ⟨v, hv⟩ := Option.isSome_iff_exists.1 (Std.TreeMap.mem_iff_isSome_getElem?.1 hk)
    rw [Std.TreeMap.getD_eq_getD_getElem?, hv, Option.getD_some]
    exact h.field_ne_nil k v hv
  · intro hk
    by_contra hmem
    exact hk (Std.TreeMap.getD_eq_fallback hmem)

/-- The fields are the entries outside the array part. -/
theorem mem_fields_iff_mem_liveKeys (h : t.WellFormed) :
    k ∈ t.fields ↔ k ∈ t.liveKeys ∧ ¬ k.IsWithin t.length := by
  constructor
  · intro hk
    have hout := h.field_outside k hk
    have hkey := Key.ofValue?_toValue (h.field_isNormal k hk)
    refine ⟨⟨k.toValue, hkey, ?_⟩, hout⟩
    rw [get_of_key hkey, getKey_of_not_isWithin hout]
    exact (mem_fields_iff h).1 hk
  · rintro ⟨⟨key, hkey, hlive⟩, hout⟩
    rw [get_of_key hkey, getKey_of_not_isWithin hout] at hlive
    exact (mem_fields_iff h).2 hlive

theorem encard_mem_fields (fields : Fields) : {k | k ∈ fields}.encard = fields.size := by
  have hnodup : fields.keys.Nodup := by
    refine fields.distinct_keys.imp fun hne heq => ?_
    exact hne (Std.LawfulEqCmp.compare_eq_iff_eq.2 heq)
  have hset : {k | k ∈ fields} = (fields.keys.toFinset : Set Key) := by
    ext k
    simp [Std.TreeMap.mem_keys]
  rw [hset, Set.encard_coe_eq_coe_finsetCard, List.toFinset_card_of_nodup hnodup,
    Std.TreeMap.length_keys]

/-- The number of fields is the number of entries outside the array part. -/
theorem encard_liveKeys (h : t.WellFormed) :
    {k ∈ t.liveKeys | ¬ k.IsWithin t.length}.encard = t.fieldCount := by
  have hset : {k ∈ t.liveKeys | ¬ k.IsWithin t.length} = {k | k ∈ t.fields} :=
    Set.ext fun k => (mem_fields_iff_mem_liveKeys h).symm
  rw [hset, fieldCount, encard_mem_fields]

/-! ### The border -/

theorem get_last_ne_nil (h : t.WellFormed) {i : Int64} (hi : 1 ≤ i.toInt)
    (hlast : i.toInt = t.length) : t.get (.int i) ≠ .nil := by
  rw [length] at hlast
  have hin : (Key.int i).IsWithin t.array.size := ⟨hi, by omega⟩
  rw [get_of_key (Key.ofValue?_int i), getKey_int_of_isWithin hin, Array.getD_eq_getD_getElem?]
  have hlt : i.toInt.toNat - 1 < t.array.size := by omega
  rw [Array.getElem?_eq_getElem hlt, Option.getD_some]
  apply h.back_ne_nil
  rw [Array.back?_eq_getElem?, ← Array.getElem?_eq_getElem hlt]
  congr 1
  omega

theorem get_past_eq_nil (h : t.WellFormed) {i : Int64} (hpast : i.toInt = t.length + 1) :
    t.get (.int i) = .nil := by
  have hfield : Key.int i ∉ t.fields := fun hmem =>
    h.field_beyond _ hmem (isWithin_succ_iff.2 (.inr ⟨i, rfl, hpast⟩))
  rw [get_of_key (Key.ofValue?_int i), getKey_of_not_isWithin (not_isWithin_of_toInt hpast)]
  exact Std.TreeMap.getD_eq_fallback hfield

theorem isEmpty_iff (h : t.WellFormed) : t.isEmpty = true ↔ ∀ key, t.get key = .nil := by
  rw [isEmpty, Bool.and_eq_true]
  constructor
  · rintro ⟨harray, hfields⟩ key
    cases hk : Key.ofValue? key with
    | none => exact get_of_not_isIndex (Key.ofValue?_eq_none_iff.1 hk)
    | some k =>
      have hsize : t.array.size = 0 := by simpa using harray
      rw [get_of_key hk, getKey_of_not_isWithin (by rw [hsize]; exact Key.not_isWithin_zero)]
      exact Std.TreeMap.getD_eq_fallback (Std.TreeMap.isEmpty_iff_forall_not_mem.1 hfields k)
  · intro hnil
    constructor
    · -- Otherwise the array part ends in a value.
      by_contra hne
      have hpos : 0 < t.array.size := by
        rw [Nat.pos_iff_ne_zero]
        simpa using hne
      have hlt := h.size_lt
      have hint : (Int64.ofNat t.array.size).toInt = t.array.size := Int64.toInt_ofNat_of_lt hlt
      exact get_last_ne_nil h (i := Int64.ofNat t.array.size) (by omega) hint (hnil _)
    · rw [Std.TreeMap.isEmpty_iff_forall_not_mem]
      intro k hk
      obtain ⟨⟨key, -, hlive⟩, -⟩ := (mem_fields_iff_mem_liveKeys h).1 hk
      exact hlive (hnil key)

/-- **The shape of a reachable table.**  Its array part is empty or ends in a value; its fields
hold values, under no float that is an integer or NaN, and under none of the integers from 1 to
just past the array part.  So its length is a border, `fieldCount` counts the entries outside
1, …, length, and it is empty exactly if it has no entry. -/
theorem reachable_shape (h : t.Reachable) :
    (t.array = #[] ∨ ∃ v : Value, t.array.back? = some v ∧ v ≠ .nil) ∧
    (∀ (k : Key) (v : Value), t.fields[k]? = some v → v ≠ .nil) ∧
    (∀ x, Key.float x ∈ t.fields → x.toInt? = none ∧ x.isNaN = false) ∧
    (∀ i, Key.int i ∈ t.fields → ¬ (1 ≤ i.toInt ∧ i.toInt ≤ t.array.size + 1)) ∧
    (t.length < 0x8000000000000000 ∧
      (∀ i : Int64, 1 ≤ i.toInt → i.toInt = t.length → t.get (.int i) ≠ .nil) ∧
      ∀ i : Int64, i.toInt = t.length + 1 → t.get (.int i) = .nil) ∧
    {k ∈ t.liveKeys | ¬ k.IsWithin t.length}.encard = t.fieldCount ∧
    (t.isEmpty = true ↔ ∀ key, t.get key = .nil) := by
  have hwf := h.wellFormed
  refine ⟨?_, hwf.field_ne_nil, fun x hx => hwf.field_isNormal _ hx, ?_,
    ⟨hwf.size_lt, fun i => get_last_ne_nil hwf, fun i => get_past_eq_nil hwf⟩,
    encard_liveKeys hwf, isEmpty_iff hwf⟩
  · cases hback : t.array.back? with
    | none => exact .inl (Array.back?_eq_none_iff.1 hback)
    | some v => exact .inr ⟨v, rfl, hwf.back_ne_nil v hback⟩
  · rintro i hi ⟨h1, h2⟩
    exact hwf.field_beyond _ hi ⟨h1, by omega⟩

/-- The integers 1 to 3 with a hole at 2, and two entries apart from them. -/
def holeyOperations : List Operation :=
  [.setInt 1 (.string "a"), .setInt 2 (.string "b"), .setInt 3 (.string "c"),
    .setInt 5 (.string "e"), .next .nil, .setString "x" (.bool true), .setInt 2 .nil]

theorem reachable_shape_holey :
    ((withCapacity 2 1).after holeyOperations).Reachable ∧
      ((withCapacity 2 1).after holeyOperations).length = 3 ∧
      ((withCapacity 2 1).after holeyOperations).get (.int 2) = .nil ∧
      ((withCapacity 2 1).after holeyOperations).get (.int 3) ≠ .nil ∧
      ((withCapacity 2 1).after holeyOperations).get (.int 4) = .nil ∧
      ((withCapacity 2 1).after holeyOperations).fieldCount = 2 := by
  have hreach := reachable_after (.withCapacity 2 1) holeyOperations
  have hlength : ((withCapacity 2 1).after holeyOperations).length = 3 := by decide +kernel
  obtain ⟨-, -, -, -, ⟨-, hlast, hpast⟩, -, -⟩ := reachable_shape hreach
  refine ⟨hreach, hlength, by decide +kernel, ?_, ?_, by decide +kernel⟩
  · exact hlast 3 (by decide) (by rw [hlength]; decide)
  · exact hpast 4 (by rw [hlength]; decide)

end Table

end LuaBytecode
