import LuaBytecode.Proofs.Table.Key
import LuaBytecode.Table

/-!
# Well-formed tables

An entry of a table lives in the array part or in the fields, never in both, and a write may move
many entries at once: it can trim a run of holes at the end of the array part, or draw a run of
fields into it.

* `Table.WellFormed` is the invariant; `WellFormed.put` says that every write keeps it.
* `Table.getKey_put`: a write changes the entry of its own key and of no other.

In between, while fields are drawn in, only `Table.Consistent` holds: there may be a field for the
position just past the array part.
-/

namespace LuaBytecode

namespace Table

/-- The array part ends in a value, and the fields hold values under normal keys that are no
positions of the array part. -/
structure Consistent (t : Table) : Prop where
  back_ne_nil : ∀ v : Value, t.array.back? = some v → v ≠ .nil
  field_ne_nil : ∀ (k : Key) (v : Value), t.fields[k]? = some v → v ≠ .nil
  field_isNormal : ∀ k ∈ t.fields, k.IsNormal
  field_outside : ∀ k ∈ t.fields, ¬ k.IsWithin t.array.size
  size_lt : t.array.size < 0x8000000000000000

/-- A consistent table without a field for the position just past the array part. -/
structure WellFormed (t : Table) : Prop extends Consistent t where
  field_beyond : ∀ k ∈ t.fields, ¬ k.IsWithin (t.array.size + 1)

variable {t t' : Table} {k k' : Key} {v : Value} {i : Int64}

/-! ### Both parts alone matter -/

theorem getKey_congr (ha : t'.array = t.array) (hf : t'.fields = t.fields) (k : Key) :
    t'.getKey k = t.getKey k := by
  cases k <;> simp only [getKey, getInt, ha, hf]

theorem Consistent.congr (h : t.Consistent) (ha : t'.array = t.array) (hf : t'.fields = t.fields) :
    t'.Consistent := by
  obtain ⟨h1, h2, h3, h4, h5⟩ := h
  constructor <;> simpa only [ha, hf]

theorem WellFormed.congr (h : t.WellFormed) (ha : t'.array = t.array) (hf : t'.fields = t.fields) :
    t'.WellFormed :=
  ⟨h.toConsistent.congr ha hf, by simpa only [ha, hf] using h.field_beyond⟩

theorem wellFormed_empty : WellFormed {} where
  back_ne_nil := by simp
  field_ne_nil := by simp
  field_isNormal := by simp
  field_outside := by simp
  size_lt := by simp
  field_beyond := by simp

/-! ### Reading -/

theorem getKey_of_not_isWithin (h : ¬ k.IsWithin t.array.size) :
    t.getKey k = t.fields.getD k .nil := by
  cases k with
  | int i => exact if_neg h
  | _ => rfl

theorem getKey_int_of_isWithin (h : (Key.int i).IsWithin t.array.size) :
    t.getKey (.int i) = t.array.getD (i.toInt.toNat - 1) .nil :=
  if_pos h

/-- The position just past the array part has the value of its field. -/
theorem not_isWithin_of_toInt (hi : i.toInt = t.array.size + 1) :
    ¬ (Key.int i).IsWithin t.array.size := by
  rintro ⟨-, h⟩
  omega

/-- The positions up to the one just past the array part. -/
theorem isWithin_succ_iff {n : Nat} :
    k.IsWithin (n + 1) ↔ k.IsWithin n ∨ ∃ i : Int64, k = .int i ∧ i.toInt = n + 1 := by
  constructor
  · intro h
    cases k with
    | int i =>
      obtain ⟨h1, h2⟩ := h
      by_cases he : i.toInt = n + 1
      · exact .inr ⟨i, rfl, he⟩
      · exact .inl ⟨h1, by omega⟩
    | _ => exact absurd h id
  · rintro (h | ⟨i, rfl, hi⟩)
    · exact h.mono (by omega)
    · exact ⟨by omega, by omega⟩

theorem positionKey?_eq_some_iff {n : Nat} :
    positionKey? n = some k ↔ ∃ i : Int64, k = .int i ∧ i.toInt = n := by
  rw [positionKey?]
  constructor
  · intro h
    split at h
    · rename_i hn
      exact ⟨Int64.ofNat n, (Option.some.inj h).symm, Int64.toInt_ofNat_of_lt hn⟩
    · exact absurd h (by simp)
  · rintro ⟨i, rfl, hi⟩
    have hlt := i.toInt_lt
    have hn : n < 0x8000000000000000 := by omega
    rw [if_pos hn, Option.some.injEq, Key.int.injEq, ← Int64.toInt_inj, hi]
    exact Int64.toInt_ofNat_of_lt hn

/-! ### Writing a field -/

theorem isNil_iff : v.isNil = true ↔ v = .nil := by
  cases v <;> simp [Value.isNil]

theorem array_setField (t : Table) (k : Key) (v : Value) : (t.setField k v).array = t.array := by
  rw [setField]
  split <;> rfl

theorem getKey_setField (hk : ¬ k.IsWithin t.array.size) :
    (t.setField k v).getKey k' = if k = k' then v else t.getKey k' := by
  have harray := array_setField t k v
  by_cases hw : k'.IsWithin t.array.size
  · have hne : k ≠ k' := fun h => hk (h ▸ hw)
    rw [if_neg hne]
    cases k' with
    | int i => rw [getKey_int_of_isWithin (harray ▸ hw), getKey_int_of_isWithin hw, harray]
    | _ => exact absurd hw id
  · rw [getKey_of_not_isWithin (by rwa [harray]), getKey_of_not_isWithin hw, setField]
    split
    · rename_i hv
      obtain rfl := isNil_iff.1 hv
      simp only [Std.TreeMap.getD_erase, Std.LawfulEqCmp.compare_eq_iff_eq]
    · simp only [Std.TreeMap.getD_insert, Std.LawfulEqCmp.compare_eq_iff_eq]

/-- A field may always go. -/
theorem WellFormed.eraseField (h : t.WellFormed) (k : Key) :
    ({ t with fields := t.fields.erase k } : Table).WellFormed where
  back_ne_nil := h.back_ne_nil
  field_ne_nil k' w hw := by
    rw [Std.TreeMap.getElem?_erase] at hw
    split at hw
    · exact absurd hw (by simp)
    · exact h.field_ne_nil k' w hw
  field_isNormal k' hk' := h.field_isNormal k' (Std.TreeMap.mem_of_mem_erase hk')
  field_outside k' hk' := h.field_outside k' (Std.TreeMap.mem_of_mem_erase hk')
  size_lt := h.size_lt
  field_beyond k' hk' := h.field_beyond k' (Std.TreeMap.mem_of_mem_erase hk')

theorem WellFormed.insertField (h : t.WellFormed) (hk : ¬ k.IsWithin (t.array.size + 1))
    (hn : k.IsNormal) (hv : v ≠ .nil) :
    ({ t with fields := t.fields.insert k v } : Table).WellFormed := by
  have hmem {k' : Key} (hk' : k' ∈ t.fields.insert k v) : k = k' ∨ k' ∈ t.fields := by
    rwa [Std.TreeMap.mem_insert, Std.LawfulEqCmp.compare_eq_iff_eq] at hk'
  refine ⟨⟨h.back_ne_nil, ?_, ?_, ?_, h.size_lt⟩, ?_⟩
  · intro k' w hw
    rw [Std.TreeMap.getElem?_insert] at hw
    split at hw
    · exact Option.some.inj hw ▸ hv
    · exact h.field_ne_nil k' w hw
  · intro k' hk'
    obtain rfl | hk' := hmem hk'
    · exact hn
    · exact h.field_isNormal k' hk'
  · intro k' hk'
    obtain rfl | hk' := hmem hk'
    · exact fun hw => hk (hw.mono (Nat.le_succ _))
    · exact h.field_outside k' hk'
  · intro k' hk'
    obtain rfl | hk' := hmem hk'
    · exact hk
    · exact h.field_beyond k' hk'

theorem WellFormed.setField (h : t.WellFormed) (hk : ¬ k.IsWithin (t.array.size + 1))
    (hn : k.IsNormal) (v : Value) : (t.setField k v).WellFormed := by
  rw [Table.setField]
  split
  · exact h.eraseField k
  · rename_i hv
    exact h.insertField hk hn fun he => hv (isNil_iff.2 he)

/-! ### Writing within the array part -/

theorem size_popWhile_le (vs : Array Value) : (vs.popWhile Value.isNil).size ≤ vs.size := by
  fun_induction Array.popWhile Value.isNil vs with
  | case1 vs hpos hnil ih => exact ih.trans (by simp)
  | case2 vs hpos hnil => exact Nat.le_refl _
  | case3 vs hpos => exact Nat.le_refl _

/-- Giving up the nils at the end does not show in the values. -/
theorem getD_popWhile (vs : Array Value) (j : Nat) :
    (vs.popWhile Value.isNil).getD j .nil = vs.getD j .nil := by
  fun_induction Array.popWhile Value.isNil vs with
  | case1 vs hpos hnil ih =>
    rw [ih, Array.getD_eq_getD_getElem?, Array.getD_eq_getD_getElem?, Array.getElem?_pop]
    split
    · rfl
    · by_cases hj : j = vs.size - 1
      · subst hj
        rw [Array.getElem?_eq_getElem (by omega), Option.getD_some, isNil_iff.1 hnil]
        rfl
      · rw [Array.getElem?_eq_none (by omega)]
  | case2 vs hpos hnil => rfl
  | case3 vs hpos => rfl

theorem back?_popWhile (vs : Array Value) (h : (vs.popWhile Value.isNil).back? = some v) :
    v ≠ .nil := by
  fun_induction Array.popWhile Value.isNil vs with
  | case1 vs hpos hnil ih => exact ih h
  | case2 vs hpos hnil =>
    rw [Array.back?_eq_getElem?, Array.getElem?_eq_getElem (by omega), Option.some.injEq] at h
    rintro rfl
    exact hnil (isNil_iff.2 h)
  | case3 vs hpos =>
    rw [Array.back?_eq_getElem?, Array.getElem?_eq_none (by omega)] at h
    exact absurd h (by simp)

theorem fields_setSlot (t : Table) (slot : Nat) (v : Value) :
    (t.setSlot slot v).fields = t.fields := by
  rw [setSlot]
  split <;> rfl

theorem size_setSlot_le (t : Table) (slot : Nat) (v : Value) :
    (t.setSlot slot v).array.size ≤ t.array.size := by
  rw [setSlot]
  split
  · exact (size_popWhile_le _).trans (by simp)
  · simp

theorem getD_setSlot {slot : Nat} (h : slot < t.array.size) (v : Value) (j : Nat) :
    (t.setSlot slot v).array.getD j .nil = if slot = j then v else t.array.getD j .nil := by
  have hwritten : (t.array.setIfInBounds slot v).getD j .nil =
      if slot = j then v else t.array.getD j .nil := by
    simp only [Array.getD_eq_getD_getElem?, Array.getElem?_setIfInBounds, h, if_true]
    split <;> rfl
  rw [setSlot]
  split
  · exact (getD_popWhile _ j).trans hwritten
  · exact hwritten

theorem back?_setSlot (hback : ∀ v : Value, t.array.back? = some v → v ≠ .nil) {slot : Nat}
    {w : Value} (h : (t.setSlot slot v).array.back? = some w) : w ≠ .nil := by
  have hsize : (t.array.setIfInBounds slot v).size = t.array.size := Array.size_setIfInBounds
  rw [setSlot] at h
  split at h
  · exact back?_popWhile _ h
  · rename_i hend
    simp only [Array.back?_eq_getElem?, hsize, Array.getElem?_setIfInBounds] at h
    split at h
    · rename_i hlast
      split at h
      · obtain rfl := Option.some.inj h
        intro hnil
        exact hend ⟨by omega, isNil_iff.2 hnil⟩
      · exact absurd h (by simp)
    · exact hback w (by rwa [Array.back?_eq_getElem?])

/-- Writing a slot changes its own entry alone, also where the array part gets shorter. -/
theorem getKey_setSlot (h : t.WellFormed) (hi : (Key.int i).IsWithin t.array.size) :
    (t.setSlot (i.toInt.toNat - 1) v).getKey k = if .int i = k then v else t.getKey k := by
  have hi1 := hi.1
  have hi2 := hi.2
  have hslot : i.toInt.toNat - 1 < t.array.size := by omega
  have hshort := size_setSlot_le t (i.toInt.toNat - 1) v
  by_cases hk : k.IsWithin t.array.size
  · cases k with
    | int j =>
      have hj1 := hk.1
      have hj2 := hk.2
      have hij : (i.toInt.toNat - 1 = j.toInt.toNat - 1) ↔ Key.int i = .int j := by
        rw [Key.int.injEq, ← Int64.toInt_inj]
        omega
      rw [getKey_int_of_isWithin hk]
      calc (t.setSlot (i.toInt.toNat - 1) v).getKey (.int j)
          = (t.setSlot (i.toInt.toNat - 1) v).array.getD (j.toInt.toNat - 1) .nil := by
            by_cases hj : (Key.int j).IsWithin (t.setSlot (i.toInt.toNat - 1) v).array.size
            · exact getKey_int_of_isWithin hj
            · -- The slot has been given up, and no field takes its place.
              have hsize : (t.setSlot (i.toInt.toNat - 1) v).array.size ≤ j.toInt.toNat - 1 := by
                by_contra hlt
                exact hj ⟨hj1, by omega⟩
              rw [getKey_of_not_isWithin hj, fields_setSlot,
                Std.TreeMap.getD_eq_fallback fun hmem => h.field_outside _ hmem hk,
                Array.getD_eq_getD_getElem?, Array.getElem?_eq_none hsize, Option.getD_none]
        _ = if Key.int i = .int j then v else t.array.getD (j.toInt.toNat - 1) .nil := by
            simp only [getD_setSlot hslot, hij]
    | _ => exact absurd hk id
  · have hne : Key.int i ≠ k := fun he => hk (he ▸ hi)
    rw [if_neg hne, getKey_of_not_isWithin hk,
      getKey_of_not_isWithin fun hw => hk (hw.mono hshort), fields_setSlot]

theorem WellFormed.setSlot (h : t.WellFormed) (slot : Nat) (v : Value) :
    (t.setSlot slot v).WellFormed := by
  have hshort := size_setSlot_le t slot v
  refine ⟨⟨fun w hw => back?_setSlot h.back_ne_nil hw, ?_, ?_, ?_, ?_⟩, ?_⟩
  · rw [fields_setSlot]
    exact h.field_ne_nil
  · rw [fields_setSlot]
    exact h.field_isNormal
  · rw [fields_setSlot]
    exact fun k hk hw => h.field_outside k hk (hw.mono hshort)
  · exact Nat.lt_of_le_of_lt hshort h.size_lt
  · rw [fields_setSlot]
    exact fun k hk hw => h.field_beyond k hk (hw.mono (by omega))

/-! ### Extending the array part -/

section Push

variable {array : Array Value} {fields : Fields}

/-- A value behind the array part gives that position its entry. -/
theorem getKey_push (hi : i.toInt = array.size + 1) :
    ({ array := array.push v, fields := fields.erase (.int i) } : Table).getKey k =
      if .int i = k then v else ({ array, fields } : Table).getKey k := by
  by_cases hk : k.IsWithin array.size
  · have hne : Key.int i ≠ k := by
      rintro rfl
      exact not_isWithin_of_toInt (t := { array, fields }) hi hk
    cases k with
    | int j =>
      have hj1 := hk.1
      have hj2 := hk.2
      rw [if_neg hne, getKey_int_of_isWithin (t := { array, fields }) hk,
        getKey_int_of_isWithin (hk.mono (by rw [Array.size_push]; omega))]
      simp only [Array.getD_eq_getD_getElem?, Array.getElem?_push]
      rw [if_neg (by omega)]
    | _ => exact absurd hk id
  by_cases hik : Key.int i = k
  · subst hik
    rw [if_pos rfl, getKey_int_of_isWithin ⟨by omega, by rw [Array.size_push]; omega⟩,
      Array.getD_eq_getD_getElem?, Array.getElem?_push, if_pos (by omega), Option.getD_some]
  · have hout : ¬ k.IsWithin (array.push v).size := by
      rw [Array.size_push, isWithin_succ_iff]
      rintro (hw | ⟨j, rfl, hj⟩)
      · exact hk hw
      · exact hik (congrArg Key.int (Int64.toInt_inj.1 (hi.trans hj.symm)))
    rw [if_neg hik, getKey_of_not_isWithin hout, getKey_of_not_isWithin hk]
    simp only [Std.TreeMap.getD_erase, Std.LawfulEqCmp.compare_eq_iff_eq, if_neg hik]

theorem Consistent.push (h : ({ array, fields } : Table).Consistent)
    (hi : i.toInt = array.size + 1) (hv : v ≠ .nil) :
    ({ array := array.push v, fields := fields.erase (.int i) } : Table).Consistent := by
  refine ⟨?_, ?_, ?_, ?_, ?_⟩
  · intro w hw
    rw [Array.back?_push, Option.some.injEq] at hw
    exact hw ▸ hv
  · intro k w hw
    rw [Std.TreeMap.getElem?_erase] at hw
    split at hw
    · exact absurd hw (by simp)
    · exact h.field_ne_nil k w hw
  · exact fun k hk => h.field_isNormal k (Std.TreeMap.mem_of_mem_erase hk)
  · intro k hk
    rw [Std.TreeMap.mem_erase, Ne, Std.LawfulEqCmp.compare_eq_iff_eq] at hk
    rw [Array.size_push, isWithin_succ_iff]
    rintro (hw | ⟨j, rfl, hj⟩)
    · exact h.field_outside k hk.2 hw
    · exact hk.1 (congrArg Key.int (Int64.toInt_inj.1 (hi.trans hj.symm)))
  · have hlt := i.toInt_lt
    simp only [Array.size_push]
    omega

end Push

/-- Without a field for the position just past the array part, a consistent table is well
formed. -/
theorem Consistent.wellFormed (h : t.Consistent)
    (hnext : ∀ i : Int64, i.toInt = t.array.size + 1 → .int i ∉ t.fields) : t.WellFormed := by
  refine ⟨h, fun k hk => ?_⟩
  rw [isWithin_succ_iff]
  rintro (hw | ⟨i, rfl, hi⟩)
  · exact h.field_outside k hk hw
  · exact hnext i hi hk

/-- **Drawing fields into the array part** moves entries without changing them, and ends with a
well-formed table when `count` is large enough. -/
theorem absorb_spec (count : Nat) (array : Array Value) (fields : Fields)
    (h : ({ array, fields } : Table).Consistent) (hcount : fields.size ≤ count) :
    ({ array := (absorb count array fields).1,
       fields := (absorb count array fields).2 } : Table).WellFormed ∧
    ∀ k, ({ array := (absorb count array fields).1,
            fields := (absorb count array fields).2 } : Table).getKey k =
      ({ array, fields } : Table).getKey k := by
  induction count generalizing array fields with
  | zero =>
    have hempty : fields.isEmpty = true := by
      rw [Std.TreeMap.isEmpty_eq_size_eq_zero]
      simpa using hcount
    exact ⟨h.wellFormed fun i _ => Std.TreeMap.isEmpty_iff_forall_not_mem.1 hempty _, fun _ => rfl⟩
  | succ count ih =>
    rw [absorb]
    split
    · -- There is no integer for the next position.
      rename_i hnone
      refine ⟨h.wellFormed fun i hi => ?_, fun _ => rfl⟩
      have hi' : i.toInt = ((array.size + 1 : Nat) : Int) := by simpa using hi
      rw [positionKey?_eq_some_iff.2 ⟨i, rfl, hi'⟩] at hnone
      exact absurd hnone (by simp)
    · rename_i k hsome
      obtain ⟨i, rfl, hi⟩ := positionKey?_eq_some_iff.1 hsome
      have hi' : i.toInt = array.size + 1 := by omega
      split
      · rename_i v hv
        have hmem : Key.int i ∈ fields := Std.TreeMap.mem_iff_isSome_getElem?.2 (by rw [hv]; rfl)
        have hsize : (fields.erase (.int i)).size ≤ count := by
          rw [Std.TreeMap.size_erase, if_pos (Std.TreeMap.mem_iff_contains.1 hmem)]
          omega
        obtain ⟨hwf, hsame⟩ := ih _ _ (h.push hi' (h.field_ne_nil _ _ hv)) hsize
        refine ⟨hwf, fun k => ?_⟩
        rw [hsame, getKey_push hi']
        split
        · rename_i hk
          subst hk
          rw [getKey_of_not_isWithin (not_isWithin_of_toInt (t := { array, fields }) hi'),
            Std.TreeMap.getD_eq_getD_getElem?, hv, Option.getD_some]
        · rfl
      · rename_i hnone
        refine ⟨h.wellFormed fun j hj hmem => ?_, fun _ => rfl⟩
        obtain rfl : j = i := Int64.toInt_inj.1 (hj.trans hi'.symm)
        rw [Std.TreeMap.mem_iff_isSome_getElem?, hnone] at hmem
        exact absurd hmem (by simp)

/-- A write just past the array part keeps the table well formed, and changes that entry alone. -/
theorem extend_spec (h : t.WellFormed) (hi : i.toInt = t.array.size + 1) (v : Value) :
    (t.extend (.int i) v).WellFormed ∧
      ∀ k, (t.extend (.int i) v).getKey k = if .int i = k then v else t.getKey k := by
  have hnot := not_isWithin_of_toInt hi
  rw [extend]
  split
  · rename_i hv
    obtain rfl := isNil_iff.1 hv
    have hgone : (t.setField (.int i) .nil) = { t with fields := t.fields.erase (.int i) } := rfl
    refine ⟨h.eraseField _, fun k => ?_⟩
    rw [← hgone, getKey_setField hnot]
  · rename_i hv
    have hv' : v ≠ .nil := fun he => hv (isNil_iff.2 he)
    have hbase : ({ array := t.array, fields := t.fields } : Table).Consistent :=
      h.toConsistent.congr rfl rfl
    obtain ⟨hwf, hsame⟩ := absorb_spec _ _ _ (hbase.push hi hv') (Nat.le_refl _)
    refine ⟨hwf.congr rfl rfl, fun k => ?_⟩
    have hself : ({ array := t.array, fields := t.fields } : Table).getKey k = t.getKey k :=
      getKey_congr rfl rfl k
    rw [← hself]
    exact (getKey_congr rfl rfl k).trans ((hsame k).trans (getKey_push hi))

/-! ### Writing -/

theorem setKey_spec (h : t.WellFormed) (hk : k.IsNormal) (v : Value) :
    (t.setKey k v).WellFormed ∧
      ∀ k', (t.setKey k v).getKey k' = if k = k' then v else t.getKey k' := by
  have hfield (hout : ¬ k.IsWithin (t.array.size + 1)) : (t.setField k v).WellFormed ∧
      ∀ k', (t.setField k v).getKey k' = if k = k' then v else t.getKey k' :=
    ⟨h.setField hout hk v, fun _ => getKey_setField fun hw => hout (hw.mono (by omega))⟩
  cases k with
  | int i =>
    rw [setKey]
    by_cases hin : 1 ≤ i.toInt ∧ i.toInt ≤ t.array.size
    · rw [if_pos hin]
      exact ⟨h.setSlot _ v, fun k' => getKey_setSlot h hin⟩
    · rw [if_neg hin]
      by_cases hnext : i.toInt = t.array.size + 1
      · rw [if_pos hnext]
        exact extend_spec h hnext v
      · rw [if_neg hnext]
        refine hfield fun hw => ?_
        obtain hw | ⟨j, hj, hj'⟩ := isWithin_succ_iff.1 hw
        · exact hin hw
        · obtain rfl := Key.int.inj hj
          exact hnext hj'
  | _ => exact hfield id

/-- A write changes the two parts of the table, and makes it dirty. -/
theorem put_eq (t : Table) (k : Key) (v : Value) :
    t.put k v = { t with
      array := (t.put k v).array, fields := (t.put k v).fields, dirty := true } := by
  have hfield (t : Table) (k : Key) : t.setField k v = { t with
      array := (t.setField k v).array, fields := (t.setField k v).fields } := by
    rw [setField]
    split <;> rfl
  cases k with
  | int i =>
    rw [put, setKey]
    split
    · rw [setSlot]
      split <;> rfl
    · split
      · rw [extend]
        split <;> rfl
      · exact hfield _ _
  | _ => exact hfield _ _

theorem put_spec (h : t.WellFormed) (hk : k.IsNormal) (v : Value) :
    (t.put k v).WellFormed ∧ ∀ k', (t.put k v).getKey k' = if k = k' then v else t.getKey k' :=
  setKey_spec (t := { t with dirty := true }) (h.congr rfl rfl) hk v

theorem WellFormed.put (h : t.WellFormed) (hk : k.IsNormal) (v : Value) : (t.put k v).WellFormed :=
  (put_spec h hk v).1

/-- **A write changes the entry of its own key and of no other**, although it may move many. -/
theorem getKey_put (h : t.WellFormed) (hk : k.IsNormal) (v : Value) (k' : Key) :
    (t.put k v).getKey k' = if k = k' then v else t.getKey k' :=
  (put_spec h hk v).2 k'

end Table

end LuaBytecode
