import LuaBytecode.Proofs.Table.Border

/-!
# Snapshots of a table whose fields come in any order

`Table.next` takes its snapshots with the fields in the order of their keys.  A hash map promises
less: it lists each of its keys once, in an order of its own that may change from one time to the
next.  This file steps through tables under an `Enumeration`, which says in what orders a map may
list its keys, and states what a traversal may rely on.

* `Table.Next` : a step of a traversal; `Table.next_inOrder_iff` says that `Table.next` is the
  case of one order.
* `Table.Arises` : the tables that come about from a new one.
* `Table.mem_keysAs_iff`, `Table.nodup_keysAs` : a snapshot has each key with an entry once.
* `Table.Tracked` : the invariant that ties a table to its last snapshot.
* `Table.next_start`, `Table.next_behind` : what the two kinds of steps answer.
-/

namespace LuaBytecode

/-- The orders in which a map may list its keys. -/
structure Enumeration where
  Lists : Fields → List Key → Prop
  exists_lists : ∀ fields, ∃ ks, Lists fields ks
  /-- Each key is listed once. -/
  perm : ∀ {fields ks}, Lists fields ks → ks.Perm fields.keys

namespace Enumeration

/-- Every order. -/
def any : Enumeration where
  Lists fields ks := ks.Perm fields.keys
  exists_lists fields := ⟨fields.keys, .refl _⟩
  perm h := h

/-- The order of the keys. -/
def inOrder : Enumeration where
  Lists fields ks := ks = fields.keys
  exists_lists fields := ⟨fields.keys, rfl⟩
  perm h := by rw [h]

end Enumeration

namespace Table

variable {en : Enumeration} {t t' : Table} {k : Key} {key : Value} {listed ks : List Key}
  {s : Snapshot} {r : Except Complaint (Option (Value × Value))}

/-! ### Steps of a traversal -/

/-- The keys of all entries, with the fields as they are listed. -/
def keysAs (t : Table) (listed : List Key) : List Key := positions 1 t.array.toList ++ listed

/-- Take a snapshot of the keys, with the fields as they are listed. -/
def renewAs (t : Table) (listed : List Key) : Table :=
  { t with snapshot := some { keys := t.keysAs listed }, dirty := false }

/-- The entry behind a key in the traversal, where a new snapshot has the fields as they are
listed. -/
def nextAs (t : Table) (listed : List Key) (key : Value) :
    Except Complaint (Option (Value × Value)) × Table :=
  match key, Key.ofValue? key with
  | .nil, _ =>
    let t := if t.snapshot.isNone || t.dirty then t.renewAs listed else t
    (.ok (t.firstEntry t.lastSnapshot.keys), t)
  | _, none => (.error .staleKey, t)
  | _, some k =>
    let t := if t.snapshot.isNone then t.renewAs listed else t
    match t.lastSnapshot.behind? k with
    | none => (.error .staleKey, t)
    | some ks => (.ok (t.firstEntry ks), t)

/-- A step of a traversal: its answer, and the table that it leaves. -/
def Next (en : Enumeration) (t : Table) (key : Value)
    (r : Except Complaint (Option (Value × Value))) (t' : Table) : Prop :=
  ∃ listed, en.Lists t.fields listed ∧ t.nextAs listed key = (r, t')

theorem next_eq_nextAs (t : Table) (key : Value) : t.next key = t.nextAs t.fields.keys key := rfl

/-- `Table.next` is the step for fields that are listed in order. -/
theorem next_inOrder_iff : t.Next .inOrder key r t' ↔ t.next key = (r, t') := by
  rw [next_eq_nextAs]
  constructor
  · rintro ⟨listed, rfl, h⟩
    exact h
  · exact fun h => ⟨_, rfl, h⟩

theorem next_inOrder (h : (t.next key).1 = r) : t.Next .inOrder key r (t.next key).2 :=
  next_inOrder_iff.2 (Prod.ext h rfl)

/-- Some step can always be taken. -/
theorem exists_next (en : Enumeration) (t : Table) (key : Value) : ∃ r t', t.Next en key r t' := by
  obtain ⟨listed, hlisted⟩ := en.exists_lists t.fields
  exact ⟨_, _, listed, hlisted, rfl⟩

/-- The tables that come about from a new one. -/
inductive Arises (en : Enumeration) : Table → Prop where
  | new : Arises en {}
  | withCapacity (slots fields : Nat) : Arises en (withCapacity slots fields)
  | set {t t' : Table} {key v : Value} (h : Arises en t) (hset : t.set key v = .ok t') :
    Arises en t'
  | setMetatable {t : Table} (meta? : Option TableRef) (h : Arises en t) :
    Arises en { t with metatable := meta? }
  | next {t t' : Table} {key : Value} {r : Except Complaint (Option (Value × Value))}
    (h : Arises en t) (hnext : t.Next en key r t') : Arises en t'

/-- All operations on a table are among these, for fields that are listed in order. -/
theorem Reachable.arises (h : t.Reachable) : t.Arises .inOrder := by
  induction h with
  | new => exact .new
  | withCapacity slots fields => exact .withCapacity slots fields
  | @apply t op _ ih =>
    cases op with
    | set key v =>
      rw [Table.apply]
      split
      · exact ih.set ‹_›
      · exact ih
    | setInt n v => exact ih.set (show t.set (.int n) v = .ok (t.setInt n v) from rfl)
    | setString s v => exact ih.set (show t.set (.string s) v = .ok (t.setString s v) from rfl)
    | next key => exact ih.next (next_inOrder_iff.2 rfl)
    | inext key => exact ih
    | setMetatable meta? => exact ih.setMetatable meta?

/-! ### The keys of a snapshot -/

/-- The positions are integers in increasing order. -/
theorem exists_positions_eq_map (n : Nat) (vs : List Value)
    (h : n + vs.length ≤ 0x8000000000000000) :
    ∃ is : List Int64, positions n vs = is.map .int ∧ is.Pairwise (· < ·) ∧
      ∀ i : Int64, i ∈ is ↔
        (n : Int) ≤ i.toInt ∧ vs.getD (i.toInt.toNat - n) .nil ≠ .nil := by
  induction vs generalizing n with
  | nil => exact ⟨[], rfl, .nil, by simp⟩
  | cons v vs ih =>
    rw [List.length_cons] at h
    obtain ⟨is, his, hsorted, hmem⟩ := ih (n + 1) (by omega)
    have hn : (Int64.ofNat n).toInt = n := Int64.toInt_ofNat_of_lt (by omega)
    -- an integer is the first position or lies behind it
    have hcases (i : Int64) :
        (n : Int) ≤ i.toInt ↔ i = Int64.ofNat n ∨ (n + 1 : Nat) ≤ i.toInt := by
      rw [← Int64.toInt_inj, hn]
      omega
    have hget (i : Int64) (hi : (n + 1 : Nat) ≤ i.toInt) :
        (v :: vs).getD (i.toInt.toNat - n) .nil = vs.getD (i.toInt.toNat - (n + 1)) .nil := by
      rw [show i.toInt.toNat - n = i.toInt.toNat - (n + 1) + 1 by omega]
      rfl
    have hhead : (v :: vs).getD ((Int64.ofNat n).toInt.toNat - n) .nil = v := by
      rw [hn, Int.toNat_natCast, Nat.sub_self]
      rfl
    have hnot (hlt : (n + 1 : Nat) ≤ (Int64.ofNat n).toInt) : False := by
      rw [hn] at hlt
      omega
    rw [positions]
    split
    · rename_i hv
      refine ⟨is, his, hsorted, fun i => ?_⟩
      rw [hmem, hcases]
      constructor
      · rintro ⟨hi, hne⟩
        exact ⟨.inr hi, hget i hi ▸ hne⟩
      · rintro ⟨rfl | hi, hne⟩
        · exact absurd (hhead.trans (isNil_iff.1 hv)) hne
        · exact ⟨hi, hget i hi ▸ hne⟩
    · rename_i hv
      refine ⟨Int64.ofNat n :: is, by rw [his, List.map_cons], ?_, fun i => ?_⟩
      · refine List.pairwise_cons.2 ⟨fun i hi => ?_, hsorted⟩
        rw [Int64.lt_iff_toInt_lt, hn]
        have := ((hmem i).1 hi).1
        omega
      · rw [List.mem_cons, hmem, hcases]
        constructor
        · rintro (rfl | ⟨hi, hne⟩)
          · exact ⟨.inl rfl, fun he => hv (isNil_iff.2 (hhead.symm.trans he))⟩
          · exact ⟨.inr hi, (hget i hi).symm ▸ hne⟩
        · rintro ⟨rfl | hi, hne⟩
          · exact .inl rfl
          · exact .inr ⟨hi, hget i hi ▸ hne⟩

/-- The keys in the array part of a snapshot: the positions of values, in increasing order. -/
theorem exists_arrayKeys (h : t.WellFormed) :
    ∃ is : List Int64, positions 1 t.array.toList = is.map .int ∧ is.Pairwise (· < ·) ∧
      ∀ i : Int64, i ∈ is ↔ (Key.int i).IsWithin t.length ∧ t.getKey (.int i) ≠ .nil := by
  obtain ⟨is, his, hsorted, hmem⟩ :=
    exists_positions_eq_map 1 t.array.toList (by have := h.size_lt; simp; omega)
  refine ⟨is, his, hsorted, fun i => (hmem i).trans ?_⟩
  have hlist : t.array.toList.getD (i.toInt.toNat - 1) .nil =
      t.array.getD (i.toInt.toNat - 1) .nil := by
    simp [Array.getD_eq_getD_getElem?, List.getD_eq_getElem?_getD]
  rw [hlist]
  constructor
  · rintro ⟨h1, hne⟩
    -- a position that is read is one of the array part
    have hw : (Key.int i).IsWithin t.length := by
      refine ⟨h1, Int.not_lt.1 fun hlt => hne ?_⟩
      rw [length] at hlt
      rw [Array.getD_eq_getD_getElem?, Array.getElem?_eq_none (by omega), Option.getD_none]
    exact ⟨hw, getKey_int_of_isWithin hw ▸ hne⟩
  · rintro ⟨hw, hne⟩
    exact ⟨hw.1, getKey_int_of_isWithin hw ▸ hne⟩

theorem mem_positions_iff (h : t.WellFormed) :
    k ∈ positions 1 t.array.toList ↔ k.IsWithin t.length ∧ t.getKey k ≠ .nil := by
  obtain ⟨is, his, -, hmem⟩ := exists_arrayKeys h
  rw [his, List.mem_map]
  constructor
  · rintro ⟨i, hi, rfl⟩
    exact (hmem i).1 hi
  · intro hk
    cases k with
    | int i => exact ⟨i, (hmem i).2 hk, rfl⟩
    | _ => exact absurd hk.1 id

/-- The fields are the entries outside the array part. -/
theorem mem_fields_iff_getKey (h : t.WellFormed) :
    k ∈ t.fields ↔ ¬ k.IsWithin t.length ∧ t.getKey k ≠ .nil := by
  constructor
  · intro hk
    have hout := h.field_outside k hk
    exact ⟨hout, getKey_of_not_isWithin hout ▸ (mem_fields_iff h).1 hk⟩
  · rintro ⟨hout, hne⟩
    exact (mem_fields_iff h).2 (getKey_of_not_isWithin hout ▸ hne)

theorem mem_listed_iff (h : t.WellFormed) (hks : en.Lists t.fields listed) :
    k ∈ listed ↔ ¬ k.IsWithin t.length ∧ t.getKey k ≠ .nil := by
  rw [(en.perm hks).mem_iff, Std.TreeMap.mem_keys, mem_fields_iff_getKey h]

/-- **A snapshot has the keys of all entries.** -/
theorem mem_keysAs_iff (h : t.WellFormed) (hks : en.Lists t.fields listed) :
    k ∈ t.keysAs listed ↔ t.getKey k ≠ .nil := by
  rw [keysAs, List.mem_append, mem_positions_iff h, mem_listed_iff h hks]
  tauto

theorem nodup_keys (fields : Fields) : fields.keys.Nodup :=
  fields.distinct_keys.imp fun hne heq => hne (Std.LawfulEqCmp.compare_eq_iff_eq.2 heq)

/-- **A snapshot has each key once.** -/
theorem nodup_keysAs (h : t.WellFormed) (hks : en.Lists t.fields listed) :
    (t.keysAs listed).Nodup := by
  obtain ⟨is, his, hsorted, -⟩ := exists_arrayKeys h
  have hnodup : is.Nodup := by
    refine hsorted.imp ?_
    rintro i _ hlt rfl
    exact Int64.lt_irrefl hlt
  refine List.nodup_append'.2 ⟨?_, (en.perm hks).nodup_iff.2 (nodup_keys _), fun k hk hk' => ?_⟩
  · rw [his]
    exact hnodup.map fun i j => Key.int.inj
  · exact ((mem_listed_iff h hks).1 hk').1 ((mem_positions_iff h).1 hk).1

/-- The keys of entries are normal. -/
theorem isNormal_of_getKey_ne_nil (h : t.WellFormed) (hk : t.getKey k ≠ .nil) : k.IsNormal := by
  cases k with
  | float x => exact h.field_isNormal _ ((mem_fields_iff_getKey h).2 ⟨id, hk⟩)
  | _ => trivial

theorem isNormal_of_mem_keysAs (h : t.WellFormed) (hks : en.Lists t.fields listed)
    (hk : k ∈ t.keysAs listed) : k.IsNormal :=
  isNormal_of_getKey_ne_nil h ((mem_keysAs_iff h hks).1 hk)

theorem mem_liveKeys_iff (h : t.WellFormed) : k ∈ t.liveKeys ↔ t.getKey k ≠ .nil := by
  constructor
  · rintro ⟨key, hkey, hlive⟩
    rwa [get_of_key hkey] at hlive
  · intro hk
    have hkey := Key.ofValue?_toValue (isNormal_of_getKey_ne_nil h hk)
    exact ⟨k.toValue, hkey, by rwa [get_of_key hkey]⟩

/-- A snapshot has as many keys as the table has entries. -/
theorem length_keysAs (h : t.WellFormed) (hks : en.Lists t.fields listed) :
    ((t.keysAs listed).length : ℕ∞) = t.liveKeys.encard := by
  have hset : t.liveKeys = ((t.keysAs listed).toFinset : Set Key) := by
    ext k
    simp [mem_liveKeys_iff h, mem_keysAs_iff h hks]
  rw [hset, Set.encard_coe_eq_coe_finsetCard, List.toFinset_card_of_nodup (nodup_keysAs h hks)]

/-! ### The next entry -/

theorem firstEntry_eq_none_iff : t.firstEntry ks = none ↔ ∀ k ∈ ks, t.getKey k = .nil := by
  induction ks with
  | nil => simp [firstEntry]
  | cons k ks ih =>
    rw [firstEntry, List.forall_mem_cons, ← isNil_iff]
    by_cases hk : (t.getKey k).isNil = true
    · simp only [hk, if_true, ih, true_and]
    · simp only [hk, if_false, reduceCtorEq, false_and, Bool.false_eq_true]

/-- The next entry is the first one among the keys ahead. -/
theorem firstEntry_eq_some {entry : Value × Value} (h : t.firstEntry ks = some entry) :
    ∃ skipped k rest, ks = skipped ++ k :: rest ∧ (∀ k' ∈ skipped, t.getKey k' = .nil) ∧
      t.getKey k ≠ .nil ∧ entry = (k.toValue, t.getKey k) := by
  induction ks with
  | nil => exact absurd h (by simp [firstEntry])
  | cons k ks ih =>
    rw [firstEntry] at h
    split at h
    · rename_i hk
      obtain ⟨skipped, k', rest, rfl, hskipped, hk', hentry⟩ := ih h
      refine ⟨k :: skipped, k', rest, rfl, ?_, hk', hentry⟩
      exact List.forall_mem_cons.2 ⟨isNil_iff.1 hk, hskipped⟩
    · rename_i hk
      exact ⟨[], k, ks, rfl, by simp, fun he => hk (isNil_iff.2 he), (Option.some.inj h).symm⟩

theorem firstEntry_congr (ha : t'.array = t.array) (hf : t'.fields = t.fields) (ks : List Key) :
    t'.firstEntry ks = t.firstEntry ks := by
  induction ks with
  | nil => rfl
  | cons k ks ih => rw [firstEntry, firstEntry, ih, getKey_congr ha hf]

theorem keysAfter_eq_none_iff : keysAfter k ks = none ↔ k ∉ ks := by
  induction ks with
  | nil => simp [keysAfter]
  | cons k' ks ih =>
    rw [keysAfter]
    by_cases hk : k' = k
    · simp [hk]
    · simp [hk, Ne.symm hk, ih]

/-- What follows a key in a list without duplicates. -/
theorem keysAfter_append (pre post : List Key) (hk : k ∉ pre) :
    keysAfter k (pre ++ k :: post) = some post := by
  induction pre with
  | nil => simp [keysAfter]
  | cons k' pre ih =>
    rw [List.mem_cons, not_or] at hk
    rw [List.cons_append, keysAfter, if_neg (Ne.symm hk.1), ih hk.2]

theorem keysAfter_of_suffix {rest : List Key} (hks : ks.Nodup) (h : k :: rest <:+ ks) :
    keysAfter k ks = some rest := by
  obtain ⟨pre, rfl⟩ := h
  exact keysAfter_append pre rest fun hk => (List.nodup_append'.1 hks).2.2 hk List.mem_cons_self

theorem suffix_of_keysAfter {rest : List Key} (h : keysAfter k ks = some rest) :
    k :: rest <:+ ks := by
  induction ks with
  | nil => exact absurd h (by simp [keysAfter])
  | cons k' ks ih =>
    rw [keysAfter] at h
    split at h
    · rename_i hk
      rw [hk, Option.some.inj h]
    · exact (ih h).trans (List.suffix_cons _ _)

/-- Leaving out other keys does not change what follows a key otherwise. -/
theorem keysAfter_filter (p : Key → Bool) (hk : p k = true) (ks : List Key) :
    keysAfter k (ks.filter p) = (keysAfter k ks).map (·.filter p) := by
  induction ks with
  | nil => rfl
  | cons k' ks ih =>
    by_cases heq : k' = k
    · subst heq
      rw [List.filter_cons_of_pos hk, keysAfter, keysAfter, if_pos rfl, if_pos rfl, Option.map_some]
    · rw [List.filter_cons, keysAfter, if_neg heq, ← ih]
      split
      · rw [keysAfter, if_neg heq]
      · rfl

/-! ### A table and its last snapshot -/

/-- The table is well formed, and if it was not written since then its last snapshot has the keys
of its entries. -/
structure Tracked (en : Enumeration) (t : Table) : Prop extends WellFormed t where
  keys_eq : ∀ s, t.snapshot = some s → t.dirty = false →
    ∃ listed, en.Lists t.fields listed ∧ s.keys = t.keysAs listed

theorem parts_put (t : Table) (k : Key) (v : Value) :
    (t.put k v).snapshot = t.snapshot ∧ (t.put k v).dirty = true := by
  rw [put_eq]
  exact ⟨rfl, rfl⟩

/-- A write succeeds under a key, and is that of an entry. -/
theorem set_eq_ok_iff {v : Value} :
    t.set key v = .ok t' ↔ ∃ k, Key.ofValue? key = some k ∧ t' = t.put k v := by
  rw [set]
  cases Key.ofValue? key with
  | none => simp
  | some k => simp [eq_comm]

theorem Tracked.put (h : t.Tracked en) (hk : k.IsNormal) (v : Value) : (t.put k v).Tracked en :=
  ⟨h.toWellFormed.put hk v, fun s _ hdirty => absurd ((parts_put t k v).2.symm.trans hdirty)
    (by simp)⟩

theorem Tracked.renewAs (h : t.Tracked en) (hks : en.Lists t.fields listed) :
    (t.renewAs listed).Tracked en := by
  refine ⟨h.toWellFormed.congr rfl rfl, fun s hs _ => ⟨listed, hks, ?_⟩⟩
  obtain rfl := Option.some.inj hs
  rfl

/-- A traversal starts in a snapshot of all entries, whether it was just taken or not. -/
theorem next_start (h : t.Tracked en) (hnext : t.Next en .nil r t') :
    t'.Tracked en ∧ t'.array = t.array ∧ t'.fields = t.fields ∧ ∃ listed s,
      en.Lists t.fields listed ∧ t'.snapshot = some s ∧ s.keys = t.keysAs listed ∧
        r = .ok (t.firstEntry (t.keysAs listed)) := by
  obtain ⟨listed, hks, hnext⟩ := hnext
  rw [nextAs] at hnext
  by_cases hstale : (t.snapshot.isNone || t.dirty) = true
  · simp only [hstale, if_true] at hnext
    obtain ⟨rfl, rfl⟩ := Prod.mk.inj hnext
    have hfirst : (t.renewAs listed).firstEntry (t.keysAs listed) =
        t.firstEntry (t.keysAs listed) :=
      firstEntry_congr (show (t.renewAs listed).array = t.array from rfl) rfl _
    exact ⟨h.renewAs hks, rfl, rfl, listed, _, hks, rfl, rfl, congrArg Except.ok hfirst⟩
  · simp only [hstale, Bool.false_eq_true, if_false] at hnext
    obtain ⟨rfl, rfl⟩ := Prod.mk.inj hnext
    rw [Bool.or_eq_true, not_or, Bool.not_eq_true, Bool.not_eq_true, Option.isNone_eq_false_iff,
      Option.isSome_iff_exists] at hstale
    obtain ⟨⟨s, hs⟩, hdirty⟩ := hstale
    obtain ⟨listed', hks', hkeys⟩ := h.keys_eq s hs hdirty
    exact ⟨h, rfl, rfl, listed', s, hks', hs, hkeys, by rw [lastSnapshot, hs, ← hkeys]; rfl⟩

theorem nextAs_of_not_key (hkey : key ≠ .nil) (hk : Key.ofValue? key = none) :
    t.nextAs listed key = (.error .staleKey, t) := by
  unfold nextAs
  split
  · exact absurd rfl hkey
  · rfl
  · rename_i hk'
    exact absurd (hk.symm.trans hk') (by simp)

theorem nextAs_of_key (hk : Key.ofValue? key = some k)
    (ht' : t' = if t.snapshot.isNone then t.renewAs listed else t) :
    t.nextAs listed key =
      ((keysAfter k t'.lastSnapshot.keys).elim (.error .staleKey) fun ks => .ok (t'.firstEntry ks),
        t') := by
  unfold nextAs
  split
  · exact absurd hk (by simp [Key.ofValue?])
  · rename_i hk'
    exact absurd (hk.symm.trans hk') (by simp)
  · rename_i k' _ hk'
    obtain rfl : k' = k := Option.some.inj (hk'.symm.trans hk)
    simp only [← ht', ← Snapshot.behind?_eq]
    split <;> rename_i hks <;> rw [hks] <;> rfl

/-- A traversal goes on from its last key by the snapshot alone. -/
theorem nextAs_of_snapshot (hs : t.snapshot = some s) (hk : Key.ofValue? key = some k) :
    t.nextAs listed key =
      ((keysAfter k s.keys).elim (.error .staleKey) fun ks => .ok (t.firstEntry ks), t) := by
  have hkept : t = if t.snapshot.isNone then t.renewAs listed else t := by simp [hs]
  rw [nextAs_of_key hk hkept, lastSnapshot, hs]
  rfl

theorem next_behind (hs : t.snapshot = some s) (hkey : Key.ofValue? key = some k)
    (hnext : t.Next en key r t') :
    t' = t ∧ r = (keysAfter k s.keys).elim (.error .staleKey) fun ks => .ok (t.firstEntry ks) := by
  obtain ⟨listed, -, hnext⟩ := hnext
  obtain ⟨rfl, rfl⟩ := Prod.mk.inj ((nextAs_of_snapshot hs hkey).symm.trans hnext)
  exact ⟨rfl, rfl⟩

theorem Tracked.next (h : t.Tracked en) (hnext : t.Next en key r t') : t'.Tracked en := by
  have ⟨listed, hks, hstep⟩ := hnext
  obtain rfl | hkey := em (key = .nil)
  · exact (next_start h hnext).1
  · cases hk : Key.ofValue? key with
    | none =>
      rw [nextAs_of_not_key hkey hk] at hstep
      exact (Prod.mk.inj hstep).2 ▸ h
    | some k =>
      rw [nextAs_of_key hk rfl] at hstep
      rw [← (Prod.mk.inj hstep).2]
      split
      · exact h.renewAs hks
      · exact h

theorem Arises.tracked (h : t.Arises en) : t.Tracked en := by
  induction h with
  | new => exact ⟨wellFormed_empty, fun s hs => absurd hs (by simp)⟩
  | withCapacity slots fields =>
    exact ⟨wellFormed_empty.congr rfl rfl, fun s hs => by cases hs⟩
  | set _ hset ih =>
    obtain ⟨k, hk, rfl⟩ := set_eq_ok_iff.1 hset
    exact ih.put (Key.isNormal_of_ofValue? hk) _
  | setMetatable meta? _ ih => exact ⟨ih.toWellFormed.congr rfl rfl, ih.keys_eq⟩
  | next _ hnext ih => exact ih.next hnext

end Table

end LuaBytecode
