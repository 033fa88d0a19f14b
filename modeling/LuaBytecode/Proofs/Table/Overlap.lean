import LuaBytecode.Proofs.Table.Traversal

/-!
# Traversals that overlap

Several traversals of one table share its last snapshot, and a traversal that starts after a
write takes a new one.  A key that was cleared is not in it, so a traversal that has just got
this key has lost its place: its next step fails.  Nothing else can make it fail, as long as
writes only change or clear entries.

* `Table.Tour` : a traversal among others; `Table.Tour.cut` says that it has lost its place.
* `Table.Overlapping` : any interleaving of traversals and of writes to entries.
* `Table.Following` : the invariant of all of them.
* `Table.Overlapping.steady_inOrder` : a map with its keys in order keeps the order of those that
  stay.
* `Table.next_of_overlapping` : a step fails just where the traversal has lost its place, and
  otherwise a traversal is complete and exact if the map keeps the order of the entries that stay.
* `Table.exists_overlapping_fails` : a traversal that loses its place.
-/

namespace LuaBytecode

namespace Table

variable {en : Enumeration} {steady : Prop} {t t' : Table} {k : Key} {key : Value}
  {keys keys' listed visited ahead : List Key} {es : List (Value × Value)}
  {r : Except Complaint (Option (Value × Value))}

/-- A traversal among others. -/
structure Tour where
  /-- The table at the start. -/
  origin : Table
  /-- The entries so far. -/
  got : List (Value × Value)
  /-- Another traversal has started while the last key was cleared. -/
  cut : Bool := false

namespace Tour

/-- Another traversal starts. -/
def cutAt (tour : Tour) (t : Table) : Tour :=
  { tour with cut := tour.cut || (t.get (lastKey tour.got)).isNil }

/-- The traversal gets the answer to its next step. -/
def receive (tour : Tour) : Except Complaint (Option (Value × Value)) → Tour
  | .ok (some entry) => { tour with got := tour.got ++ [entry] }
  | _ => tour

@[simp] theorem receive_some (tour : Tour) (entry : Value × Value) :
    tour.receive (.ok (some entry)) = { tour with got := tour.got ++ [entry] } := rfl

@[simp] theorem origin_receive (tour : Tour) (r : Except Complaint (Option (Value × Value))) :
    (tour.receive r).origin = tour.origin := by
  unfold receive
  split <;> rfl

end Tour

/-- The traversals of a table that were started since a time when there were none, and what has
become of it.  All writes since then change or clear entries.  If `steady`, then new snapshots
have the entries that stay in the order of the last one. -/
inductive Overlapping (en : Enumeration) (steady : Prop) : List Tour → Table → Prop where
  | idle {t : Table} (h : t.Arises en) : Overlapping en steady [] t
  | write {tours : List Tour} {t t' : Table} {key v : Value} (h : Overlapping en steady tours t)
    (hkey : t.get key ≠ .nil) (hset : t.set key v = .ok t') : Overlapping en steady tours t'
  | start {tours : List Tour} {t t' : Table} {first? : Option (Value × Value)}
    (h : Overlapping en steady tours t) (hnext : t.Next en .nil (.ok first?) t')
    (hkept : steady → tours ≠ [] → t'.lastSnapshot.keys.Sublist t.lastSnapshot.keys) :
    Overlapping en steady (tours.map (·.cutAt t) ++ [{ origin := t, got := first?.toList }]) t'
  | visit {tours : List Tour} {t t' : Table} {r : Except Complaint (Option (Value × Value))}
    {i : Nat} {tour : Tour} (h : Overlapping en steady tours t) (hi : tours[i]? = some tour)
    (hgot : tour.got ≠ []) (hnext : t.Next en (lastKey tour.got) r t') :
    Overlapping en steady (tours.set i (tour.receive r)) t'

/-! ### The place of a traversal -/

/-- A traversal goes on behind the key `k`, if that is among the keys of the last snapshot. -/
structure Tour.Follows (steady : Prop) (t : Table) (keys listed visited : List Key) (k : Key)
    (tour : Tour) : Prop where
  wellFormed : tour.origin.WellFormed
  /-- No key has come in since the start. -/
  present : ∀ k', t.getKey k' ≠ .nil → tour.origin.getKey k' ≠ .nil
  keys_eq : tour.got.map Prod.fst = visited.map Key.toValue
  lastKey_eq : lastKey tour.got = k.toValue
  isNormal : k.IsNormal
  cut_iff : tour.cut = true ↔ k ∉ keys
  sublist : steady → visited.Sublist (tour.origin.keysAs listed)
  course : steady → ∀ ahead, keysAfter k keys = some ahead →
    Course (tour.origin.keysAs listed) visited ahead fun k' => t.getKey k' = .nil

/-- The keys of the last snapshot, which are no fewer than those of entries. -/
structure Offers (t : Table) (keys : List Key) : Prop where
  snapshot : ∃ s, t.snapshot = some s ∧ s.keys = keys
  nodup : keys.Nodup
  mem : ∀ k, t.getKey k ≠ .nil → k ∈ keys

/-- A sublist leaves out just the keys that it does not have. -/
theorem filter_mem_of_sublist (h : keys'.Sublist keys) (hkeys : keys.Nodup) :
    keys.filter (fun k => decide (k ∈ keys')) = keys' := by
  have hself : keys'.filter (fun k => decide (k ∈ keys')) = keys' :=
    List.filter_eq_self.2 fun k hk => decide_eq_true hk
  have hsub := h.filter fun k => decide (k ∈ keys')
  rw [hself] at hsub
  refine (hsub.eq_of_length_le (List.Subperm.length_le ?_)).symm
  refine List.subperm_of_subset (hkeys.sublist List.filter_sublist) fun k hk => ?_
  exact of_decide_eq_true (List.mem_filter.1 hk).2

namespace Tour.Follows

variable {tour : Tour}

/-- Entries that are changed or cleared leave a traversal in its place. -/
theorem clear (h : tour.Follows steady t keys listed visited k)
    (hlive : ∀ k', t'.getKey k' ≠ .nil → t.getKey k' ≠ .nil) :
    tour.Follows steady t' keys listed visited k :=
  { h with
    present := fun k' hk' => h.present k' (hlive k' hk')
    course := fun hsteady ahead hahead => (h.course hsteady ahead hahead).mono
      fun k' hk' => not_not.1 fun hne => hlive k' hne hk' }

/-- A new snapshot, of the keys that have entries, loses the place of a traversal if its last
key has none. -/
theorem cutAt (h : tour.Follows steady t keys listed visited k) (hoffers : t.Offers keys)
    (hkeys' : ∀ k', k' ∈ keys' ↔ t.getKey k' ≠ .nil) (hkept : steady → keys'.Sublist keys)
    (hget : ∀ k', t'.getKey k' = t.getKey k') :
    (tour.cutAt t).Follows steady t' keys' listed visited k := by
  have hlast : t.get (lastKey tour.got) = t.getKey k := by
    rw [h.lastKey_eq, get_of_key (Key.ofValue?_toValue h.isNormal)]
  refine ⟨h.wellFormed, fun k' hk' => h.present k' (hget k' ▸ hk'), h.keys_eq, h.lastKey_eq,
    h.isNormal, ?_, h.sublist, fun hsteady ahead hahead => ?_⟩
  · rw [Tour.cutAt, Bool.or_eq_true, h.cut_iff, hlast, isNil_iff, hkeys', not_not]
    -- a key that has an entry is in the old snapshot too
    exact or_iff_right_of_imp fun hk => not_not.1 fun hne => hk (hoffers.mem k hne)
  · have hk : k ∈ keys' := (suffix_of_keysAfter hahead).subset List.mem_cons_self
    rw [← filter_mem_of_sublist (hkept hsteady) hoffers.nodup,
      keysAfter_filter _ (decide_eq_true hk)] at hahead
    obtain ⟨before, hbefore, rfl⟩ := Option.map_eq_some_iff.1 hahead
    have hcourse := h.course hsteady before hbefore
    simp only [hget]
    refine hcourse.filter _ fun k' _ hk' => ?_
    exact not_not.1 fun hne => of_decide_eq_false hk' ((hkeys' k').2 hne)

/-- A step takes a traversal to the next entry, if there is one. -/
theorem receive (h : tour.Follows steady t keys listed visited k) (hwf : t.WellFormed)
    (hoffers : t.Offers keys) (hnext : t.Next en (lastKey tour.got) r t') :
    t' = t ∧ ∃ visited' k', (tour.receive r).Follows steady t keys listed visited' k' := by
  obtain ⟨s, hs, rfl⟩ := hoffers.snapshot
  rw [h.lastKey_eq] at hnext
  obtain ⟨rfl, rfl⟩ := next_behind hs (Key.ofValue?_toValue h.isNormal) hnext
  refine ⟨rfl, ?_⟩
  cases hahead : keysAfter k s.keys with
  | none => exact ⟨visited, k, h⟩
  | some ahead =>
    cases hfirst : t'.firstEntry ahead with
    | none =>
      refine ⟨visited, k, ?_⟩
      rw [Option.elim_some, hfirst]
      exact h
    | some entry =>
      obtain ⟨skipped, k', rest, rfl, hskipped, hk', rfl⟩ := firstEntry_eq_some hfirst
      have hsuffix : k' :: rest <:+ s.keys :=
        (List.suffix_append _ _).trans ((List.suffix_cons _ _).trans (suffix_of_keysAfter hahead))
      have hadvance (hsteady : steady) := (h.course hsteady _ hahead).advance hskipped
      refine ⟨visited ++ [k'], k', ?_⟩
      rw [Option.elim_some, hfirst]
      refine ⟨h.wellFormed, h.present, ?_, ?_, isNormal_of_getKey_ne_nil hwf hk', ?_,
        fun hsteady => (hadvance hsteady).visited_sublist, fun hsteady rest' hrest' => ?_⟩
      · rw [receive_some, List.map_append, List.map_append, h.keys_eq]
        rfl
      · rw [receive_some, lastKey_concat]
      · have hk : k ∈ s.keys := (suffix_of_keysAfter hahead).subset List.mem_cons_self
        exact iff_of_false (fun hcut => h.cut_iff.1 hcut hk)
          (not_not.2 (hsuffix.subset List.mem_cons_self))
      · obtain rfl : rest = rest' :=
          Option.some.inj ((keysAfter_of_suffix hoffers.nodup hsuffix).symm.trans hrest')
        exact hadvance hsteady

/-- A traversal starts at the first entry. -/
theorem start {s : Snapshot} {entry : Value × Value} (hwf : t.WellFormed)
    (hks : en.Lists t.fields listed) (hkeys : s.keys = t.keysAs listed)
    (hget : ∀ k', t'.getKey k' = t.getKey k')
    (hfirst : t.firstEntry (t.keysAs listed) = some entry) :
    ∃ k, ({ origin := t, got := [entry] } : Tour).Follows steady t' s.keys listed [k] k := by
  obtain ⟨skipped, k, rest, hsplit, hskipped, hk, rfl⟩ := firstEntry_eq_some hfirst
  have hcourse := Course.start (t.keysAs listed) fun k' => t'.getKey k' = .nil
  simp only [hget] at hcourse
  rw [hsplit] at hcourse
  have hadvance := hcourse.advance hskipped
  rw [← hsplit] at hadvance
  have hsuffix : k :: rest <:+ t.keysAs listed := hsplit ▸ List.suffix_append _ _
  refine ⟨k, hwf, fun k' hk' => hget k' ▸ hk', rfl, rfl, isNormal_of_getKey_ne_nil hwf hk, ?_,
    fun _ => hadvance.visited_sublist, fun _ rest' hrest' => ?_⟩
  · rw [hkeys]
    exact iff_of_false (by simp) (not_not.2 (hsuffix.subset List.mem_cons_self))
  · rw [hkeys, keysAfter_of_suffix (nodup_keysAs hwf hks) hsuffix] at hrest'
    obtain rfl := Option.some.inj hrest'
    simp only [hget]
    exact hadvance

end Tour.Follows

/-! ### All traversals -/

/-- Each traversal that has got an entry has its place among the keys of the last snapshot. -/
structure Following (en : Enumeration) (steady : Prop) (tours : List Tour) (t : Table) : Prop
    extends Tracked en t where
  places : tours ≠ [] → ∃ keys, t.Offers keys ∧ ∀ tour ∈ tours, tour.got ≠ [] →
    ∃ listed visited k, en.Lists tour.origin.fields listed ∧
      tour.Follows steady t keys listed visited k

/-- Only the keys of entries come out of a write to one of them. -/
theorem getKey_ne_nil_of_put (h : t.WellFormed) (hk : t.getKey k ≠ .nil) (v : Value) {k' : Key}
    (hk' : (t.put k v).getKey k' ≠ .nil) : t.getKey k' ≠ .nil := by
  rw [getKey_put h (isNormal_of_getKey_ne_nil h hk)] at hk'
  by_cases heq : k = k'
  · exact heq ▸ hk
  · rwa [if_neg heq] at hk'

theorem Overlapping.following {tours : List Tour} (h : Overlapping en steady tours t) :
    Following en steady tours t := by
  induction h with
  | idle h => exact ⟨h.tracked, fun hne => absurd rfl hne⟩
  | @write tours t t' key v h hkey hset ih =>
    obtain ⟨k, hk, rfl⟩ := set_eq_ok_iff.1 hset
    rw [get_of_key hk] at hkey
    have hlive (k' : Key) (hk' : (t.put k v).getKey k' ≠ .nil) : t.getKey k' ≠ .nil :=
      getKey_ne_nil_of_put ih.toWellFormed hkey v hk'
    refine ⟨ih.toTracked.put (Key.isNormal_of_ofValue? hk) v, fun hne => ?_⟩
    obtain ⟨keys, ⟨⟨s, hs, hkeys⟩, hnodup, hmem⟩, hplaces⟩ := ih.places hne
    refine ⟨keys, ⟨⟨s, (parts_put t k v).1.trans hs, hkeys⟩, hnodup,
      fun k' hk' => hmem k' (hlive k' hk')⟩, fun tour htour hgot => ?_⟩
    obtain ⟨listed, visited, k, hks, hfollows⟩ := hplaces tour htour hgot
    exact ⟨listed, visited, k, hks, hfollows.clear hlive⟩
  | @start tours t t' first? h hnext hkept ih =>
    obtain ⟨ht', ha, hf, listed, s, hks, hs, hkeys, hr⟩ := next_start ih.toTracked hnext
    have hwf := ih.toWellFormed
    have hget (k : Key) : t'.getKey k = t.getKey k := getKey_congr ha hf k
    have hkeys_iff (k : Key) : k ∈ s.keys ↔ t.getKey k ≠ .nil := hkeys ▸ mem_keysAs_iff hwf hks
    refine ⟨ht', fun _ => ⟨s.keys, ⟨⟨s, hs, rfl⟩, hkeys ▸ nodup_keysAs hwf hks,
      fun k hk => (hkeys_iff k).2 (hget k ▸ hk)⟩, fun tour htour hgot => ?_⟩⟩
    rw [List.mem_append, List.mem_map, List.mem_singleton] at htour
    obtain ⟨before, hbefore, rfl⟩ | rfl := htour
    · have hne : tours ≠ [] := List.ne_nil_of_mem hbefore
      obtain ⟨keys, hoffers, hplaces⟩ := ih.places hne
      obtain ⟨listed, visited, k, hks, hfollows⟩ := hplaces before hbefore hgot
      refine ⟨listed, visited, k, hks, hfollows.cutAt hoffers hkeys_iff (fun hsteady => ?_) hget⟩
      obtain ⟨s₀, hs₀, rfl⟩ := hoffers.snapshot
      simpa only [lastSnapshot, hs, hs₀, Option.getD_some] using hkept hsteady hne
    · cases first? with
      | none => exact absurd rfl hgot
      | some entry =>
        obtain ⟨k, hfollows⟩ := Tour.Follows.start hwf hks hkeys hget (Except.ok.inj hr).symm
        exact ⟨listed, [k], k, hks, hfollows⟩
  | @visit tours t t' r i tour h hi hgot hnext ih =>
    have htour : tour ∈ tours := List.mem_of_getElem? hi
    obtain ⟨keys, hoffers, hplaces⟩ := ih.places (List.ne_nil_of_mem htour)
    obtain ⟨listed, visited, k, hks, hfollows⟩ := hplaces tour htour hgot
    obtain ⟨rfl, visited', k', hfollows'⟩ := hfollows.receive ih.toWellFormed hoffers hnext
    refine ⟨ih.toTracked, fun _ => ⟨keys, hoffers, fun other hother hgot' => ?_⟩⟩
    obtain hother | rfl := List.mem_or_eq_of_mem_set hother
    · exact hplaces other hother hgot'
    · exact ⟨listed, visited', k', by rwa [Tour.origin_receive], hfollows'⟩

/-! ### The order of keys is kept -/

/-- A write to an entry only shrinks the two parts of a table. -/
theorem parts_put_of_live (h : t.WellFormed) (hk : t.getKey k ≠ .nil) (v : Value) :
    (t.put k v).length ≤ t.length ∧ ∀ k' ∈ (t.put k v).fields, k' ∈ t.fields := by
  have hfield (t : Table) (hk : k ∈ t.fields) :
      (t.setField k v).length ≤ t.length ∧ ∀ k' ∈ (t.setField k v).fields, k' ∈ t.fields := by
    refine ⟨(congrArg Array.size (array_setField t k v)).le, fun k' hk' => ?_⟩
    rw [setField] at hk'
    split at hk'
    · exact (Std.TreeMap.mem_erase.1 hk').2
    · obtain heq | hk' := Std.TreeMap.mem_insert.1 hk'
      · exact Std.LawfulEqCmp.compare_eq_iff_eq.1 heq ▸ hk
      · exact hk'
  have hmem (hout : ¬ k.IsWithin t.length) : k ∈ t.fields := (mem_fields_iff_getKey h).2 ⟨hout, hk⟩
  cases k with
  | int i =>
    rw [put, setKey]
    split
    · refine ⟨size_setSlot_le _ _ _, fun k' hk' => ?_⟩
      rwa [fields_setSlot] at hk'
    · rename_i hout
      split
      · -- the key just past the array part has no entry
        rename_i hlast
        have hbeyond := h.field_beyond _ (hmem hout)
        exact absurd ⟨by rw [hlast]; omega, hlast.le⟩ hbeyond
      · exact hfield _ (hmem hout)
  | _ => exact hfield _ (hmem id)

/-- The last snapshot is in the order of a table that had all entries that there are now. -/
structure InOrder (t : Table) (keys : List Key) (is : List Int64) (fs : List Key) : Prop where
  keys_eq : keys = is.map .int ++ fs
  sorted : is.Pairwise (· < ·)
  ordered : fs.Pairwise fun a b => Key.order a b = .lt
  array_mem : ∀ i : Int64, (Key.int i).IsWithin t.length → t.getKey (.int i) ≠ .nil → i ∈ is
  field_mem : ∀ k ∈ t.fields, k ∈ fs

theorem InOrder.of_wellFormed (h : t.WellFormed) :
    ∃ is, t.InOrder (t.keysAs t.fields.keys) is t.fields.keys := by
  obtain ⟨is, his, hsorted, hmem⟩ := exists_arrayKeys h
  exact ⟨is, by rw [keysAs, his], hsorted, t.fields.ordered_keys,
    fun i hi hne => (hmem i).2 ⟨hi, hne⟩, fun k => Std.TreeMap.mem_keys.2⟩

instance : Std.Asymm fun a b : Key => Key.order a b = .lt :=
  ⟨fun _ _ => Std.OrientedCmp.not_lt_of_lt⟩

theorem sublist_of_ordered {α : Type} {before : α → α → Prop} [Std.Asymm before] {as bs : List α}
    (has : as.Pairwise before) (hbs : bs.Pairwise before) (h : ∀ a ∈ as, a ∈ bs) :
    as.Sublist bs :=
  have : Std.Antisymm before := Std.Asymm.antisymm before
  List.sublist_of_subperm_of_pairwise (List.subperm_of_subset has.nodup h) has hbs

/-- So the keys that still have entries are in that order. -/
theorem InOrder.sublist {is : List Int64} {fs : List Key} (h : t.InOrder keys is fs)
    (hwf : t.WellFormed) : (t.keysAs t.fields.keys).Sublist keys := by
  obtain ⟨is', his', hsorted', hmem'⟩ := exists_arrayKeys hwf
  rw [keysAs, his', h.keys_eq]
  refine List.Sublist.append (List.Sublist.map _ (sublist_of_ordered hsorted' h.sorted ?_))
    (sublist_of_ordered t.fields.ordered_keys h.ordered ?_)
  · intro i hi
    obtain ⟨hwithin, hne⟩ := (hmem' i).1 hi
    exact h.array_mem i hwithin hne
  · exact fun k hk => h.field_mem k (Std.TreeMap.mem_keys.1 hk)

theorem InOrder.put {is : List Int64} {fs : List Key} (h : t.InOrder keys is fs)
    (hwf : t.WellFormed) (hk : t.getKey k ≠ .nil) (v : Value) :
    (t.put k v).InOrder keys is fs := by
  obtain ⟨hlength, hfields⟩ := parts_put_of_live hwf hk v
  exact ⟨h.keys_eq, h.sorted, h.ordered,
    fun i hi hne => h.array_mem i (hi.mono hlength) (getKey_ne_nil_of_put hwf hk v hne),
    fun k' hk' => h.field_mem k' (hfields k' hk')⟩

theorem InOrder.congr {is : List Int64} {fs : List Key} (h : t.InOrder keys is fs)
    (ha : t'.array = t.array) (hf : t'.fields = t.fields) : t'.InOrder keys is fs := by
  refine ⟨h.keys_eq, h.sorted, h.ordered, fun i hi hne => h.array_mem i ?_ ?_, ?_⟩
  · rwa [length, ha] at hi
  · rwa [getKey_congr ha hf] at hne
  · rw [hf]
    exact h.field_mem

/-- A table that lists its fields in order keeps the order of the entries that stay. -/
theorem Overlapping.steady_inOrder {tours : List Tour} (h : Overlapping .inOrder False tours t) :
    Overlapping .inOrder True tours t ∧ (tours ≠ [] → ∃ s is fs, t.snapshot = some s ∧
      t.InOrder s.keys is fs) := by
  induction h with
  | idle h => exact ⟨.idle h, fun hne => absurd rfl hne⟩
  | @write tours t t' key v h hkey hset ih =>
    refine ⟨ih.1.write hkey hset, fun hne => ?_⟩
    obtain ⟨s, is, fs, hs, hinOrder⟩ := ih.2 hne
    obtain ⟨k, hk, rfl⟩ := set_eq_ok_iff.1 hset
    rw [get_of_key hk] at hkey
    exact ⟨s, is, fs, (parts_put t k v).1.trans hs, hinOrder.put h.following.toWellFormed hkey v⟩
  | @start tours t t' first? h hnext hkept ih =>
    have hwf := h.following.toWellFormed
    obtain ⟨-, ha, hf, _, s, rfl, hs, hkeys, -⟩ := next_start h.following.toTracked hnext
    refine ⟨ih.1.start hnext fun _ hne => ?_, fun _ => ?_⟩
    · obtain ⟨s₀, is, fs, hs₀, hinOrder⟩ := ih.2 hne
      rw [lastSnapshot, lastSnapshot, hs, hs₀, Option.getD_some, Option.getD_some, hkeys]
      exact hinOrder.sublist hwf
    · obtain ⟨is, hinOrder⟩ := InOrder.of_wellFormed hwf
      exact ⟨s, is, _, hs, hkeys ▸ hinOrder.congr ha hf⟩
  | @visit tours t t' r i tour h hi hgot hnext ih =>
    have htour := List.mem_of_getElem? hi
    obtain ⟨keys, hoffers, hplaces⟩ := h.following.places (List.ne_nil_of_mem htour)
    obtain ⟨listed, visited, k, -, hfollows⟩ := hplaces tour htour hgot
    obtain ⟨rfl, -⟩ := hfollows.receive h.following.toWellFormed hoffers hnext
    exact ⟨ih.1.visit hi hgot hnext, fun _ => ih.2 (List.ne_nil_of_mem htour)⟩

/-! ### The steps of a traversal -/

/-- **A step of a traversal fails just if it has lost its place**: another traversal has started
while the key that it got last was cleared.  The start of a traversal never fails.  While a
traversal has its place, it gets an entry that the table has at this moment or has come to the
end, and if the map keeps the order of the entries that stay, then it has got each key once that
had an entry at its start and still has one. -/
theorem next_of_overlapping {tours : List Tour} {tour : Tour} (h : Overlapping en steady tours t)
    (htour : tour ∈ tours) (hgot : tour.got ≠ []) :
    (∀ r t', t.Next en .nil r t' → r ≠ .error .staleKey) ∧
      (∃ r t', t.Next en (lastKey tour.got) r t') ∧
      (steady → Visits tour.origin tour.got) ∧
      ∀ r t', t.Next en (lastKey tour.got) r t' →
        (r = .error .staleKey ∧ tour.cut = true) ∨
        (∃ entry, r = .ok (some entry) ∧ tour.cut = false ∧ entry.2 ≠ .nil ∧
          t.get entry.1 = entry.2) ∨
        (r = .ok none ∧ tour.cut = false ∧ (steady → ∀ key, tour.origin.get key ≠ .nil →
          t.get key ≠ .nil → tour.got.countP (·.1.rawEq key) = 1)) := by
  have hfollowing := h.following
  obtain ⟨keys, hoffers, hplaces⟩ := hfollowing.places (List.ne_nil_of_mem htour)
  obtain ⟨listed, visited, k, hks, hfollows⟩ := hplaces tour htour hgot
  refine ⟨fun r t' hnext => ?_, exists_next en t _, fun hsteady => ?_, fun r t' hnext => ?_⟩
  · obtain ⟨-, -, -, _, _, -, -, -, rfl⟩ := next_start hfollowing.toTracked hnext
    exact nofun
  · exact .of_sublist hfollows.wellFormed hks (hfollows.sublist hsteady) hfollows.keys_eq
  · obtain ⟨s, hs, rfl⟩ := hoffers.snapshot
    rw [hfollows.lastKey_eq] at hnext
    obtain ⟨rfl, rfl⟩ := next_behind hs (Key.ofValue?_toValue hfollows.isNormal) hnext
    cases hahead : keysAfter k s.keys with
    | none => exact .inl ⟨rfl, hfollows.cut_iff.2 (keysAfter_eq_none_iff.1 hahead)⟩
    | some ahead =>
      have hk : k ∈ s.keys := (suffix_of_keysAfter hahead).subset List.mem_cons_self
      have hcut : tour.cut = false := by
        rw [← Bool.not_eq_true, hfollows.cut_iff, not_not]
        exact hk
      rw [Option.elim_some]
      cases hfirst : t'.firstEntry ahead with
      | some entry =>
        obtain ⟨-, k', -, -, -, hk', rfl⟩ := firstEntry_eq_some hfirst
        refine .inr (.inl ⟨_, rfl, hcut, hk', get_of_key (Key.ofValue?_toValue ?_)⟩)
        exact isNormal_of_getKey_ne_nil hfollowing.toWellFormed hk'
      | none =>
        refine .inr (.inr ⟨rfl, hcut, fun hsteady key hkey hstays => ?_⟩)
        refine countP_eq_one hfollows.wellFormed hks (hfollows.course hsteady ahead hahead)
          hfollows.keys_eq (firstEntry_eq_none_iff.1 hfirst) hkey fun k' hk' hgone => ?_
        exact hstays ((get_of_key hk').trans hgone)

/-- The first traversal is past 2 and the second at 1 when 1 is cleared and a third starts. -/
theorem next_of_overlapping_cleared :
    ∃ a b c t t', Overlapping .inOrder True [a, b, c] t ∧
      a.got = [(.int 1, .string "a"), (.int 2, .string "b"), (.int 3, .string "c")] ∧
      t.Next .inOrder (lastKey a.got) (.ok none) t' ∧ a.got.countP (·.1.rawEq (.int 2)) = 1 ∧
      b.got = [(.int 1, .string "a")] ∧ b.cut = true := by
  have h0 : Overlapping .inOrder False [] _ := .idle (reachable_after .new
    [.setInt 1 (.string "a"), .setInt 2 (.string "b"), .setInt 3 (.string "c")]).arises
  have h1 := h0.start
    (next_inOrder (r := .ok (some (.int 1, .string "a"))) (by decide +kernel)) nofun
  have h2 := h1.visit (i := 0) rfl (by decide +kernel)
    (next_inOrder (r := .ok (some (.int 2, .string "b"))) (by decide +kernel))
  have h3 := h2.start
    (next_inOrder (r := .ok (some (.int 1, .string "a"))) (by decide +kernel)) nofun
  have h4 := h3.write (by decide +kernel) (show Table.set _ (.int 1) .nil = .ok _ from rfl)
  have h5 := h4.start
    (next_inOrder (r := .ok (some (.int 2, .string "b"))) (by decide +kernel)) nofun
  have h6 := h5.visit (i := 0) rfl (by decide +kernel)
    (next_inOrder (r := .ok (some (.int 3, .string "c"))) (by decide +kernel))
  have h : Overlapping .inOrder True [_, _, _] _ := h6.steady_inOrder.1
  obtain ⟨-, -, -, hstep⟩ := next_of_overlapping h List.mem_cons_self (by decide +kernel)
  obtain ⟨hr, -⟩ | ⟨entry, hr, -⟩ | ⟨-, -, hall⟩ :=
    hstep (.ok none) _ (next_inOrder (by decide +kernel))
  · cases hr
  · cases hr
  · exact ⟨_, _, _, _, _, h, by decide +kernel, next_inOrder (by decide +kernel),
      hall trivial (.int 2) (by decide +kernel) (by decide +kernel), by decide +kernel,
      by decide +kernel⟩

/-- Overlapping traversals can break each other, though entries are only cleared: the first one
gets 1, which is cleared before the second starts. -/
theorem exists_overlapping_fails :
    ¬ ∀ tours t tour, Overlapping .inOrder True tours t → tour ∈ tours → tour.got ≠ [] →
      ∀ r t', t.Next .inOrder (lastKey tour.got) r t' → r ≠ .error .staleKey := by
  intro hnever
  have h0 : Overlapping .inOrder False [] _ := .idle (reachable_after .new
    [.setInt 1 (.string "a"), .setInt 2 (.string "b")]).arises
  have h1 := h0.start
    (next_inOrder (r := .ok (some (.int 1, .string "a"))) (by decide +kernel)) nofun
  have h2 := h1.write (by decide +kernel) (show Table.set _ (.int 1) .nil = .ok _ from rfl)
  have h3 := h2.start
    (next_inOrder (r := .ok (some (.int 2, .string "b"))) (by decide +kernel)) nofun
  have h : Overlapping .inOrder True [_, _] _ := h3.steady_inOrder.1
  exact hnever _ _ _ h List.mem_cons_self (by decide +kernel) (.error .staleKey) _
    (next_inOrder (by decide +kernel)) rfl

end Table

end LuaBytecode
