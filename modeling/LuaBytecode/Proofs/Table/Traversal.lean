import LuaBytecode.Proofs.Table.Enumeration

/-!
# A traversal that is disturbed

A program steps through a table from key to key, and does what it likes with the table in
between, as long as it does not start another traversal.  The keys that it gets are those of the
moment when it started, less some of those that were cleared on the way.

* `Course` : how far a traversal has come through a list of keys, and what it may still miss.
* `Table.Traversal` : a traversal, with the entries it has got and what was done in between.
* `Table.Poised`, `Table.Underway` : the invariant in a step and between the steps.
* `Table.visits_of_traversal` : what a traversal gets.
-/

namespace LuaBytecode

/-- The keys visited and then those ahead are in the order of all keys; a key that is neither is
gone. -/
structure Course (all visited ahead : List Key) (gone : Key → Prop) : Prop where
  sublist : (visited ++ ahead).Sublist all
  covered : ∀ k ∈ all, k ∈ visited ∨ k ∈ ahead ∨ gone k

namespace Course

variable {all visited ahead skipped rest : List Key} {gone gone' : Key → Prop} {k : Key}

theorem start (all : List Key) (gone : Key → Prop) : Course all [] all gone :=
  ⟨.refl _, fun _ hk => .inr (.inl hk)⟩

theorem mono (h : Course all visited ahead gone) (hgone : ∀ k, gone k → gone' k) :
    Course all visited ahead gone' :=
  ⟨h.sublist, fun k hk => (h.covered k hk).imp_right (.imp_right (hgone k))⟩

/-- A step skips keys that are gone. -/
theorem advance (h : Course all visited (skipped ++ k :: rest) gone)
    (hskipped : ∀ k' ∈ skipped, gone k') : Course all (visited ++ [k]) rest gone := by
  refine ⟨List.Sublist.trans ?_ h.sublist, fun k' hk' => ?_⟩
  · rw [List.append_assoc, List.singleton_append]
    exact (List.sublist_append_right skipped _).append_left visited
  · have hcovered := h.covered k' hk'
    simp only [List.mem_append, List.mem_cons] at hcovered ⊢
    obtain hv | (hs | rfl | hr) | hg := hcovered
    · exact .inl (.inl hv)
    · exact .inr (.inr (hskipped k' hs))
    · exact .inl (.inr (.inl rfl))
    · exact .inr (.inl hr)
    · exact .inr (.inr hg)

/-- Keys ahead may be dropped if they are gone. -/
theorem filter (h : Course all visited ahead gone) (p : Key → Bool)
    (hp : ∀ k ∈ ahead, p k = false → gone k) : Course all visited (ahead.filter p) gone := by
  refine ⟨(List.filter_sublist.append_left visited).trans h.sublist, fun k hk => ?_⟩
  obtain hv | ha | hg := h.covered k hk
  · exact .inl hv
  · cases hpk : p k with
    | true => exact .inr (.inl (List.mem_filter.2 ⟨ha, hpk⟩))
    | false => exact .inr (.inr (hp k ha hpk))
  · exact .inr (.inr hg)

theorem visited_sublist (h : Course all visited ahead gone) : visited.Sublist all :=
  (List.sublist_append_left _ _).trans h.sublist

/-- At the end of the course, a key that is not gone was visited once. -/
theorem count_eq_one (h : Course all visited ahead gone) (hall : all.Nodup)
    (hend : ∀ k ∈ ahead, gone k) (hk : k ∈ all) (hstays : ¬ gone k) : visited.count k = 1 := by
  obtain hv | ha | hg := h.covered k hk
  · exact List.count_eq_one_of_mem (hall.sublist h.visited_sublist) hv
  · exact absurd (hend k ha) hstays
  · exact absurd hg hstays

end Course

namespace Table

variable {en : Enumeration} {t t₀ t' : Table} {k : Key} {key : Value}
  {all listed visited ahead : List Key} {es : List (Value × Value)} {os : List Operation}
  {gone : Key → Prop} {r : Except Complaint (Option (Value × Value))}

/-! ### What the entries of a course have in common -/

/-- The keys of a table come with the array part first. -/
theorem exists_arrayKeys_append (h : t₀.WellFormed) (hks : en.Lists t₀.fields listed)
    (hvisited : visited.Sublist (t₀.keysAs listed)) :
    ∃ (is : List Int64) (others : List Key), visited = is.map .int ++ others ∧
      is.Pairwise (· < ·) ∧ (∀ i ∈ is, (Key.int i).IsWithin t₀.length) ∧
      ∀ k ∈ others, ¬ k.IsWithin t₀.length := by
  obtain ⟨all, hall, hsorted, hmem⟩ := exists_arrayKeys h
  rw [keysAs, hall] at hvisited
  obtain ⟨front, others, rfl, hfront, hothers⟩ := List.sublist_append_iff.1 hvisited
  obtain ⟨is, his, rfl⟩ := List.sublist_map_iff.1 hfront
  exact ⟨is, others, rfl, hsorted.sublist his, fun i hi => ((hmem i).1 (his.subset hi)).1,
    fun k hk => ((mem_listed_iff h hks).1 (hothers.subset hk)).1⟩

/-- Keys of a table are told apart by their values. -/
theorem rawEq_toValue_iff (h : t₀.WellFormed) (hks : en.Lists t₀.fields listed)
    (hk : k ∈ t₀.keysAs listed) : k.toValue.rawEq key = true ↔ Key.ofValue? key = some k := by
  have hof := Key.ofValue?_toValue (isNormal_of_mem_keysAs h hks hk)
  rw [Key.rawEq_iff (Key.isSome_ofValue?_iff.1 (by rw [hof]; rfl)), hof]

theorem get_toValue (h : t₀.WellFormed) (hks : en.Lists t₀.fields listed)
    (hk : k ∈ t₀.keysAs listed) (t : Table) : t.get k.toValue = t.getKey k :=
  get_of_key (Key.ofValue?_toValue (isNormal_of_mem_keysAs h hks hk))

/-- No two entries have the same key. -/
theorem pairwise_not_rawEq (h : t₀.WellFormed) (hks : en.Lists t₀.fields listed)
    (hvisited : visited.Sublist (t₀.keysAs listed))
    (hes : es.map Prod.fst = visited.map Key.toValue) :
    es.Pairwise fun e e' => e.1.rawEq e'.1 = false := by
  have hkeys : (visited.map Key.toValue).Pairwise fun a b => a.rawEq b = false := by
    rw [List.pairwise_map]
    refine List.Pairwise.imp_of_mem (fun {a b} ha hb hne => ?_)
      ((nodup_keysAs h hks).sublist hvisited)
    rw [← Bool.not_eq_true, rawEq_toValue_iff h hks (hvisited.subset ha),
      Key.ofValue?_toValue (isNormal_of_mem_keysAs h hks (hvisited.subset hb))]
    exact fun he => hne (Option.some.inj he).symm
  rwa [← hes, List.pairwise_map] at hkeys

/-- The entries of a key are as many as the visits to it. -/
theorem countP_rawEq (h : t₀.WellFormed) (hks : en.Lists t₀.fields listed)
    (hvisited : visited.Sublist (t₀.keysAs listed))
    (hes : es.map Prod.fst = visited.map Key.toValue)
    (hk : Key.ofValue? key = some k) : es.countP (·.1.rawEq key) = visited.count k := by
  have hcount : (es.map Prod.fst).countP (·.rawEq key) = es.countP (·.1.rawEq key) :=
    List.countP_map
  rw [← hcount, hes, List.countP_map, List.count]
  refine List.countP_congr fun k' hk' => ?_
  rw [Function.comp_apply, rawEq_toValue_iff h hks (hvisited.subset hk'), hk, beq_iff_eq,
    Option.some.injEq, eq_comm]

/-- At the end of a course, a key of the table that is not gone has one entry. -/
theorem countP_eq_one (h : t₀.WellFormed) (hks : en.Lists t₀.fields listed)
    (hcourse : Course (t₀.keysAs listed) visited ahead gone)
    (hes : es.map Prod.fst = visited.map Key.toValue) (hend : ∀ k ∈ ahead, gone k)
    (hkey : t₀.get key ≠ .nil) (hstays : ∀ k, Key.ofValue? key = some k → ¬ gone k) :
    es.countP (·.1.rawEq key) = 1 := by
  have hindex : key.IsIndex := not_not.1 fun hbad => hkey (get_of_not_isIndex hbad)
  obtain ⟨k, hk⟩ := Key.exists_key hindex
  rw [get_of_key hk] at hkey
  rw [countP_rawEq h hks hcourse.visited_sublist hes hk]
  exact hcourse.count_eq_one (nodup_keysAs h hks) hend ((mem_keysAs_iff h hks).2 hkey) (hstays k hk)

/-- What the entries of a traversal that started in `t₀` have in common: their keys are
different, have entries in `t₀`, come with the array part first, and are no more than those. -/
structure Visits (t₀ : Table) (es : List (Value × Value)) : Prop where
  distinct : es.Pairwise fun e e' => e.1.rawEq e'.1 = false
  present : ∀ e ∈ es, t₀.get e.1 ≠ .nil
  array_first : ∃ (is : List Int64) (others : List Value), es.map Prod.fst = is.map .int ++ others ∧
    is.Pairwise (· < ·) ∧ (∀ i ∈ is, (Key.int i).IsWithin t₀.length) ∧
    ∀ i : Int64, .int i ∈ others → ¬ (Key.int i).IsWithin t₀.length
  length_le : (es.length : ℕ∞) ≤ t₀.liveKeys.encard

theorem Visits.of_sublist (h : t₀.WellFormed) (hks : en.Lists t₀.fields listed)
    (hvisited : visited.Sublist (t₀.keysAs listed))
    (hes : es.map Prod.fst = visited.map Key.toValue) :
    Visits t₀ es where
  distinct := pairwise_not_rawEq h hks hvisited hes
  present e he := by
    obtain ⟨k, hk, hkey⟩ := List.mem_map.1 (hes ▸ List.mem_map_of_mem he)
    rw [← hkey, get_toValue h hks (hvisited.subset hk)]
    exact (mem_keysAs_iff h hks).1 (hvisited.subset hk)
  array_first := by
    obtain ⟨is, others, hsplit, hsorted, hwithin, hothers⟩ := exists_arrayKeys_append h hks hvisited
    refine ⟨is, others.map Key.toValue, ?_, hsorted, hwithin, fun i hi => ?_⟩
    · rw [hes, hsplit, List.map_append, List.map_map]
      rfl
    · obtain ⟨k, hk, hkey⟩ := List.mem_map.1 hi
      cases k with
      | int j =>
        obtain rfl : j = i := by simpa [Key.toValue] using hkey
        exact hothers _ hk
      | _ => simp [Key.toValue] at hkey
  length_le := by
    rw [← length_keysAs h hks, ← List.length_map (f := Prod.fst), hes, List.length_map]
    exact_mod_cast hvisited.length_le

/-! ### Traversals -/

/-- The key that a traversal goes on from: the last one that it got, or nil. -/
def lastKey (es : List (Value × Value)) : Value := (es.getLast?.map Prod.fst).getD .nil

theorem lastKey_concat (es : List (Value × Value)) (entry : Value × Value) :
    lastKey (es ++ [entry]) = entry.1 := by
  rw [lastKey, List.getLast?_concat]
  rfl

/-- A traversal that starts in `t₀` has got entries, other operations were done after the first
of them, and the table has become `t`.  None of the other operations starts a traversal. -/
inductive Traversal (en : Enumeration) (t₀ : Table) :
    List (Value × Value) → List Operation → Table → Prop where
  | start : Traversal en t₀ [] [] t₀
  | visit {es : List (Value × Value)} {os : List Operation} {t t' : Table} {entry : Value × Value}
    (h : Traversal en t₀ es os t) (hnext : t.Next en (lastKey es) (.ok (some entry)) t') :
    Traversal en t₀ (es ++ [entry]) os t'
  | meanwhile {es : List (Value × Value)} {os : List Operation} {t : Table} {o : Operation}
    (h : Traversal en t₀ es os t) (hes : es ≠ []) (ho : o ≠ .next .nil) :
    Traversal en t₀ es (os ++ [o]) (t.apply o)

/-- One of the operations has cleared the entry of a key. -/
def Cleared (os : List Operation) (k : Key) : Prop := ∃ o ∈ os, o.written? k.toValue = some .nil

/-- An operation writes under all values of a key alike. -/
theorem Operation.written?_congr {key' : Value} (h : Key.ofValue? key = Key.ofValue? key')
    (o : Operation) : o.written? key = o.written? key' := by
  have hrawEq {a : Value} (ha : a.IsIndex) : a.rawEq key = a.rawEq key' := by
    rw [Bool.eq_iff_iff, Key.rawEq_iff ha, Key.rawEq_iff ha, h]
  cases o with
  | set a v =>
    by_cases ha : a.IsIndex
    · simp only [written?, hrawEq ha]
    · simp only [written?, ha, false_and]
  | setInt n v => simp only [written?, hrawEq (show (Value.int n).IsIndex from rfl)]
  | setString str v => simp only [written?, hrawEq (show (Value.string str).IsIndex from trivial)]
  | _ => rfl

/-- The table is about to be asked for the first entry among the keys ahead, and has kept the
snapshot of the start. -/
structure Poised (t₀ t : Table) (es : List (Value × Value)) (os : List Operation)
    (all visited ahead : List Key) : Prop where
  wellFormed : t.WellFormed
  snapshot : ∃ s, t.snapshot = some s ∧ s.keys = all
  keys_eq : es.map Prod.fst = visited.map Key.toValue
  suffix : ahead <:+ all
  course : Course all visited ahead (Cleared os)
  cleared_of : ∀ k ∈ all, t.getKey k = .nil → Cleared os k

/-- No operation but the start of a traversal takes a snapshot where there is one. -/
theorem snapshot_apply {s : Snapshot} (hs : t.snapshot = some s) {o : Operation}
    (ho : o ≠ .next .nil) : (t.apply o).snapshot = some s := by
  cases o with
  | set key v =>
    rw [apply]
    cases hset : t.set key v with
    | ok t' =>
      obtain ⟨k, -, rfl⟩ := set_eq_ok_iff.1 hset
      exact (parts_put t k v).1.trans hs
    | error => exact hs
  | setInt n v => exact (parts_put t (.int n) v).1.trans hs
  | setString str v => exact (parts_put t (.string str) v).1.trans hs
  | next key =>
    have hkey : key ≠ .nil := fun he => ho (he ▸ rfl)
    rw [apply, next_eq_nextAs]
    cases hk : Key.ofValue? key with
    | none => rw [nextAs_of_not_key hkey hk, hs]
    | some k => rw [nextAs_of_snapshot hs hk, hs]
  | inext key => exact hs
  | setMetatable meta? => exact hs

namespace Poised

/-- A step of the traversal leaves the next one behind the key that it got. -/
theorem visit (h : Poised t₀ t es os all visited ahead) {entry : Value × Value}
    (hentry : t.firstEntry ahead = some entry) :
    ∃ k rest, entry = (k.toValue, t.getKey k) ∧ t.getKey k ≠ .nil ∧ k :: rest <:+ all ∧
      Poised t₀ t (es ++ [entry]) os all (visited ++ [k]) rest := by
  obtain ⟨skipped, k, rest, rfl, hskipped, hk, rfl⟩ := firstEntry_eq_some hentry
  have hsuffix : k :: rest <:+ all := (List.suffix_append _ _).trans h.suffix
  refine ⟨k, rest, rfl, hk, hsuffix, h.wellFormed, h.snapshot, ?_,
    (List.suffix_cons _ _).trans hsuffix, ?_, h.cleared_of⟩
  · rw [List.map_append, List.map_append, h.keys_eq]
    rfl
  · refine h.course.advance fun k' hk' => h.cleared_of k' ?_ (hskipped k' hk')
    exact h.suffix.subset (List.mem_append_left _ hk')

/-- Other operations leave the traversal where it is, and clear what they clear. -/
theorem apply (h : Poised t₀ t es os all visited ahead) {o : Operation} (ho : o ≠ .next .nil)
    (hall : ∀ k ∈ all, k.IsNormal) :
    Poised t₀ (t.apply o) es (os ++ [o]) all visited ahead := by
  have hlonger (k : Key) (hk : Cleared os k) : Cleared (os ++ [o]) k :=
    have ⟨o', ho', hwritten⟩ := hk
    ⟨o', List.mem_append_left _ ho', hwritten⟩
  obtain ⟨s, hs, hkeys⟩ := h.snapshot
  refine ⟨h.wellFormed.apply o, ⟨s, snapshot_apply hs ho, hkeys⟩, h.keys_eq, h.suffix,
    h.course.mono hlonger, fun k hk hnil => ?_⟩
  have hof := Key.ofValue?_toValue (hall k hk)
  have hget := get_apply h.wellFormed (Key.isSome_ofValue?_iff.1 (by rw [hof]; rfl)) o
  rw [get_of_key hof, get_of_key hof, hnil] at hget
  cases hwritten : o.written? k.toValue with
  | none =>
    rw [hwritten] at hget
    exact hlonger k (h.cleared_of k hk hget.symm)
  | some v =>
    rw [hwritten] at hget
    obtain rfl : v = .nil := hget.symm
    exact ⟨o, by simp, hwritten⟩

end Poised

/-- Between the steps of a traversal, the last key that it got tells what lies ahead. -/
def Underway (en : Enumeration) (t₀ t : Table) (es : List (Value × Value)) (os : List Operation) :
    Prop :=
  es = [] ∧ t = t₀ ∨ ∃ listed visited k ahead, en.Lists t₀.fields listed ∧
    lastKey es = k.toValue ∧ k :: ahead <:+ t₀.keysAs listed ∧
    Poised t₀ t es os (t₀.keysAs listed) visited ahead

/-- A step first makes the table poised, where it is not, and then asks for the next entry. -/
theorem Underway.next (h₀ : t₀.Arises en) (h : Underway en t₀ t es os)
    (hnext : t.Next en (lastKey es) r t') :
    ∃ listed visited ahead, en.Lists t₀.fields listed ∧
      Poised t₀ t' es os (t₀.keysAs listed) visited ahead ∧ r = .ok (t'.firstEntry ahead) ∧
      t'.array = t.array ∧ t'.fields = t.fields := by
  have hwf := h₀.tracked.toWellFormed
  obtain ⟨rfl, rfl⟩ | ⟨listed, visited, k, ahead, hks, hlast, hsuffix, hpoised⟩ := h
  · obtain ⟨ht', ha, hf, listed, s, hks, hs, hkeys, rfl⟩ := next_start h₀.tracked hnext
    refine ⟨listed, [], t.keysAs listed, hks, ⟨ht'.toWellFormed, ⟨s, hs, hkeys⟩, rfl,
      List.suffix_refl _, .start _ _, fun k hk hnil => ?_⟩, ?_, ha, hf⟩
    · exact absurd ((getKey_congr ha hf k).symm.trans hnil) ((mem_keysAs_iff hwf hks).1 hk)
    · rw [firstEntry_congr ha hf]
  · obtain ⟨s, hs, hkeys⟩ := hpoised.snapshot
    have hk : k ∈ t₀.keysAs listed := hsuffix.subset List.mem_cons_self
    have hof := Key.ofValue?_toValue (isNormal_of_mem_keysAs hwf hks hk)
    rw [hlast] at hnext
    obtain ⟨rfl, rfl⟩ := next_behind hs hof hnext
    refine ⟨listed, visited, ahead, hks, hpoised, ?_, rfl, rfl⟩
    rw [hkeys, keysAfter_of_suffix (nodup_keysAs hwf hks) hsuffix]
    rfl

theorem Traversal.underway (h₀ : t₀.Arises en) (h : Traversal en t₀ es os t) :
    Underway en t₀ t es os := by
  induction h with
  | start => exact .inl ⟨rfl, rfl⟩
  | visit h hnext ih =>
    obtain ⟨listed, visited, ahead, hks, hpoised, hr, -⟩ := ih.next h₀ hnext
    obtain ⟨k, rest, rfl, -, hsuffix, hpoised⟩ := hpoised.visit (Except.ok.inj hr).symm
    exact .inr ⟨listed, visited ++ [k], k, rest, hks, lastKey_concat _ _, hsuffix, hpoised⟩
  | meanwhile h hes ho ih =>
    obtain ⟨rfl, -⟩ | ⟨listed, visited, k, ahead, hks, hlast, hsuffix, hpoised⟩ := ih
    · exact absurd rfl hes
    · refine .inr ⟨listed, visited, k, ahead, hks, hlast, hsuffix, hpoised.apply ho fun k hk => ?_⟩
      exact isNormal_of_mem_keysAs h₀.tracked.toWellFormed hks hk

/-- **A traversal is complete and exact, whatever else is done to the table.**  The entries that
it gets have different keys, which are those of entries at the start, the array part first and
in order.  It never fails: it gets an entry that the table has at this moment, of which there are
no more than at the start, or has come to the end; then it has got each key once that had an
entry at the start and was not cleared. -/
theorem visits_of_traversal (h₀ : t₀.Arises en) (h : Traversal en t₀ es os t) :
    Visits t₀ es ∧ (∃ r t', t.Next en (lastKey es) r t') ∧
      ∀ r t', t.Next en (lastKey es) r t' →
        (∃ entry, r = .ok (some entry) ∧ Visits t₀ (es ++ [entry]) ∧ entry.2 ≠ .nil ∧
          t.get entry.1 = entry.2) ∨
        (r = .ok none ∧ ∀ key, t₀.get key ≠ .nil →
          (∀ o ∈ os, o.written? key ≠ some .nil) → es.countP (·.1.rawEq key) = 1) := by
  have hwf := h₀.tracked.toWellFormed
  have hunderway := h.underway h₀
  refine ⟨?_, exists_next en t _, fun r t' hnext => ?_⟩
  · obtain ⟨r, t', hnext⟩ := exists_next en t (lastKey es)
    obtain ⟨listed, visited, ahead, hks, hpoised, -⟩ := hunderway.next h₀ hnext
    exact .of_sublist hwf hks hpoised.course.visited_sublist hpoised.keys_eq
  · obtain ⟨listed, visited, ahead, hks, hpoised, rfl, ha, hf⟩ := hunderway.next h₀ hnext
    cases hfirst : t'.firstEntry ahead with
    | some entry =>
      obtain ⟨k, rest, rfl, hk, hsuffix, hpoised'⟩ := hpoised.visit hfirst
      refine .inl ⟨_, rfl, .of_sublist hwf hks hpoised'.course.visited_sublist hpoised'.keys_eq, hk,
        ?_⟩
      rw [get_toValue hwf hks (hsuffix.subset List.mem_cons_self), getKey_congr ha hf]
    | none =>
      refine .inr ⟨rfl, fun key hkey hstays => ?_⟩
      refine countP_eq_one hwf hks hpoised.course hpoised.keys_eq (fun k hk => ?_) hkey ?_
      · exact hpoised.cleared_of k (hpoised.suffix.subset hk) (firstEntry_eq_none_iff.1 hfirst k hk)
      · rintro k hk ⟨o, ho, hwritten⟩
        have hnormal := Key.ofValue?_toValue (Key.isNormal_of_ofValue? hk)
        exact hstays o ho ((o.written?_congr (hk.trans hnormal.symm)).trans hwritten)

/-- Between the first entry and the second, 3 is cleared, so that the array part shrinks, and 2
and "y" are added; between the second and the third, 3 comes back. -/
def disturbances : List Operation :=
  [.setInt 3 .nil, .setInt 2 (.string "b"), .setString "y" (.bool true),
    .set (.int 3) (.bool false)]

theorem visits_of_traversal_disturbed :
    ((withCapacity 2 1).after holeyOperations).Arises .inOrder ∧ ∃ es t t',
      Traversal .inOrder ((withCapacity 2 1).after holeyOperations) es disturbances t ∧
      es = [(.int 1, .string "a"), (.int 5, .string "e"), (.string "x", .bool true)] ∧
      Visits ((withCapacity 2 1).after holeyOperations) es ∧
      t.Next .inOrder (lastKey es) (.ok none) t' ∧
      es.countP (·.1.rawEq (.float ⟨0x4014000000000000⟩)) = 1 := by
  have h₀ := (reachable_after (.withCapacity 2 1) holeyOperations).arises
  have h0 : Traversal .inOrder ((withCapacity 2 1).after holeyOperations) [] [] _ := .start
  have h1 := h0.visit (next_inOrder (r := .ok (some (.int 1, .string "a"))) (by decide +kernel))
  have h2 := h1.meanwhile (o := .setInt 3 .nil) (by simp) (by simp)
  have h3 := h2.meanwhile (o := .setInt 2 (.string "b")) (by simp) (by simp)
  have h4 := h3.meanwhile (o := .setString "y" (.bool true)) (by simp) (by simp)
  have h5 := h4.visit (next_inOrder (r := .ok (some (.int 5, .string "e"))) (by decide +kernel))
  have h6 := h5.meanwhile (o := .set (.int 3) (.bool false)) (by simp) (by simp)
  have h := h6.visit (next_inOrder (r := .ok (some (.string "x", .bool true))) (by decide +kernel))
  obtain ⟨hvisits, -, hexact⟩ := visits_of_traversal h₀ h
  obtain ⟨entry, hr, -⟩ | ⟨-, hall⟩ := hexact (.ok none) _ (next_inOrder (by decide +kernel))
  · cases hr
  · exact ⟨h₀, _, _, _, h, rfl, hvisits, next_inOrder (by decide +kernel),
      hall (.float ⟨0x4014000000000000⟩) (by decide +kernel) (by decide +kernel)⟩

end Table

end LuaBytecode
