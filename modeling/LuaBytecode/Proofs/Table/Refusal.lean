import LuaBytecode.Proofs.Table.Enumeration

/-!
# Keys that a step refuses

A step looks its key up in the key order of the table.  The order is taken by the first step, and
again by each start of a traversal after a write, so whether a key is refused does not depend on
the entries of the table but on those that it had when the order in force was taken.

* `Table.Past` : what a step depends on, apart from the table; `Table.HasPast` tells how it comes
  about.
* `Table.Remembers` : the invariant that ties a table to its past.
* `Table.Answers` : which keys are accepted, which are refused, and what comes of them.
* `Table.next_of_arises` : every table answers every step in this way.
* `Table.exists_entry_refused` : an entry that is new since the order was taken is refused.
-/

namespace LuaBytecode

namespace Table

/-- The part that the past of a table has in its steps. -/
structure Past where
  /-- The table as it was when its key order was last taken. -/
  origin : Option Table := none
  /-- The table was written since. -/
  written : Bool := false

/-- A step takes the key order if there is none yet, or if it starts a traversal after a write. -/
def Past.Takes (p : Past) (key : Value) : Prop :=
  p.origin = none ∧ (key = .nil ∨ key.IsIndex) ∨ p.written = true ∧ key = .nil

/-- The tables that come about from a new one, with their pasts. -/
inductive HasPast (en : Enumeration) : Past → Table → Prop where
  | new : HasPast en {} {}
  | withCapacity (slots fields : Nat) : HasPast en {} (withCapacity slots fields)
  | set {p : Past} {t t' : Table} {key v : Value} (h : HasPast en p t)
    (hset : t.set key v = .ok t') : HasPast en { p with written := true } t'
  | setMetatable {p : Past} {t : Table} (meta? : Option TableRef) (h : HasPast en p t) :
    HasPast en p { t with metatable := meta? }
  | take {p : Past} {t t' : Table} {key : Value} {r : Except Complaint (Option (Value × Value))}
    (h : HasPast en p t) (hnext : t.Next en key r t') (hp : p.Takes key) :
    HasPast en { origin := some t } t'
  | keep {p : Past} {t t' : Table} {key : Value} {r : Except Complaint (Option (Value × Value))}
    (h : HasPast en p t) (hnext : t.Next en key r t') (hp : ¬ p.Takes key) : HasPast en p t'

/-- The answer to a step behind `k` in a key order: the first of the later keys that has an entry
in the table, or the end if none has. -/
inductive Continues (t : Table) (order : List Key) (k : Key) : Option (Value × Value) → Prop where
  | entry {skipped rest : List Key} {k' : Key} (hlater : k :: (skipped ++ k' :: rest) <:+ order)
    (hskipped : ∀ x ∈ skipped, t.getKey x = .nil) (hk' : t.getKey k' ≠ .nil) :
    Continues t order k (some (k'.toValue, t.getKey k'))
  | finish {rest : List Key} (hlater : k :: rest <:+ order)
    (hrest : ∀ x ∈ rest, t.getKey x = .nil) : Continues t order k none

/-- How a step is answered, where the key order in force behind a key was taken of the table
`origin`. -/
structure Answers (origin t : Table) (key : Value) (r : Except Complaint (Option (Value × Value)))
    (t' : Table) : Prop where
  /-- The order has once each key that had an entry then.  These keys are accepted, also those that
  have lost their entry since. -/
  of_listed : ∀ k, Key.ofValue? key = some k → origin.getKey k ≠ .nil →
    t'.lastSnapshot.keys.Nodup ∧ (∀ x, x ∈ t'.lastSnapshot.keys ↔ origin.getKey x ≠ .nil) ∧
      ∃ answer, r = .ok answer ∧ t.Continues t'.lastSnapshot.keys k answer
  /-- Only NaN and keys that had no entry then are refused. -/
  of_error : ∀ c, r = .error c → c = .staleKey ∧
    ((∃ x : Double, key = .float x ∧ x.isNaN = true) ∨ key.IsIndex ∧ origin.get key = .nil)
  /-- NaN is refused always, and so is an entry that is new since then. -/
  refused : (∃ x : Double, key = .float x ∧ x.isNaN = true) ∨
    origin.get key = .nil ∧ t.get key ≠ .nil → r = .error .staleKey

variable {en : Enumeration} {p : Past} {t t' origin : Table} {k : Key} {key : Value}
  {order rest : List Key} {r : Except Complaint (Option (Value × Value))}

/-! ### Pasts -/

theorem HasPast.arises (h : HasPast en p t) : t.Arises en := by
  induction h with
  | new => exact .new
  | withCapacity slots fields => exact .withCapacity slots fields
  | set _ hset ih => exact ih.set hset
  | setMetatable meta? _ ih => exact ih.setMetatable meta?
  | take _ hnext _ ih => exact ih.next hnext
  | keep _ hnext _ ih => exact ih.next hnext

theorem Arises.exists_past (h : t.Arises en) : ∃ p, HasPast en p t := by
  induction h with
  | new => exact ⟨_, .new⟩
  | withCapacity slots fields => exact ⟨_, .withCapacity slots fields⟩
  | set _ hset ih => exact ih.imp' _ fun _ hp => hp.set hset
  | setMetatable meta? _ ih => exact ih.imp fun _ hp => hp.setMetatable meta?
  | @next t t' key r _ hnext ih =>
    obtain ⟨p, hp⟩ := ih
    by_cases htakes : p.Takes key
    · exact ⟨_, hp.take hnext htakes⟩
    · exact ⟨p, hp.keep hnext htakes⟩

/-- The table is marked as written just if it was, and its last snapshot is the key order that was
taken last. -/
structure Remembers (en : Enumeration) (p : Past) (t : Table) : Prop where
  dirty_eq : t.dirty = p.written
  of_none : p.origin = none → t.snapshot = none
  of_some : ∀ o, p.origin = some o → o.WellFormed ∧ ∃ s listed,
    t.snapshot = some s ∧ en.Lists o.fields listed ∧ s.keys = o.keysAs listed

theorem Remembers.isNone_snapshot (h : t.Remembers en p) :
    t.snapshot.isNone = true ↔ p.origin = none := by
  cases ho : p.origin with
  | none => simp [h.of_none ho]
  | some o =>
    obtain ⟨-, s, -, hs, -⟩ := h.of_some o ho
    simp [hs]

/-- A step takes a snapshot or leaves the table alone. -/
theorem Remembers.next_cases (h : t.Remembers en p) (hnext : t.Next en key r t') :
    (p.Takes key ∧ ∃ listed, en.Lists t.fields listed ∧ t' = t.renewAs listed) ∨
      ¬ p.Takes key ∧ t' = t := by
  obtain ⟨listed, hks, hstep⟩ := hnext
  obtain rfl | hkey := em (key = .nil)
  · have htakes : (t.snapshot.isNone || t.dirty) = true ↔ p.Takes .nil := by
      rw [Bool.or_eq_true, h.isNone_snapshot, h.dirty_eq]
      simp [Past.Takes]
    rw [nextAs] at hstep
    obtain rfl := (Prod.mk.inj hstep).2
    split
    · exact .inl ⟨htakes.1 ‹_›, listed, hks, rfl⟩
    · exact .inr ⟨mt htakes.2 ‹_›, rfl⟩
  · have htakes : p.Takes key ↔ p.origin = none ∧ key.IsIndex := by simp [Past.Takes, hkey]
    rw [htakes, ← Key.isSome_ofValue?_iff, ← h.isNone_snapshot]
    cases hk : Key.ofValue? key with
    | none =>
      rw [nextAs_of_not_key hkey hk] at hstep
      exact .inr ⟨by simp, (Prod.mk.inj hstep).2.symm⟩
    | some k =>
      rw [nextAs_of_key hk rfl] at hstep
      obtain rfl := (Prod.mk.inj hstep).2
      split
      · exact .inl ⟨⟨‹_›, rfl⟩, listed, hks, rfl⟩
      · exact .inr ⟨fun hsome => ‹¬ _› hsome.1, rfl⟩

theorem Remembers.of_renewAs (ht : t.WellFormed) (hks : en.Lists t.fields order) :
    (t.renewAs order).Remembers en { origin := some t } where
  dirty_eq := rfl
  of_none := nofun
  of_some := by
    rintro o ⟨⟩
    exact ⟨ht, _, order, rfl, hks, rfl⟩

/-- **A table remembers its past.** -/
theorem HasPast.remembers (h : HasPast en p t) : t.Remembers en p := by
  induction h with
  | new => exact ⟨rfl, fun _ => rfl, nofun⟩
  | withCapacity slots fields => exact ⟨rfl, fun _ => rfl, nofun⟩
  | @set p t t' key v _ hset ih =>
    obtain ⟨k, -, rfl⟩ := set_eq_ok_iff.1 hset
    obtain ⟨hsnapshot, hdirty⟩ := parts_put t k v
    refine ⟨hdirty, fun ho => hsnapshot.trans (ih.of_none ho), fun o ho => ?_⟩
    rw [hsnapshot]
    exact ih.of_some o ho
  | setMetatable meta? _ ih => exact ⟨ih.dirty_eq, ih.of_none, ih.of_some⟩
  | take h hnext hp ih =>
    obtain ⟨-, listed, hks, rfl⟩ | ⟨hnot, -⟩ := ih.next_cases hnext
    · exact .of_renewAs h.arises.tracked.toWellFormed hks
    · exact absurd hp hnot
  | keep _ hnext hp ih =>
    obtain ⟨htakes, -⟩ | ⟨-, rfl⟩ := ih.next_cases hnext
    · exact absurd htakes hp
    · exact ih

/-! ### Answers -/

theorem continues_firstEntry (h : k :: rest <:+ order) :
    t.Continues order k (t.firstEntry rest) := by
  cases hfirst : t.firstEntry rest with
  | none => exact .finish h (firstEntry_eq_none_iff.1 hfirst)
  | some entry =>
    obtain ⟨skipped, k', rest', rfl, hskipped, hk', rfl⟩ := firstEntry_eq_some hfirst
    exact .entry h hskipped hk'

/-- A key is looked up in the order that was taken last, or that is taken now. -/
theorem HasPast.next_of_key (h : HasPast en p t) (hk : Key.ofValue? key = some k)
    (hnext : t.Next en key r t') :
    ∃ listed, (p.origin.getD t).WellFormed ∧ en.Lists (p.origin.getD t).fields listed ∧
      t'.lastSnapshot.keys = (p.origin.getD t).keysAs listed ∧
        r = (keysAfter k t'.lastSnapshot.keys).elim (.error .staleKey) fun ks =>
          .ok (t.firstEntry ks) := by
  cases ho : p.origin with
  | none =>
    obtain ⟨listed, hks, hstep⟩ := hnext
    have hrenew : t.renewAs listed = if t.snapshot.isNone then t.renewAs listed else t :=
      (if_pos (h.remembers.isNone_snapshot.2 ho)).symm
    rw [nextAs_of_key hk hrenew] at hstep
    obtain ⟨rfl, rfl⟩ := Prod.mk.inj hstep
    refine ⟨listed, h.arises.tracked.toWellFormed, hks, rfl, ?_⟩
    congr 1
    funext ks
    rw [firstEntry_congr (show (t.renewAs listed).array = t.array from rfl) rfl]
  | some o =>
    obtain ⟨hwf, s, listed, hs, hks, hkeys⟩ := h.remembers.of_some o ho
    obtain ⟨rfl, rfl⟩ := next_behind hs hk hnext
    refine ⟨listed, hwf, hks, ?_, ?_⟩ <;> rw [lastSnapshot, hs]
    · exact hkeys
    · rfl

/-- What comes of a key that is looked up. -/
theorem Answers.of_keysAfter (hk : Key.ofValue? key = some k)
    (hnodup : t'.lastSnapshot.keys.Nodup)
    (hmem : ∀ x, x ∈ t'.lastSnapshot.keys ↔ origin.getKey x ≠ .nil)
    (hr : r = (keysAfter k t'.lastSnapshot.keys).elim (.error .staleKey) fun ks =>
      .ok (t.firstEntry ks)) : Answers origin t key r t' where
  of_listed := by
    intro k' hk' hlisted
    obtain rfl : k = k' := Option.some.inj (hk.symm.trans hk')
    refine ⟨hnodup, hmem, ?_⟩
    cases hrest : keysAfter k t'.lastSnapshot.keys with
    | none => exact absurd ((hmem k).2 hlisted) (keysAfter_eq_none_iff.1 hrest)
    | some rest =>
      rw [hrest] at hr
      exact ⟨_, hr, continues_firstEntry (suffix_of_keysAfter hrest)⟩
  of_error := by
    rintro c rfl
    cases hrest : keysAfter k t'.lastSnapshot.keys with
    | none =>
      have hunlisted : origin.getKey k = .nil :=
        not_not.1 (mt (hmem k).2 (keysAfter_eq_none_iff.1 hrest))
      rw [hrest] at hr
      refine ⟨Except.error.inj hr, .inr ⟨?_, (get_of_key hk).trans hunlisted⟩⟩
      exact Key.isSome_ofValue?_iff.1 (Option.isSome_of_eq_some hk)
    | some rest =>
      rw [hrest] at hr
      cases hr
  refused := by
    rintro (hnan | ⟨hunlisted, -⟩)
    · have hkey : key ≠ .nil := by
        rintro rfl
        cases hk
      exact absurd (hk.symm.trans ((Key.ofValue?_eq_none_iff_isNaN hkey).2 hnan)) (by simp)
    · rw [get_of_key hk] at hunlisted
      have hrest := keysAfter_eq_none_iff.2 fun h => (hmem k).1 h hunlisted
      rw [hr, hrest]
      rfl

theorem HasPast.answers (h : HasPast en p t) (hnext : t.Next en key r t') :
    Answers (p.origin.getD t) t key r t' := by
  obtain rfl | hkey := em (key = .nil)
  · obtain ⟨-, -, -, -, -, -, -, -, rfl⟩ := next_start h.arises.tracked hnext
    refine ⟨nofun, nofun, ?_⟩
    rintro (⟨x, ⟨⟩, -⟩ | ⟨-, hlive⟩)
    exact absurd (get_of_not_isIndex id) hlive
  · cases hk : Key.ofValue? key with
    | none =>
      have hnan := (Key.ofValue?_eq_none_iff_isNaN hkey).1 hk
      obtain ⟨listed, -, hstep⟩ := hnext
      rw [nextAs_of_not_key hkey hk] at hstep
      obtain ⟨rfl, rfl⟩ := Prod.mk.inj hstep
      refine ⟨fun k hk' => absurd (hk.symm.trans hk') (by simp), ?_, fun _ => rfl⟩
      rintro c ⟨⟩
      exact ⟨rfl, .inl hnan⟩
    | some k =>
      obtain ⟨listed, hwf, hks, hkeys, hr⟩ := h.next_of_key hk hnext
      refine .of_keysAfter hk ?_ (fun x => ?_) hr <;> rw [hkeys]
      · exact nodup_keysAs hwf hks
      · exact mem_keysAs_iff hwf hks

/-- **A step accepts the keys that had an entry when the key order in force was taken.**  A table
that has come about has a past, and whatever past it has, each step can be taken and is answered
as the table says from which the order was last taken, or else is taken now. -/
theorem next_of_arises (h : t.Arises en) :
    (∃ p, HasPast en p t) ∧ ∀ p, HasPast en p t → ∀ key,
      (∃ r t', t.Next en key r t') ∧
        ∀ r t', t.Next en key r t' → Answers (p.origin.getD t) t key r t' :=
  ⟨h.exists_past, fun _ hp key => ⟨exists_next en t key, fun _ _ hnext => hp.answers hnext⟩⟩

/-- An entry is added while a traversal is under way. -/
def lateEntry : List Operation :=
  [.setString "x" (.bool true), .next .nil, .setString "y" (.bool true)]

theorem next_of_arises_lateEntry :
    (after {} lateEntry).Arises .inOrder ∧
      (∀ r t', (after {} lateEntry).Next .inOrder (.string "x") r t' → ∃ answer, r = .ok answer) ∧
      (after {} lateEntry).get (.string "y") ≠ .nil ∧
      ∀ r t', (after {} lateEntry).Next .inOrder (.string "y") r t' → r = .error .staleKey := by
  have h0 : HasPast .inOrder {} {} := .new
  have h1 := h0.set (show Table.set _ (.string "x") (.bool true) = .ok _ from rfl)
  have htakes : Past.Takes { written := true } .nil := .inl ⟨rfl, .inl rfl⟩
  have h2 := h1.take (next_inOrder rfl) htakes
  have h3 := h2.set (show Table.set _ (.string "y") (.bool true) = .ok _ from rfl)
  have hpast : HasPast .inOrder _ (after {} lateEntry) := h3
  have hlive : (after {} lateEntry).get (.string "y") ≠ .nil := by decide +kernel
  obtain ⟨-, hanswers⟩ := next_of_arises hpast.arises
  refine ⟨hpast.arises, fun r t' hnext => ?_, hlive, fun r t' hnext => ?_⟩
  · obtain ⟨-, -, answer, hr, -⟩ := ((hanswers _ hpast _).2 r t' hnext).of_listed (.string "x") rfl
      (by decide +kernel)
    exact ⟨answer, hr⟩
  · exact ((hanswers _ hpast _).2 r t' hnext).refused (.inr ⟨by decide +kernel, hlive⟩)

/-- Not every entry is accepted: one that comes after the start of a traversal is refused. -/
theorem exists_entry_refused :
    ¬ ∀ (t : Table) (key : Value), t.Arises .inOrder → t.get key ≠ .nil →
      ∀ r t', t.Next .inOrder key r t' → r ≠ .error .staleKey := by
  intro hnever
  have h : (after {} [.next .nil, .setInt 1 (.string "a")]).Arises .inOrder :=
    (reachable_after .new _).arises
  exact hnever _ (.int 1) h (by decide +kernel) (.error .staleKey) _
    (next_inOrder (by decide +kernel)) rfl

end Table

end LuaBytecode
