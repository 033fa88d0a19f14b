import Mathlib.Data.Fintype.Card
import LuaBytecode.Proofs.Run.Instruction
import LuaBytecode.Proofs.Table.FiniteMap

/-!
# Assignments to entries

A write to a value that has no entry for the key is passed on to the table that is the value's
`__newindex`, and from there in the same way.  If this ends, the assignment is what the last
value makes of it, and no value on the way has a part in it.

* `Engine.Links` : a write to one value comes to another after a number of links.
* `Engine.Links.length_le` : a chain that ends is no longer than there are tables, so the bound
  that `Action.assign` puts on chains does not show.
* `Action.assign_eq_of_links` : the whole assignment is the assignment to the last value.
* `Action.assign_of_links` : what this does to the heap, and whom it calls.
-/

namespace LuaBytecode

namespace Engine

/-- The entry of a value without metamethods. -/
def entry (e : Engine) (key : Value) : Value → Value
  | .table t => (e.heap.table t).get key
  | _ => .nil

/-- A write to `v` is passed on to `w`. -/
structure PassesOn (e : Engine) (key v w : Value) : Prop where
  absent : e.entry key v = .nil
  handler : e.metamethod v "__newindex" = w
  isTable : ∃ t, w = .table t

/-- A write to the one value comes to the other after a number of links. -/
inductive Links (e : Engine) (key : Value) : Nat → Value → Value → Prop where
  | refl (v : Value) : Links e key 0 v v
  | head {n : Nat} {v w s : Value} :
    e.PassesOn key v w → Links e key n w s → Links e key (n + 1) v s

/-- A write to the value is not passed on. -/
def Ends (e : Engine) (key s : Value) : Prop := ∀ w, ¬ e.PassesOn key s w

/-- A write to the value is one to its own entry: it is a table that has the key, or that has no
metamethod. -/
def Accepts (e : Engine) (key : Value) (t : TableRef) : Prop :=
  e.entry key (.table t) ≠ .nil ∨ e.metamethod (.table t) "__newindex" = .nil

/-- The entry of one key in one table has been written, and nothing else has changed. -/
structure Writes (e : Engine) (t : TableRef) (key v : Value) (e' : Engine) : Prop where
  get : ∀ k, (e'.heap.table t).get k = if key.rawEq k then v else (e.heap.table t).get k
  metatable : (e'.heap.table t).metatable = (e.heap.table t).metatable
  snapshot : (e'.heap.table t).snapshot = (e.heap.table t).snapshot
  others : ∀ u, u ≠ t → e'.heap.table u = e.heap.table u
  size : e'.heap.tables.size = e.heap.tables.size
  rest : e' = { e with heap := { e.heap with tables := e'.heap.tables } }

variable {e : Engine} {key v w s : Value} {m n : Nat}

/-! ### Chains -/

theorem PassesOn.unique {w' : Value} (h : e.PassesOn key v w) (h' : e.PassesOn key v w') :
    w = w' :=
  h.handler.symm.trans h'.handler

/-- From a value to the end of the chain there is one number of links. -/
theorem Links.unique (hs : e.Ends key s) (h : e.Links key m v s) (h' : e.Links key n v s) :
    m = n := by
  induction h generalizing n with
  | refl v =>
    cases h' with
    | refl => rfl
    | head hpass _ => exact absurd hpass (hs _)
  | head hpass _ ih =>
    cases h' with
    | refl => exact absurd hpass (hs _)
    | head hpass' hrest =>
      obtain rfl := hpass.unique hpass'
      rw [ih hs hrest]

theorem table_of_size_le {t : TableRef} (h : e.heap.tables.size ≤ t.index) :
    e.heap.table t = {} := by
  rw [Heap.table, Array.getD_eq_getD_getElem?, Array.getElem?_eq_none h, Option.getD_none]

/-- What a write is passed on to is written in a metatable. -/
theorem PassesOn.exists_metatable (h : e.PassesOn key v w) :
    ∃ i : Fin e.heap.tables.size, (e.heap.table ⟨i⟩).get (.string "__newindex") = w := by
  obtain ⟨t, rfl⟩ := h.isTable
  have hhandler := h.handler
  rw [metamethod] at hhandler
  cases hm : e.metatableFor v with
  | none => simp [hm] at hhandler
  | some m =>
    simp only [hm] at hhandler
    have hin : m.index < e.heap.tables.size := by
      by_contra hout
      rw [table_of_size_le (Nat.le_of_not_lt hout), Table.get_empty] at hhandler
      exact absurd hhandler (by simp)
    exact ⟨⟨m.index, hin⟩, hhandler⟩

/-- For each number of links that a chain still has to go, some metatable passes the write on to a
value that far from the end. -/
theorem Links.exists_metatable (h : e.Links key n v s) {k : Nat} (hk : k < n) :
    ∃ i : Fin e.heap.tables.size,
      e.Links key k ((e.heap.table ⟨i⟩).get (.string "__newindex")) s := by
  induction h with
  | refl v => exact absurd hk (Nat.not_lt_zero k)
  | @head n v w s hpass hrest ih =>
    obtain hlt | rfl := Nat.lt_succ_iff_lt_or_eq.1 hk
    · exact ih hlt
    · obtain ⟨i, hi⟩ := hpass.exists_metatable
      exact ⟨i, hi ▸ hrest⟩

/-- A chain that ends has at most as many links as there are tables: no metatable serves twice, as
the way from it to the end would have two lengths. -/
theorem Links.length_le (h : e.Links key n v s) (hs : e.Ends key s) : n ≤ e.heap.tables.size := by
  -- `serving k` is the metatable that passes the write on to the value `k` links from the end.
  choose serving hserving using fun k : Fin n => h.exists_metatable k.isLt
  have hinj : Function.Injective serving := by
    intro j k hjk
    have hj := hserving j
    rw [hjk] at hj
    exact Fin.ext (hj.unique hs (hserving k))
  simpa using Fintype.card_le_of_injective serving hinj

/-- The end of a chain comes only once. -/
theorem Links.ne_end (h : e.Links key (n + 1) v s) (hs : e.Ends key s) : v ≠ s := by
  rintro rfl
  exact absurd (h.unique hs (.refl v)) (Nat.succ_ne_zero n)

/-- What does not accept a write has no entry for the key. -/
theorem entry_of_not_accepts (h : ∀ t, s = .table t → ¬ e.Accepts key t) :
    e.entry key s = .nil := by
  by_contra hpresent
  cases s with
  | table t => exact h t rfl (.inl hpresent)
  | _ => exact hpresent rfl

end Engine

namespace Action

variable {e : Engine} {key object s v : Value} {n : Nat} {t : TableRef} {f : FunctionRef}

/-! ### One value -/

theorem rawEntry_eq (object key : Value) : rawEntry object key = read (·.entry key object) := by
  cases object <;> rfl

theorem assignOr_of_passesOn (passOn : Value → Action Unit) (h : e.PassesOn key object (.table t)) :
    assignOr passOn object key v e = passOn (.table t) e := by
  rw [assignOr, rawEntry_eq, read_bind, h.absent]
  cases object <;> simp only [Value.isNil, Bool.not_true, metamethod, read_bind, h.handler]

theorem assignOr_of_accepts (passOn : Value → Action Unit) (h : e.Accepts key t) :
    assignOr passOn (.table t) key v e = setRaw t key v e := by
  rw [assignOr, rawEntry_eq, read_bind]
  obtain hpresent | hhandler := h
  · cases hentry : e.entry key (.table t) <;> simp_all [Value.isNil]
  · cases e.entry key (.table t) <;>
      simp only [Value.isNil, Bool.not_true, Bool.not_false, metamethod, read_bind, hhandler]

theorem assignOr_of_function (passOn : Value → Action Unit) (habsent : e.entry key object = .nil)
    (hf : e.metamethod object "__newindex" = .function f) :
    assignOr passOn object key v e =
      (call (.function f) [object, key, v] >>= fun _ => pure ()) e := by
  rw [assignOr, rawEntry_eq, read_bind, habsent]
  cases object <;> simp only [Value.isNil, Bool.not_true, metamethod, read_bind, hf]

theorem assignOr_of_other (passOn : Value → Action Unit) (hends : e.Ends key object)
    (hreject : ∀ t, object = .table t → ¬ e.Accepts key t)
    (hf : ∀ f, e.metamethod object "__newindex" ≠ .function f) :
    assignOr passOn object key v e = .fault (.ofCause (.operand "index" object.typeName)) e := by
  have habsent : e.entry key object = .nil := Engine.entry_of_not_accepts hreject
  rw [assignOr, rawEntry_eq, read_bind, habsent]
  cases hhandler : e.metamethod object "__newindex" with
  | nil =>
    cases object with
    | table t => exact absurd (.inr hhandler) (hreject t rfl)
    | _ => simp only [metamethod, read_bind, hhandler, fail, indexFault]
  | table t => exact absurd ⟨habsent, hhandler, t, rfl⟩ (hends (.table t))
  | function f => exact absurd hhandler (hf f)
  | _ =>
    cases object <;>
      simp only [Value.isNil, Bool.not_true, metamethod, read_bind, hhandler, fail, indexFault]

/-! ### The whole chain -/

theorem assignVia_of_links (h : e.Links key n object s) (k : Nat) :
    assignVia (n + k) object key v e = assignVia k s key v e := by
  induction h with
  | refl s => rw [Nat.zero_add]
  | @head n object next s hpass _ ih =>
    obtain ⟨t, rfl⟩ := hpass.isTable
    calc assignVia (n + 1 + k) object key v e
        = assignOr (fun next => assignVia (n + k) next key v) object key v e := by
          rw [Nat.add_right_comm, assignVia]
      _ = assignVia (n + k) (.table t) key v e := assignOr_of_passesOn _ hpass
      _ = assignVia k s key v e := ih

/-- The values on the way have no part in the assignment. -/
theorem assign_eq_of_links (h : e.Links key n object s) (hs : e.Ends key s) :
    ∃ passOn, assign object key v e = assignOr passOn s key v e := by
  -- `assign` allows as many links as there are tables; `k` of them are left over.
  obtain ⟨k, hk⟩ := Nat.exists_eq_add_of_le (h.length_le hs)
  have hassign : assign object key v e = assignVia k s key v e := by
    rw [assign, read_bind, hk, assignVia_of_links h]
  rw [hassign]
  cases k <;> exact ⟨_, rfl⟩

/-! ### The write at the end -/

theorem setRaw_of_isIndex (ht : t.index < e.heap.tables.size) (hwf : (e.heap.table t).WellFormed)
    (hkey : key.IsIndex) : ∃ e', setRaw t key v e = .done () e' ∧ e.Writes t key v e' := by
  obtain ⟨k, hk⟩ := Key.exists_key hkey
  have hself : (e.heap.updateTable t (·.put k v)).table t = (e.heap.table t).put k v := by
    rw [Heap.table_updateTable _ _ _ _ ht, if_pos rfl]
  refine ⟨_, by rw [setRaw, hk], ?_, ?_, ?_, ?_, ?_, rfl⟩
  · intro key'
    rw [hself]
    exact Table.get_put hwf key hk key' v
  · rw [hself, Table.put_eq]
  · rw [hself, Table.put_eq]
  · intro u hu
    rw [Heap.table_updateTable _ _ _ _ ht, if_neg hu.symm]
  · exact Array.size_modify

theorem setRaw_of_not_isIndex (hkey : ¬ key.IsIndex) :
    setRaw t key v e = .fault (.ofCause (Table.keyFault key)) e := by
  rw [setRaw, Key.ofValue?_eq_none_iff.2 hkey]

/-- The end of the chain changes no table but itself. -/
theorem table_assignOr_of_ne {u : TableRef} (passOn : Value → Action Unit) (hends : e.Ends key s)
    (hs : ∀ t, s = .table t → t.index < e.heap.tables.size ∧ (e.heap.table t).WellFormed)
    (hu : .table u ≠ s) :
    (assignOr passOn s key v e).engine.heap.table u = e.heap.table u := by
  by_cases haccepts : ∃ t, s = .table t ∧ e.Accepts key t
  · obtain ⟨t, rfl, ht⟩ := haccepts
    rw [assignOr_of_accepts passOn ht]
    by_cases hkey : key.IsIndex
    · obtain ⟨e', hdone, hwrites⟩ := setRaw_of_isIndex (v := v) (hs t rfl).1 (hs t rfl).2 hkey
      rw [hdone]
      exact hwrites.others u fun h => hu (congrArg Value.table h)
    · rw [setRaw_of_not_isIndex hkey]
      rfl
  · have hreject : ∀ t, s = .table t → ¬ e.Accepts key t := fun t ht h => haccepts ⟨t, ht, h⟩
    by_cases hf : ∃ f, e.metamethod s "__newindex" = .function f
    · obtain ⟨f, hf⟩ := hf
      rw [assignOr_of_function passOn (Engine.entry_of_not_accepts hreject) hf]
      rfl
    · rw [assignOr_of_other passOn hends hreject fun f h => hf ⟨f, h⟩]
      rfl

/-- **An assignment takes effect at the end of its chain, and only there.**  From `object` a write
under `key` comes to `s` after some links, and `s` does not pass it on.  If `s` is a table, it is
one of the heap, and well formed as what operations make of a new one.

* If `s` accepts the write, its entry is the only thing that changes; under nil and NaN the write
  fails and changes nothing.
* If the metamethod of `s` is a function, it is called once, with `s`, the key and the value, and
  before and after the call nothing is done.
* Otherwise the assignment fails on the type of `s` and changes nothing.

No table on the way to `s` changes in any of these cases. -/
theorem assign_of_links (hlinks : e.Links key n object s) (hends : e.Ends key s)
    (hs : ∀ t, s = .table t → t.index < e.heap.tables.size ∧ (e.heap.table t).WellFormed) :
    (∀ t, s = .table t → e.Accepts key t →
      (key.IsIndex → ∃ e', assign object key v e = .done () e' ∧ e.Writes t key v e') ∧
      (key = .nil → assign object key v e = .fault (.ofCause .nilKey) e) ∧
      ∀ x, key = .float x → x.isNaN → assign object key v e = .fault (.ofCause .nanKey) e) ∧
    (∀ f, e.entry key s = .nil → e.metamethod s "__newindex" = .function f →
      ∃ go, assign object key v e = .await (.call (.function f) [s, key, v]) e go ∧
        (∀ results e', go (.ok results) e' = .done () e') ∧
        ∀ x e', go (.error x) e' = .fault x e') ∧
    ((∀ t, s = .table t → ¬ e.Accepts key t) →
      (∀ f, e.metamethod s "__newindex" ≠ .function f) →
      assign object key v e = .fault (.ofCause (.operand "index" s.typeName)) e) ∧
    ∀ m u, e.Links key (m + 1) (.table u) s →
      (assign object key v e).engine.heap.table u = e.heap.table u := by
  obtain ⟨passOn, hassign⟩ := assign_eq_of_links (v := v) hlinks hends
  rw [hassign]
  refine ⟨?accepted, ?called, assignOr_of_other passOn hends, ?earlier⟩
  case accepted =>
    rintro t rfl ht
    rw [assignOr_of_accepts passOn ht]
    refine ⟨setRaw_of_isIndex (hs t rfl).1 (hs t rfl).2, ?_, ?_⟩
    · rintro rfl
      exact setRaw_of_not_isIndex (by simp [Value.IsIndex])
    · rintro x rfl hx
      exact setRaw_of_not_isIndex (by simp [Value.IsIndex, Number.isNaN, hx])
  case called =>
    intro f habsent hf
    rw [assignOr_of_function passOn habsent hf]
    exact ⟨_, rfl, fun _ _ => rfl, fun _ _ => rfl⟩
  case earlier =>
    intro m u hu
    exact table_assignOr_of_ne passOn hends hs (hu.ne_end hends)

/-- Strings pass writes on to table 2, and this to table 4, which has an entry under `"x"` and
whose metamethod is a function. -/
def delegating : Engine where
  config := {}
  heap :=
    { tables := #[{}, Table.setString {} "__newindex" (.table ⟨2⟩), { metatable := some ⟨3⟩ },
        Table.setString {} "__newindex" (.table ⟨4⟩),
        { Table.setString {} "x" (.int 1) with metatable := some ⟨5⟩ },
        Table.setString {} "__newindex" (.function ⟨0⟩)]
      functions := #[.closure { proto := {} }] }
  globals := ⟨0⟩
  defaultMeta := ⟨1⟩

theorem wellFormed_delegating : (delegating.heap.table ⟨4⟩).WellFormed :=
  (Table.Reachable.new.apply (.setString "x" (.int 1))).apply (.setMetatable (some ⟨5⟩))
    |>.wellFormed

theorem assign_of_links_delegating :
    (∃ e', assign (.string "s") (.string "x") (.int 7) delegating = .done () e' ∧
      delegating.Writes ⟨4⟩ (.string "x") (.int 7) e') ∧
    ∃ go, assign (.string "s") (.string "y") (.int 7) delegating =
      .await (.call (.function ⟨0⟩) [.table ⟨4⟩, .string "y", .int 7]) delegating go := by
  have hlinks (key : Value) (h : delegating.entry key (.table ⟨2⟩) = .nil) :
      delegating.Links key 2 (.string "s") (.table ⟨4⟩) :=
    .head ⟨rfl, by decide +kernel, _, rfl⟩ (.head ⟨h, by decide +kernel, _, rfl⟩ (.refl _))
  have hs : ∀ t, Value.table ⟨4⟩ = .table t →
      t.index < delegating.heap.tables.size ∧ (delegating.heap.table t).WellFormed := by
    rintro t ⟨⟩
    exact ⟨by decide, wellFormed_delegating⟩
  have hpresent : delegating.entry (.string "x") (.table ⟨4⟩) ≠ .nil := by decide +kernel
  have habsent : delegating.entry (.string "y") (.table ⟨4⟩) = .nil := by decide +kernel
  have hhandler : delegating.metamethod (.table ⟨4⟩) "__newindex" = .function ⟨0⟩ := by
    decide +kernel
  constructor
  · have hends : delegating.Ends (.string "x") (.table ⟨4⟩) := fun w h => hpresent h.absent
    exact ((assign_of_links (hlinks _ (by decide +kernel)) hends hs).1 ⟨4⟩ rfl (.inl hpresent)).1
      (by decide)
  · have hends : delegating.Ends (.string "y") (.table ⟨4⟩) := by
      intro w h
      obtain ⟨t, rfl⟩ := h.isTable
      exact absurd (hhandler.symm.trans h.handler) (by simp)
    obtain ⟨-, hcall, -⟩ := assign_of_links (v := .int 7) (hlinks _ (by decide +kernel)) hends hs
    obtain ⟨go, hgo, -⟩ := hcall ⟨0⟩ habsent hhandler
    exact ⟨go, hgo⟩

end Action

end LuaBytecode
