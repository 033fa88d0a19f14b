import LuaBytecode.Proofs.Call.Values
import LuaBytecode.Proofs.Instruction.Layout
import LuaBytecode.Proofs.Instruction.Mistake
import LuaBytecode.Proofs.Run.Tables

/-!
# Table constructors

A constructor makes a table in a register and evaluates its items, in batches, to the registers
behind it.  `SETLIST` stores a batch at the positions that its number tells; the number stands in
the instruction, or in the `EXTRAARG` behind it.

* `Frame.batch?`, `Frame.items` : the number of the batch, and the registers that belong to it.
* `Engine.StoresBatch` : a batch has been stored, and nothing else has changed.
* `Engine.exists_step_setList`, `Engine.step_setList_of_mistake` : what `SETLIST` does, by
  `Frame.setListMistake?`.
* `Machine.Constructs` : a constructor that has stored some items so far.
* `Machine.constructor_spec` : **the table has these items, each at its position, and no others.**
-/

namespace LuaBytecode

namespace Frame

/-- The number of the batch that `SETLIST` stores, if the code tells one. -/
def batch? (f : Frame) (i : Instruction) : Option Nat := if i.c = 0 then f.extra? else some i.c

/-- How many items `SETLIST` stores: as many as it says, or all up to the top. -/
def itemCount (f : Frame) (i : Instruction) : Nat := if i.b = 0 then f.top - (i.a + 1) else i.b

/-- The items, from the register behind the table on. -/
def items (f : Frame) (i : Instruction) : List Value :=
  f.slice (i.a + 1) (i.a + 1 + f.itemCount i)

/-- Why there is nothing that `SETLIST` could store, or nowhere where. -/
def setListMistake? (f : Frame) (i : Instruction) : Option Malformation :=
  match f.batch? i, f.get i.a with
  | none, _ => some .missingExtraArg
  | some 0, _ => some .setListBatchZero
  | some (_ + 1), .table _ => none
  | some (_ + 1), _ => some .setListTarget

variable {f : Frame} {i : Instruction} {m : Nat}

theorem length_items (f : Frame) (i : Instruction) : (f.items i).length = f.itemCount i := by
  rw [items, length_slice, Nat.add_sub_cancel_left]

theorem getD_items {k : Nat} (hk : k < f.itemCount i) :
    (f.items i).getD k .nil = f.get (i.a + 1 + k) := by
  rw [List.getD_eq_getElem?_getD, items, getElem?_slice, if_pos (by omega), Option.getD_some]

theorem list_eq_items (f : Frame) (i : Instruction) :
    f.list (i.a + 1) (if i.b = 0 then 0 else i.b + 1) = f.items i := by
  rw [list, items, slice, slice, itemCount]
  congr 2
  split <;> simp_all

/-- Numbers of batches have no more bits than an `EXTRAARG`. -/
theorem batch_lt (h : f.batch? i = some m) : m < 0x4000000 := by
  rw [batch?] at h
  split at h
  · obtain ⟨x, -, hx⟩ := Option.bind_eq_some_iff.1 h
    split at hx
    · obtain rfl := Option.some.inj hx
      exact x.extra_lt
    · cases hx
  · obtain rfl := Option.some.inj h
    exact i.c_lt.trans (by decide)

/-- Positions are 64-bit integers, as long as no endless list is open. -/
theorem last_lt (h : f.batch? i = some m)
    (hopen : i.b = 0 → (m - 1) * itemsPerBatch + f.itemCount i < 0x8000000000000000) :
    (m - 1) * itemsPerBatch + f.itemCount i < 0x8000000000000000 := by
  by_cases hb : i.b = 0
  · exact hopen hb
  · have hm := batch_lt h
    have hcount := i.b_lt
    rw [itemCount, if_neg hb, itemsPerBatch]
    omega

theorem setListMistake?_eq_none (h : f.setListMistake? i = none) :
    ∃ t m, f.get i.a = .table t ∧ f.batch? i = some m ∧ 1 ≤ m := by
  rw [setListMistake?] at h
  split at h
  · cases h
  · cases h
  · rename_i m t hbatch ht
    exact ⟨t, m + 1, ht, hbatch, Nat.le_add_left 1 m⟩
  · cases h

end Frame

/-! ### Batches of items -/

namespace Action

variable {e : Engine}

/-- An operand that is missing is all that looking for it can report. -/
theorem extraArg_of_isMalformed (h : (extraArg e).IsMalformed) :
    extraArg e = .fault (.ofCause (.malformed .missingExtraArg)) e := by
  obtain ⟨m, e', h⟩ := h
  rw [extraArg, read_bind] at h ⊢
  cases hcode : e.frame.proto.code[e.frame.pc]? with
  | none => rfl
  | some x =>
    rw [hcode] at h
    by_cases hop : x.opcode? = some .extraArg
    · simp only [hop, if_true] at h
      cases h
    · simp only [hop, if_false]
      rfl

/-- The number of the batch comes first, wherever it stands. -/
theorem setList_eq (a b c : Nat) :
    setList a b c =
      (if c = 0 then extraArg else pure c) >>= fun m => (Routine.storeBatch a b m).run := by
  rw [← Routine.run_setList, Routine.setList]
  by_cases hc : c = 0
  · rw [if_pos hc, if_pos hc, Routine.run_bind, Routine.run_extraArg]
  · rw [if_neg hc, if_neg hc]
    rfl

end Action

/-! ### The instruction -/

namespace Engine

/-- The state behind `SETLIST`, and behind the `EXTRAARG` that belongs to it, as it is when nothing
has been stored. -/
def pastBatch (e : Engine) (i : Instruction) : Engine :=
  e.updateFrame fun f => { f with pc := f.pc + if i.c = 0 then 2 else 1 }

/-- The items of a batch have been stored at their positions in the table, and apart from that
nothing has changed but the program counter. -/
structure StoresBatch (e : Engine) (i : Instruction) (t : TableRef) (m : Nat) (e' : Engine) :
    Prop where
  items : (e.heap.table t).Stores ((m - 1) * itemsPerBatch + 1) (e.frame.items i) (e'.heap.table t)
  wellFormed : (e'.heap.table t).WellFormed
  others : ∀ u, u ≠ t → e'.heap.table u = e.heap.table u
  size : e'.heap.tables.size = e.heap.tables.size
  rest : e' = { e.pastBatch i with heap := { e.heap with tables := e'.heap.tables } }

variable {e e' : Engine} {i : Instruction} {t : TableRef} {m : Nat}

theorem frame_pastBatch (hpos : 0 < e.depth) (i : Instruction) :
    (e.pastBatch i).frame = { e.frame with pc := e.frame.pc + if i.c = 0 then 2 else 1 } :=
  frame_updateFrame hpos _

/-- The number of the batch is looked up behind the instruction if need be. -/
theorem batch_fetched (hpos : 0 < e.depth) (h : e.frame.batch? i = some m) :
    (if i.c = 0 then Action.extraArg else pure i.c : Action Nat) e.fetched =
      .done m (e.pastBatch i) := by
  rw [Frame.batch?] at h
  by_cases hc : i.c = 0
  · rw [if_pos hc] at h ⊢
    obtain ⟨n, hn, hextra⟩ | ⟨hnone, -⟩ := Action.extraArg_fetched hpos
    · obtain rfl : n = m := Option.some.inj (hn.symm.trans h)
      rw [hextra, pastBatch, fetched, updateFrame_updateFrame]
      refine congrArg (Progress.done n) (updateFrame_congr ?_)
      simp only [Function.comp_apply, if_pos hc]
    · exact absurd (hnone.symm.trans h) (by simp)
  · rw [if_neg hc] at h ⊢
    obtain rfl := Option.some.inj h
    refine congrArg (Progress.done i.c) (updateFrame_congr ?_)
    simp only [if_neg hc]

theorem batch_fetched_of_none (hpos : 0 < e.depth) (h : e.frame.batch? i = none) :
    (if i.c = 0 then Action.extraArg else pure i.c : Action Nat) e.fetched =
      .fault (.ofCause (.malformed .missingExtraArg)) e.fetched := by
  rw [Frame.batch?] at h
  by_cases hc : i.c = 0
  · rw [if_pos hc] at h ⊢
    obtain ⟨n, hn, -⟩ | ⟨-, hmalformed⟩ := Action.extraArg_fetched hpos
    · exact absurd (h.symm.trans hn) (by simp)
    · exact Action.extraArg_of_isMalformed hmalformed
  · rw [if_neg hc] at h
    cases h

/-- A batch is stored at once, so no metamethod has a part in it. -/
theorem exists_step_setList (h : e.instruction? = some (.setList, i))
    (ht : e.frame.get i.a = .table t) (hbatch : e.frame.batch? i = some m) (hm : 1 ≤ m)
    (hin : t.index < e.heap.tables.size) (hwf : (e.heap.table t).WellFormed)
    (hlast : (m - 1) * itemsPerBatch + e.frame.itemCount i < 0x8000000000000000) :
    ∃ e', e.step = .done false e' ∧ e.StoresBatch i t m e' := by
  have hpos := depth_pos_of_instruction? h
  obtain ⟨n, rfl⟩ := Nat.exists_eq_add_of_le' hm
  have hstep := step_setList h ht (batch_fetched hpos hbatch)
  rw [Frame.list_eq_items, Action.storeItems_eq] at hstep
  have htable (u : TableRef) := e.heap.table_updateTable t u
    (·.setItems (n * itemsPerBatch + 1) (e.frame.items i)) hin
  rw [Nat.add_sub_cancel] at hlast
  have hstores := Table.stores_setItems hwf (n * itemsPerBatch + 1) (e.frame.items i)
    (by rw [Frame.length_items]; omega)
  refine ⟨_, hstep, ?_, ?_, fun u hu => (htable u).trans (if_neg hu.symm), Array.size_modify, rfl⟩
  · exact ((htable t).trans (if_pos rfl)).symm ▸ hstores
  · exact ((htable t).trans (if_pos rfl)).symm ▸ hwf.setItems _ _

/-- Without a batch, or without a table, nothing is stored. -/
theorem run_storeBatch_of_mistake {x : Malformation} {f : Frame} (hbatch : f.batch? i = some m)
    (hget : e.frame.get i.a = f.get i.a) (hx : f.setListMistake? i = some x) :
    (Routine.storeBatch i.a i.b m).run e = .fault (.ofCause (.malformed x)) e := by
  rw [Frame.setListMistake?, hbatch, ← hget] at hx
  cases m with
  | zero =>
    obtain rfl := Option.some.inj hx
    rfl
  | succ m =>
    rw [Routine.run_storeBatch, if_neg (Nat.succ_ne_zero m)]
    dsimp only
    rw [Action.read_bind, Action.register, Action.read_bind]
    cases hv : e.frame.get i.a with
    | table t =>
      rw [hv] at hx
      cases hx
    | _ =>
      rw [hv] at hx
      obtain rfl := Option.some.inj hx
      rfl

/-- A mistake is found before anything is stored. -/
theorem step_setList_of_mistake {x : Malformation} (h : e.instruction? = some (.setList, i))
    (hx : e.frame.setListMistake? i = some x) :
    ∃ e', e.step = .fault ⟨.malformed x,
        some ⟨e.frame.proto.source, e.frame.proto.lineAt e.frame.pc⟩⟩ e' ∧
      (e' = e.fetched ∨ e' = e.pastBatch i) := by
  have hpos := depth_pos_of_instruction? h
  suffices heffect : ∃ e', Action.setList i.a i.b i.c e.fetched =
      .fault (.ofCause (.malformed x)) e' ∧ (e' = e.fetched ∨ e' = e.pastBatch i) by
    obtain ⟨e', heffect, he'⟩ := heffect
    refine ⟨e', ?_, he'⟩
    rw [step_of_instruction? h, Opcode.effect, heffect]
    rfl
  rw [Action.setList_eq, Action.bind_apply]
  cases hbatch : e.frame.batch? i with
  | none =>
    rw [batch_fetched_of_none hpos hbatch]
    rw [Frame.setListMistake?, hbatch] at hx
    obtain rfl := Option.some.inj hx
    exact ⟨_, rfl, .inl rfl⟩
  | some m =>
    rw [batch_fetched hpos hbatch]
    refine ⟨_, run_storeBatch_of_mistake hbatch ?_ hx, .inr rfl⟩
    rw [frame_pastBatch hpos]
    rfl

theorem StoresBatch.frame_eq (h : e.StoresBatch i t m e') (hpos : 0 < e.depth) :
    e'.frame = { e.frame with pc := e.frame.pc + if i.c = 0 then 2 else 1 } := by
  rw [h.rest]
  exact frame_pastBatch hpos i

/-- `NEWTABLE` makes an empty table. -/
theorem step_newTable (h : e.instruction? = some (.newTable, i)) :
    e.step = .done false
      ({ e.fetched with heap := e.heap.newTable.2 }.updateFrame
        (·.set i.a (.table e.heap.newTable.1))) := by
  rw [step_of_instruction? h]
  rfl

end Engine

/-! ### Constructors -/

namespace Machine

/-- A constructor has made the table `t`, which is in register `a`, and stored the given items so
far.  It does nothing to the table but store batches, each behind the last one; in between items are
evaluated, which leaves the table and its register alone. -/
inductive Constructs (base : Nat) (w : List Waiting) (a : Nat) (t : TableRef) :
    List Value → Engine → Prop where
  | new {e e' : Engine} {i : Instruction} (hi : e.instruction? = some (.newTable, i))
    (ha : i.a = a) (hstep : e.step = .done false e') (ht : e'.frame.get a = .table t) :
    Constructs base w a t [] e'
  | evaluate {vs : List Value} {e e' : Engine} (h : Constructs base w a t vs e)
    (hsteps : Steps ⟨.script base (.done false e), w⟩ ⟨.script base (.done false e'), w⟩)
    (ht : e'.frame.get a = .table t)
    (hkept : e'.heap.tables[t.index]? = e.heap.tables[t.index]?) : Constructs base w a t vs e'
  | batch {vs : List Value} {e e' : Engine} {i : Instruction} {m : Nat}
    (h : Constructs base w a t vs e) (hi : e.instruction? = some (.setList, i)) (ha : i.a = a)
    (hbatch : e.frame.batch? i = some (m + 1)) (hvs : m * itemsPerBatch = vs.length)
    (hstep : e.step = .done false e') : Constructs base w a t (vs ++ e.frame.items i) e'

variable {base a : Nat} {w : List Waiting} {t : TableRef} {vs : List Value} {e e' : Engine}
  {i : Instruction}

/-- The table is empty to begin with. -/
theorem constructs_new (hi : e.instruction? = some (.newTable, i)) (hstep : e.step = .done false e')
    (ht : e'.frame.get i.a = .table t) :
    t.index < e'.heap.tables.size ∧ e'.heap.table t = {} := by
  have hpos := Engine.depth_pos_of_instruction? hi
  rw [Engine.step_newTable hi] at hstep
  obtain rfl := (Progress.done.inj hstep).2
  rw [Engine.frame_updateFrame (by exact (Engine.depth_fetched e).symm ▸ hpos), Frame.get_set,
    if_pos rfl] at ht
  obtain rfl := Value.table.inj ht
  constructor
  · change e.heap.tables.size < (e.heap.tables.push {}).size
    simp
  · change (e.heap.tables.push {}).getD e.heap.tables.size {} = {}
    simp

/-- **The table of a constructor holds the items stored so far**, and nothing else. -/
theorem Constructs.stores (h : Constructs base w a t vs e) (hvs : vs.length < 0x8000000000000000) :
    e.frame.get a = .table t ∧ t.index < e.heap.tables.size ∧ (e.heap.table t).WellFormed ∧
      Table.Stores {} 1 vs (e.heap.table t) := by
  induction h with
  | new hi ha hstep ht =>
    subst ha
    obtain ⟨hin, hempty⟩ := constructs_new hi hstep ht
    rw [hempty]
    exact ⟨ht, hin, Table.wellFormed_empty, Table.stores_nil {} 1⟩
  | @evaluate vs e e' _ _ ht hkept ih =>
    obtain ⟨-, hin, hwf, hstores⟩ := ih hvs
    have htable : e'.heap.table t = e.heap.table t := by
      rw [Heap.table, Heap.table, Array.getD_eq_getD_getElem?, hkept, ← Array.getD_eq_getD_getElem?]
    have hin' : t.index < e'.heap.tables.size := by
      rw [Array.getElem?_eq_getElem hin] at hkept
      exact (Array.getElem?_eq_some_iff.1 hkept).1
    rw [htable]
    exact ⟨ht, hin', hwf, hstores⟩
  | @batch vs e e' i m _ hi ha hbatch hlength hstep ih =>
    subst ha
    rw [List.length_append, Frame.length_items] at hvs
    obtain ⟨ht, hin, hwf, hstores⟩ := ih (by omega)
    obtain ⟨e₁, hstep₁, hbatch₁⟩ := Engine.exists_step_setList hi ht hbatch (Nat.le_add_left 1 m)
      hin hwf (by rw [Nat.add_sub_cancel]; omega)
    obtain rfl := (Progress.done.inj (hstep.symm.trans hstep₁)).2
    have hitems := hbatch₁.items
    rw [Nat.add_sub_cancel, hlength, Nat.add_comm] at hitems
    refine ⟨?_, hbatch₁.size ▸ hin, hbatch₁.wellFormed, hstores.append hitems ?_⟩
    · rw [hbatch₁.frame_eq (Engine.depth_pos_of_instruction? hi)]
      exact ht
    · rw [Frame.length_items]
      omega

/-- Arguments that are evaluated to registers behind the table. -/
theorem Constructs.vararg (h : Constructs base w a t vs e)
    (hvs : vs.length < 0x8000000000000000) (hi : e.instruction? = some (.vararg, i)) (ha : a < i.a)
    (hstep : e.step = .done false e') : Constructs base w a t vs e' := by
  have hpos := Engine.depth_pos_of_instruction? hi
  have hsteps : Steps ⟨.script base (.done false e), w⟩ ⟨.script base (.done false e'), w⟩ :=
    .of_step (step_of_step hstep)
  rw [Engine.step_vararg hi] at hstep
  obtain rfl := (Progress.done.inj hstep).2
  refine h.evaluate hsteps ?_ rfl
  rw [Engine.frame_updateFrame (by rwa [Engine.depth_fetched]), Engine.frame_fetched hpos,
    ← (h.stores hvs).1]
  split
  · rw [Frame.stored]
    exact (Frame.get_setRange ..).trans (if_neg (by omega))
  · exact (Frame.get_setRange ..).trans (if_neg (by omega))

/-- **A constructor makes a table of its items**, however many there are, and each batch has its
part in this and no other.

* `SETLIST` with a batch and a table stores the registers of the batch at the positions of the batch
  at once: no metamethod is called, and no other entry, table or register changes.  Only a list that
  is open may be too long for this: its positions have to be 64-bit integers.  The table is one of
  the heap, and well formed, as all tables of a run are.
* Otherwise it fails, and has changed no table and no register.
* So batches that go on where the last one has stopped make of a new table one that has no
  metatable and no entries but the items, each at its position; if none of them is nil, their number
  is its length. -/
theorem constructor_spec :
    (∀ (e : Engine) (i : Instruction), e.instruction? = some (.setList, i) →
      (∀ t m, e.frame.get i.a = .table t → e.frame.batch? i = some m → 1 ≤ m →
        t.index < e.heap.tables.size → (e.heap.table t).WellFormed →
        (i.b = 0 → (m - 1) * itemsPerBatch + e.frame.itemCount i < 0x8000000000000000) →
        ∃ e', e.step = .done false e' ∧ e.StoresBatch i t m e' ∧
          (∀ j, 1 ≤ j → j ≤ e.frame.itemCount i →
            (e'.heap.table t).get (.position ((m - 1) * itemsPerBatch + j)) =
              e.frame.get (i.a + j)) ∧
          ∀ r, e'.frame.get r = e.frame.get r) ∧
      ((∀ t m, e.frame.get i.a = .table t → e.frame.batch? i ≠ some (m + 1)) →
        ∃ x e', e.frame.setListMistake? i = some x ∧
          e.step = .fault ⟨.malformed x,
            some ⟨e.frame.proto.source, e.frame.proto.lineAt e.frame.pc⟩⟩ e' ∧
          e'.heap = e.heap ∧ ∀ r, e'.frame.get r = e.frame.get r)) ∧
    (∀ (base : Nat) (w : List Waiting) (a : Nat) (t : TableRef) (vs : List Value) (e : Engine),
      Constructs base w a t vs e → vs.length < 0x8000000000000000 →
      e.frame.get a = .table t ∧ t.index < e.heap.tables.size ∧ (e.heap.table t).WellFormed ∧
        (e.heap.table t).metatable = none ∧
        (∀ k < vs.length, ∀ key, (Value.position (1 + k)).rawEq key →
          (e.heap.table t).get key = vs.getD k .nil) ∧
        (∀ key, (∀ k < vs.length, ¬ (Value.position (1 + k)).rawEq key) →
          (e.heap.table t).get key = .nil) ∧
        ((∀ v ∈ vs, v ≠ .nil) → (e.heap.table t).length = vs.length)) ∧
    ∀ (config : Config) (m : Machine) (t : TableRef), Reachable config m →
      (m.engine.heap.table t).WellFormed := by
  refine ⟨fun e i hi => ⟨fun t m ht hbatch hm hin hwf hopen => ?stored, fun hmistake => ?failed⟩,
    fun base w a t vs e h hvs => ?constructed, fun config m t h => (h.tables t).wellFormed⟩
  case stored =>
    have hlast := Frame.last_lt hbatch hopen
    obtain ⟨e', hstep, hstores⟩ := Engine.exists_step_setList hi ht hbatch hm hin hwf hlast
    refine ⟨e', hstep, hstores, fun j hj hj' => ?_, fun r => ?_⟩
    · obtain ⟨k, rfl⟩ := Nat.exists_eq_add_of_le hj
      have hitem := hstores.items.item k (by rw [Frame.length_items]; omega) _
        (Table.rawEq_position_self _)
      rw [Frame.getD_items (by omega)] at hitem
      rw [← Nat.add_assoc, hitem, ← Nat.add_assoc]
    · rw [hstores.frame_eq (Engine.depth_pos_of_instruction? hi)]
      rfl
  case failed =>
    have hpos := Engine.depth_pos_of_instruction? hi
    cases hx : e.frame.setListMistake? i with
    | none =>
      obtain ⟨t, m, ht, hbatch, hm⟩ := Frame.setListMistake?_eq_none hx
      obtain ⟨n, rfl⟩ := Nat.exists_eq_add_of_le' hm
      exact absurd hbatch (hmistake t n ht)
    | some x =>
      obtain ⟨e', hstep, he'⟩ := Engine.step_setList_of_mistake hi hx
      refine ⟨x, e', rfl, hstep, ?_⟩
      obtain rfl | rfl := he'
      · exact ⟨rfl, Engine.get_fetched hpos⟩
      · refine ⟨rfl, fun r => ?_⟩
        rw [Engine.frame_pastBatch hpos]
        rfl
  case constructed =>
    obtain ⟨ht, hin, hwf, hstores⟩ := h.stores hvs
    refine ⟨ht, hin, hwf, hstores.metatable, hstores.item, fun key hkey => ?_,
      Table.length_of_stores hwf hstores hvs⟩
    rw [hstores.other key hkey, Table.get_empty]

/-- The function in hand goes on with its next instruction. -/
def goesOn : Progress Bool → Bool
  | .done false _ => true
  | _ => false

/-- The state behind some instructions, as long as none of them makes a call. -/
def behind (e : Engine) : Nat → Engine
  | 0 => e
  | n + 1 => (behind e n).step.engine

theorem step_behind {n : Nat} (h : goesOn (behind e n).step = true) :
    (behind e n).step = .done false (behind e (n + 1)) := by
  rw [behind]
  cases hstep : (behind e n).step with
  | done returns e' =>
    rw [hstep] at h
    cases returns with
    | false => rfl
    | true => cases h
  | fault f e' | await job e' go =>
    rw [hstep] at h
    cases h

/-- A function that collects its first fifty arguments, and then all of them. -/
def collecting : Prototype :=
  { isVararg := true
    code := #[.abc .newTable 0 0 0, .abc .vararg 1 51 0, .abc .setList 0 50 1,
      .abc .vararg 1 0 0, .abc .setList 0 0 0, .ax .extraArg 2, .abc .ret 0 2 0] }

/-- A call of it with sixty arguments, after some instructions. -/
def collectingSixty : Nat → Engine :=
  behind ((Engine.new .bare).push ⟨collecting, #[]⟩
    ((List.range 60).map fun n => .int (Int64.ofNat n)))

/-- A function that stores an item, but has made no table. -/
def storingNowhere : Prototype := { code := #[.abc .setList 0 1 1] }

/-- Two batches make a table of 110 items, and the first one of the second batch is the first
argument again.  Where there is no table, nothing changes. -/
theorem constructor_spec_collecting :
    (∃ e', (collectingSixty 2).step = .done false e' ∧
      (e'.heap.table ⟨2⟩).get (.position 50) = (collectingSixty 2).frame.get 50) ∧
    (∃ x e', (running storingNowhere).engine.step = .fault x e' ∧
      e'.heap = (running storingNowhere).engine.heap) ∧
    ((collectingSixty 5).heap.table ⟨2⟩).length = 110 ∧
    ((collectingSixty 5).heap.table ⟨2⟩).get (.int 51) = .int 0 := by
  obtain ⟨hset, hconstruct, -⟩ := constructor_spec
  have h1 : Constructs 0 [] 0 ⟨2⟩ [] (collectingSixty 1) :=
    .new (i := .abc .newTable 0 0 0) (e := collectingSixty 0) (by decide +kernel) rfl
      (step_behind (by decide +kernel)) (by decide +kernel)
  have h2 : Constructs 0 [] 0 ⟨2⟩ [] (collectingSixty 2) :=
    h1.vararg (i := .abc .vararg 1 51 0) (by decide) (by decide +kernel) (by decide +kernel)
      (step_behind (by decide +kernel))
  have hi2 : (collectingSixty 2).instruction? = some (.setList, .abc .setList 0 50 1) := by
    decide +kernel
  have h3 : Constructs 0 [] 0 ⟨2⟩ _ (collectingSixty 3) :=
    h2.batch (m := 0) hi2 rfl (by decide +kernel) rfl (step_behind (by decide +kernel))
  have h4 : Constructs 0 [] 0 ⟨2⟩ _ (collectingSixty 4) :=
    h3.vararg (i := .abc .vararg 1 0 0) (by decide +kernel) (by decide +kernel) (by decide +kernel)
      (step_behind (by decide +kernel))
  have hi4 : (collectingSixty 4).instruction? = some (.setList, .abc .setList 0 0 0) := by
    decide +kernel
  have h5 : Constructs 0 [] 0 ⟨2⟩ _ (collectingSixty 5) :=
    h4.batch (m := 1) hi4 rfl (by decide +kernel) (by decide +kernel)
      (step_behind (by decide +kernel))
  refine ⟨?_, ?_, ?_, ?_⟩
  · obtain ⟨-, hin, hwf2, -⟩ := hconstruct _ _ _ _ _ _ h2 (by decide)
    obtain ⟨e', hstep, -, hget, -⟩ := (hset _ _ hi2).1 ⟨2⟩ 1 (by decide +kernel) (by decide +kernel)
      (by decide) hin hwf2 (by decide)
    exact ⟨e', hstep, hget 50 (by decide) (by decide +kernel)⟩
  · have hnil : (running storingNowhere).engine.frame.get 0 = .nil := by decide +kernel
    obtain ⟨x, e', -, hstep, hheap, -⟩ := (hset (running storingNowhere).engine
      (.abc .setList 0 1 1) (by decide +kernel)).2 fun t m ht => absurd (hnil.symm.trans ht) (by simp)
    exact ⟨_, e', hstep, hheap⟩
  all_goals obtain ⟨-, -, -, -, hitem, -, hlength⟩ := hconstruct _ _ _ _ _ _ h5 (by decide +kernel)
  · exact (hlength (by decide +kernel)).trans (by decide +kernel)
  · exact (hitem 50 (by decide +kernel) _ (by decide +kernel)).trans (by decide +kernel)

end Machine

end LuaBytecode
