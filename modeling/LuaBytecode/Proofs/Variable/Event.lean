import LuaBytecode.Proofs.Variable.Invariant

/-!
# What happens to cells in a step

The events in the life of a cell, as steps of a machine, and what they do to it.

* `Machine.Captures` : a new function gets the cell of a register.
* `Machine.Assigns`, `Machine.Writes` : the value that the cell shares is replaced, through the
  cell or by its own frame.
* `Machine.Closes` : a register is closed, by a jump or because its frame is left.
* `Machine.Effect.cellValue`, `Machine.cellValue_of_closing` : the value of a cell changes by the
  second kind of event and by nothing else.
* `Machine.opened_of_captures`, `Machine.Effect.opened`, `Machine.not_opened_of_closes` : a cell is
  open from a capture of its register until that is closed, and never again.
-/

namespace LuaBytecode.Machine

variable {m m' : Machine} {c : CellRef} {id : FrameId} {r : Nat} {v : Value}

/-! ### Events -/

/-- The running function assigns a value to an upvalue, which is a certain cell. -/
def Assigns (m : Machine) (c : CellRef) (v : Value) : Prop :=
  ∃ i, m.instruction? = some (.setUpvalue, i) ∧ m.engine.frame.upvalue? i.b = some c ∧
    m.engine.frame.get i.a = v

/-- A cell is open on a register of the running frame, an instruction of which goes on, and then
shares what the register holds. -/
def Writes (m m' : Machine) (c : CellRef) : Prop :=
  ∃ base p r, m'.activity = .script base p ∧ m'.engine.frame.id = m.engine.frame.id ∧
    m.engine.heap.cell c = .opened m.engine.frame.id r ∧
    m'.engine.heap.cell c = .opened m.engine.frame.id r ∧
    m'.engine.cellValue c = m'.engine.frame.get r

/-- The steps that close cells, or that prepare to. -/
inductive Closing (m : Machine) : Prop where
  | jump (i : Instruction) (h : m.instruction? = some (.jump, i))
  | ret (i : Instruction) (h : m.instruction? = some (.ret, i))
  | leave (base : Nat) (h : m.Leaves base)

/-- The step closes a register of a frame: the frame jumps out of the block of the register, or is
left, be it after a return or by unwinding. -/
inductive Closes (m : Machine) (id : FrameId) (r : Nat) : Prop where
  | jump (i : Instruction) (h : m.instruction? = some (.jump, i)) (ha : i.a ≠ 0)
    (hid : m.engine.frame.id = id) (hr : i.a - 1 ≤ r)
  | leave (base : Nat) (h : m.Leaves base)
    (hid : m.engine.frames[id.depth]?.map Frame.id = some id) (hbase : base ≤ id.depth)

/-- The step creates a function. -/
def Creates (m m' : Machine) (f : Closure) : Prop :=
  (∃ i, m.instruction? = some (.closure, i)) ∧ m.step = some m' ∧
    m'.engine.heap.functions = m.engine.heap.functions.push (.closure f)

/-- The step captures a register of a frame: it creates a function with an upvalue that is the
register, in a certain cell. -/
def Captures (m m' : Machine) (id : FrameId) (r : Nat) (c : CellRef) : Prop :=
  m.engine.frame.id = id ∧ ∃ (f : Closure) (j : Nat) (s : UInt8), m.Creates m' f ∧
    f.proto.upvalues[j]? = some (.register s) ∧ s.toNat = r ∧ f.upvalues[j]? = some c

/-! ### Where a machine stands -/

theorem instruction?_eq_some_iff {x : Opcode × Instruction} :
    m.instruction? = some x ↔
      ∃ base e, m.activity = .script base (.done false e) ∧ e.instruction? = some x := by
  obtain ⟨a, w⟩ := m
  rw [instruction?]
  dsimp only
  split
  · rename_i base e
    refine ⟨fun h => ⟨base, e, rfl, h⟩, ?_⟩
    rintro ⟨base', e', heq, h⟩
    obtain ⟨rfl, rfl⟩ : base = base' ∧ e = e' := by simpa using heq
    exact h
  · rename_i hne
    refine ⟨fun h => absurd h (by simp), ?_⟩
    rintro ⟨base, e, rfl, -⟩
    exact absurd rfl (hne base e)

/-- A machine at an instruction executes it next. -/
theorem step_of_instruction? {x : Opcode × Instruction} (h : m.instruction? = some x) :
    ∃ base e w, m = ⟨.script base (.done false e), w⟩ ∧ e.instruction? = some x ∧
      m.step = some ⟨.script base e.step, w⟩ := by
  obtain ⟨base, e, ha, hi⟩ := instruction?_eq_some_iff.1 h
  obtain ⟨a, w⟩ := m
  obtain rfl : a = _ := ha
  exact ⟨base, e, w, rfl, hi, rfl⟩

/-- A function that is left is left in the next step. -/
theorem step_of_leaves {base : Nat} (h : m.Leaves base) :
    ∃ r, m.step = some ⟨.ended r (m.engine.unwindTo base).2, m.waiting⟩ := by
  obtain ⟨a, w⟩ := m
  obtain ⟨e, he⟩ | ⟨f, e, he⟩ := h
  · obtain rfl : a = _ := he
    exact ⟨_, rfl⟩
  · obtain rfl : a = _ := he
    exact ⟨_, rfl⟩

/-- Only a machine with nothing left to do starts an operation. -/
theorem step_of_next {m₁ : Machine} (h : m.Next m') (hstep : m.step = some m₁) : m' = m₁ := by
  cases h with
  | step h => exact Option.some.inj (h.symm.trans hstep)
  | operation r e o => exact absurd hstep (by simp [Machine.step])

/-! ### Values -/

/-- **Only assignments and the cell's own frame change its value.** -/
theorem Effect.cellValue (h : m.Effect m') (hl : m.engine.Linked) (hc : m.engine.heap.HasCell c) :
    m'.engine.cellValue c = m.engine.cellValue c ∨ m.Assigns c (m'.engine.cellValue c) ∨
      m.Writes m' c := by
  cases h with
  | calm h => exact .inl (h.cellValue c)
  | pass h => exact .inl (h.cellValue c)
  | advance base p hp hop hpos h =>
    obtain heq | ⟨r, ho, ho', hvalue⟩ := h.cellValue hl hc
    · exact .inl heq
    · exact .inr (.inr ⟨base, p, r, hp, h.id_eq, ho, h.id_eq ▸ ho', hvalue⟩)
  | assign i hi d hd h =>
    by_cases hcd : c = d
    · subst hcd
      refine .inr (.inl ⟨i, hi, hd, ?_⟩)
      rw [h, Engine.cellValue_setCellValue_self (hl.passes (Engine.passes_fetched _)) hc]
    · rw [h, Engine.cellValue_setCellValue_of_ne (hl.passes (Engine.passes_fetched _)) hcd]
      exact .inl ((Engine.passes_fetched _).cellValue c)
  | close i hi ha h =>
    rw [h, Engine.cellValue_closeCells (hl.passes (Engine.passes_jumped _ i))]
    exact .inl ((Engine.passes_jumped _ i).cellValue c)
  | push cl args h =>
    rw [h]
    exact .inl (Engine.cellValue_push hl cl args c)
  | load p h =>
    rw [h]
    exact .inl (Engine.cellValue_load hl p hc)
  | leave base hbase hleave h =>
    rw [h]
    exact .inl (Engine.cellValue_unwindTo hl base c)

/-- **Closing is invisible**: where cells are closed, or are about to be, no cell changes its
value. -/
theorem cellValue_of_closing (hl : m.engine.Linked) (hn : m.Next m') (h : m.Closing)
    (c : CellRef) : m'.engine.cellValue c = m.engine.cellValue c := by
  cases h with
  | jump i hi =>
    obtain ⟨base, e, w, rfl, hi, hstep⟩ := step_of_instruction? hi
    obtain rfl := step_of_next hn hstep
    change e.step.engine.cellValue c = e.cellValue c
    rw [Engine.step_jump hi, Progress.engine_done, ← (Engine.passes_jumped e i).cellValue c]
    split
    · exact Engine.cellValue_closeCells (hl.passes (Engine.passes_jumped e i)) _ c
    · rfl
  | ret i hi =>
    obtain ⟨base, e, w, rfl, hi, hstep⟩ := step_of_instruction? hi
    obtain rfl := step_of_next hn hstep
    change e.step.engine.cellValue c = e.cellValue c
    rw [Engine.step_ret hi, Progress.engine_done]
    exact (Engine.passes_returned e i).cellValue c
  | leave base hleave =>
    obtain ⟨r, hstep⟩ := step_of_leaves hleave
    obtain rfl := step_of_next hn hstep
    exact Engine.cellValue_unwindTo hl base c

/-- An assignment is what its cell shares then. -/
theorem cellValue_of_assigns (hl : m.engine.Linked) (hn : m.Next m') (h : m.Assigns c v)
    (hc : m.engine.heap.HasCell c) : m'.engine.cellValue c = v := by
  obtain ⟨i, hi, hup, rfl⟩ := h
  obtain ⟨base, e, w, rfl, hi, hstep⟩ := step_of_instruction? hi
  obtain rfl := step_of_next hn hstep
  obtain ⟨hnone, -⟩ | ⟨d, hd, heq⟩ := Engine.step_setUpvalue hi
  · exact absurd (hup.symm.trans hnone) (by simp)
  · obtain rfl : c = d := Option.some.inj (hup.symm.trans hd)
    change e.step.engine.cellValue c = e.frame.get i.a
    rw [heq]
    exact Engine.cellValue_setCellValue_self (hl.passes (Engine.passes_fetched e)) hc _

/-! ### Open and closed -/

/-- Cells stay given out. -/
theorem Effect.hasCell (h : m.Effect m') (hc : m.engine.heap.HasCell c) :
    m'.engine.heap.HasCell c := by
  cases h with
  | calm h => exact (h.hasCell_iff c).2 hc
  | pass h => rwa [h.heap_eq]
  | advance base p hp hop hpos h => exact h.hasCell c hc
  | assign i hi d hd h =>
    rw [h]
    exact (Engine.hasCell_setCellValue_iff _ _ _).2 hc
  | close i hi ha h =>
    rw [h]
    exact (Engine.hasCell_closeFrom_iff _ _ _).2 hc
  | push cl args h => exact h ▸ hc
  | load p h =>
    rw [h]
    exact Engine.hasCell_load p hc
  | leave base hbase hleave h =>
    rw [h]
    exact (Engine.hasCell_popMany_iff _ _).2 hc

/-- A cell that is open was open before, on the same register. -/
theorem Effect.opened_of_opened (h : m.Effect m') (hl : m.engine.Linked)
    (hc : m.engine.heap.HasCell c) (ho : m'.engine.heap.cell c = .opened id r) :
    m.engine.heap.cell c = .opened id r := by
  cases h with
  | calm h => rwa [h.cell_eq] at ho
  | pass h => rwa [h.heap_eq] at ho
  | advance base p hp hop hpos h => rwa [h.cell_eq c hc] at ho
  | assign i hi d hd h =>
    rw [h] at ho
    exact (Engine.opened_setCellValue_iff m.engine.fetched _ _).1 ho
  | close i hi ha h =>
    rw [h] at ho
    exact (((hl.passes (Engine.passes_jumped _ i)).opened_closeCells_iff _).1 ho).1
  | push cl args h => rwa [h] at ho
  | load p h =>
    rw [h] at ho
    exact (Heap.opened_newClosedCells_iff _ _).1 ho
  | leave base hbase hleave h =>
    rw [h] at ho
    exact ((hl.opened_unwindTo_iff hbase).1 ho).1

/-- An open cell stays open unless its register is closed. -/
theorem Effect.opened (h : m.Effect m') (hl : m.engine.Linked)
    (ho : m.engine.heap.cell c = .opened id r) (hkeep : ¬ m.Closes id r) :
    m'.engine.heap.cell c = .opened id r := by
  cases h with
  | calm h => rwa [h.cell_eq]
  | pass h => rwa [h.heap_eq]
  | advance base p hp hop hpos h => rwa [h.cell_eq c (Heap.hasCell_of_opened ho)]
  | assign i hi d hd h =>
    rw [h]
    exact (Engine.opened_setCellValue_iff _ _ _).2 ho
  | close i hi ha h =>
    rw [h]
    refine ((hl.passes (Engine.passes_jumped _ i)).opened_closeCells_iff _).2 ⟨ho, fun hid => ?_⟩
    rw [(Engine.passes_jumped m.engine i).advances.id_eq] at hid
    exact Nat.lt_of_not_le fun hr => hkeep (.jump i hi ha hid.symm hr)
  | push cl args h => rwa [h]
  | load p h =>
    rw [h]
    exact (Heap.opened_newClosedCells_iff _ _).2 ho
  | leave base hbase hleave h =>
    rw [h]
    refine (hl.opened_unwindTo_iff hbase).2 ⟨ho, Nat.lt_of_not_le fun hle => hkeep ?_⟩
    -- the frame of the cell is on the stack, hence one of those that are left
    obtain ⟨f, hf, hid, -⟩ := hl.frame_of_open ho
    exact .leave base hleave (by rw [hf, Option.map_some, hid]) hle

/-- A cell of a register that is closed is closed. -/
theorem not_opened_of_closes (hl : m.engine.Linked) (hn : m.Next m') (h : m.Closes id r) :
    m'.engine.heap.cell c ≠ .opened id r := by
  intro ho
  cases h with
  | jump i hi ha hid hr =>
    obtain ⟨base, e, w, rfl, hi, hstep⟩ := step_of_instruction? hi
    obtain rfl := step_of_next hn hstep
    change e.step.engine.heap.cell c = _ at ho
    rw [Engine.step_jump hi, if_pos ha] at ho
    have hlt := (((hl.passes (Engine.passes_jumped e i)).opened_closeCells_iff _).1 ho).2
    rw [(Engine.passes_jumped e i).advances.id_eq] at hlt
    exact absurd (hlt hid.symm) (Nat.not_lt.2 hr)
  | leave base hleave hid hbase =>
    obtain ⟨s, hstep⟩ := step_of_leaves hleave
    obtain rfl := step_of_next hn hstep
    obtain ⟨f, hf, -⟩ := Option.map_eq_some_iff.1 hid
    have hlt := Engine.lt_depth_of_getElem? hf
    exact absurd ((hl.opened_unwindTo_iff (by omega)).1 ho).2 (by omega)

/-- A register that is captured has the cell. -/
theorem opened_of_captures (hl : m'.engine.Linked) (h : m.Captures m' id r c) :
    m'.engine.heap.cell c = .opened id r := by
  obtain ⟨rfl, f, j, s, ⟨⟨i, hi⟩, hm', hfun⟩, hs, rfl, hc⟩ := h
  obtain ⟨base, e, w, rfl, hi, hstep⟩ := step_of_instruction? hi
  obtain rfl := Option.some.inj (hm'.symm.trans hstep)
  obtain hsame | ⟨p, cells, hpush, hlookup⟩ := Engine.step_closure hi
  · -- a step that fails has not added a function
    have hsize := congrArg Array.size (hsame.symm.trans hfun)
    simp [Machine.engine, Activity.engine] at hsize
  · obtain rfl : Closure.mk p cells = f := by
      simpa using Array.push_inj_right.1 (hpush.symm.trans hfun)
    have hlocal : ∀ op j, e.instruction? = some (op, j) → op.isLocal := by
      intro op j hj
      obtain ⟨rfl, -⟩ := Prod.mk.inj (Option.some.inj (hi.symm.trans hj))
      rfl
    have hadv : e.Advances e.step.engine := (Engine.walks_step hlocal).engine
    exact hadv.id_eq ▸ hl.open_of_lookup (hlookup j s c hs hc)

end LuaBytecode.Machine
