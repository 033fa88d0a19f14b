import LuaBytecode.Proofs.Variable.Stack

/-!
# How the variables change

Between two calls an instruction works on the running frame and on the heap.  What matters to the
variables that functions share is told by a few relations between states:

* `Engine.Calm` : no frame and no cell has changed;
* `Engine.Advances` : the running frame has gone on.  It may have written its registers and
  captured some of them in new cells, but every other frame, every cell that was there and every
  capture is as it was;
* `Engine.Passes` : the running frame has gone on and has not even written its registers.

`Engine.Calm` and `Engine.Advances` are reflexive and transitive, so an action has them as soon as
its parts have.
-/

namespace LuaBytecode.Engine

variable {e e₁ e₂ : Engine}

/-! ### Nothing changes -/

/-- No frame and no cell has changed; tables, functions and counters may have. -/
structure Calm (e e' : Engine) : Prop where
  frames_eq : e'.frames = e.frames
  cells_eq : e'.heap.cells = e.heap.cells
  serial_eq : e'.serial = e.serial

namespace Calm

theorem refl (e : Engine) : e.Calm e := ⟨rfl, rfl, rfl⟩

theorem trans (h₁ : e.Calm e₁) (h₂ : e₁.Calm e₂) : e.Calm e₂ :=
  ⟨h₂.frames_eq.trans h₁.frames_eq, h₂.cells_eq.trans h₁.cells_eq,
    h₂.serial_eq.trans h₁.serial_eq⟩

theorem depth_eq (h : e.Calm e₁) : e₁.depth = e.depth := congrArg Array.size h.frames_eq

theorem frame_eq (h : e.Calm e₁) : e₁.frame = e.frame := by
  rw [frame, frame, h.frames_eq]

theorem cell_eq (h : e.Calm e₁) (c : CellRef) : e₁.heap.cell c = e.heap.cell c :=
  Heap.cell_congr h.cells_eq c

theorem hasCell_iff (h : e.Calm e₁) (c : CellRef) : e₁.heap.HasCell c ↔ e.heap.HasCell c := by
  rw [Heap.HasCell, Heap.HasCell, h.cells_eq]

end Calm

/-! ### The running frame goes on -/

/-- The running frame has gone on from `e`: it may have written its registers and captured some
of them in new cells. -/
structure Advances (e e' : Engine) : Prop where
  depth_eq : e'.depth = e.depth
  serial_eq : e'.serial = e.serial
  getElem?_below : ∀ i, i + 1 < e.depth → e'.frames[i]? = e.frames[i]?
  id_eq : e'.frame.id = e.frame.id
  hasCell : ∀ c, e.heap.HasCell c → e'.heap.HasCell c
  cell_eq : ∀ c, e.heap.HasCell c → e'.heap.cell c = e.heap.cell c
  lookup : ∀ r c, e.frame.openCells.lookup r = some c → e'.frame.openCells.lookup r = some c
  /-- A new open cell is on a register of the running frame. -/
  lookup_of_new : 0 < e.depth → ∀ c id r, ¬ e.heap.HasCell c → e'.heap.cell c = .opened id r →
    id = e.frame.id ∧ e'.frame.openCells.lookup r = some c
  /-- A new capture is a new open cell. -/
  new_of_mem : ∀ r c, (r, c) ∈ e'.frame.openCells → (r, c) ∉ e.frame.openCells →
    ¬ e.heap.HasCell c ∧ e'.heap.cell c = .opened e.frame.id r

theorem Calm.advances (h : e.Calm e₁) : e.Advances e₁ where
  depth_eq := h.depth_eq
  serial_eq := h.serial_eq
  getElem?_below i _ := by rw [h.frames_eq]
  id_eq := by rw [h.frame_eq]
  hasCell c := (h.hasCell_iff c).2
  cell_eq c _ := h.cell_eq c
  lookup r c hr := by rwa [h.frame_eq]
  lookup_of_new _ c id r hc ho := absurd (Heap.hasCell_of_opened (h.cell_eq c ▸ ho)) hc
  new_of_mem r c hmem hnot := absurd (h.frame_eq ▸ hmem) hnot

namespace Advances

theorem refl (e : Engine) : e.Advances e := (Calm.refl e).advances

theorem trans (h₁ : e.Advances e₁) (h₂ : e₁.Advances e₂) : e.Advances e₂ where
  depth_eq := h₂.depth_eq.trans h₁.depth_eq
  serial_eq := h₂.serial_eq.trans h₁.serial_eq
  getElem?_below i hi :=
    (h₂.getElem?_below i (h₁.depth_eq ▸ hi)).trans (h₁.getElem?_below i hi)
  id_eq := h₂.id_eq.trans h₁.id_eq
  hasCell c hc := h₂.hasCell c (h₁.hasCell c hc)
  cell_eq c hc := (h₂.cell_eq c (h₁.hasCell c hc)).trans (h₁.cell_eq c hc)
  lookup r c hr := h₂.lookup r c (h₁.lookup r c hr)
  lookup_of_new hpos c id r hc ho := by
    by_cases hc₁ : e₁.heap.HasCell c
    · rw [h₂.cell_eq c hc₁] at ho
      obtain ⟨hid, hr⟩ := h₁.lookup_of_new hpos c id r hc ho
      exact ⟨hid, h₂.lookup r c hr⟩
    · rw [← h₁.id_eq]
      exact h₂.lookup_of_new (h₁.depth_eq ▸ hpos) c id r hc₁ ho
  new_of_mem r c hmem hnot := by
    by_cases hmem₁ : (r, c) ∈ e₁.frame.openCells
    · obtain ⟨hc, ho⟩ := h₁.new_of_mem r c hmem₁ hnot
      exact ⟨hc, by rw [h₂.cell_eq c (Heap.hasCell_of_opened ho), ho]⟩
    · obtain ⟨hc₁, ho⟩ := h₂.new_of_mem r c hmem hmem₁
      exact ⟨fun hc => hc₁ (h₁.hasCell c hc), h₁.id_eq ▸ ho⟩

/-- A frame is one below the running one, which is as it was, or the running one. -/
theorem getElem?_cases (h : e.Advances e₁) {i : Nat} {f : Frame} (hf : e₁.frames[i]? = some f) :
    (i + 1 < e.depth ∧ e.frames[i]? = some f) ∨ (i + 1 = e.depth ∧ f = e₁.frame) := by
  have hlt := lt_depth_of_getElem? hf
  rw [h.depth_eq] at hlt
  rcases Nat.lt_or_eq_of_le (Nat.succ_le_of_lt hlt) with hi | hi
  · exact .inl ⟨hi, h.getElem?_below i hi ▸ hf⟩
  · obtain rfl : i = e₁.depth - 1 := by rw [h.depth_eq]; omega
    exact .inr ⟨hi, (frame_eq_of_getElem? hf).symm⟩

/-- The identity of a frame is that of a frame that was there. -/
theorem exists_getElem? (h : e.Advances e₁) (hpos : 0 < e.depth) {i : Nat} {f : Frame}
    (hf : e₁.frames[i]? = some f) : ∃ f₀, e.frames[i]? = some f₀ ∧ f.id = f₀.id := by
  obtain ⟨-, hf₀⟩ | ⟨hi, rfl⟩ := h.getElem?_cases hf
  · exact ⟨f, hf₀, rfl⟩
  · obtain rfl : i = e.depth - 1 := by omega
    exact ⟨e.frame, getElem?_depth hpos, h.id_eq⟩

end Advances

/-- The running frame may change in all but its identity and its captures. -/
theorem advances_updateFrame {g : Frame → Frame} (hg : ∀ f, (g f).links = f.links) (e : Engine) :
    e.Advances (e.updateFrame g) := by
  have hframe : (e.updateFrame g).frame.id = e.frame.id ∧
      (e.updateFrame g).frame.openCells = e.frame.openCells := by
    rcases Nat.eq_zero_or_pos e.depth with hzero | hpos
    · rw [updateFrame_eq_self fun hpos => absurd hzero (by omega)]
      exact ⟨rfl, rfl⟩
    · rw [frame_updateFrame hpos]
      exact ⟨(Prod.mk.inj (hg _)).1, (Prod.mk.inj (hg _)).2⟩
  exact
    { depth_eq := depth_updateFrame e g
      serial_eq := rfl
      getElem?_below := fun i hi => by rw [getElem?_updateFrame, if_neg (by omega)]
      id_eq := hframe.1
      hasCell := fun _ hc => hc
      cell_eq := fun _ _ => rfl
      lookup := fun r c hr => by rwa [hframe.2]
      lookup_of_new := fun _ c id r hc ho => absurd (Heap.hasCell_of_opened ho) hc
      new_of_mem := fun r c hmem hnot => absurd (hframe.2 ▸ hmem) hnot }

/-- The running frame has gone on without touching its registers and its captures. -/
def Passes (e e' : Engine) : Prop :=
  ∃ g : Frame → Frame, e' = e.updateFrame g ∧ (∀ f, (g f).links = f.links) ∧
    ∀ f, (g f).registers = f.registers

theorem Passes.advances (h : e.Passes e₁) : e.Advances e₁ := by
  obtain ⟨g, rfl, hlinks, -⟩ := h
  exact advances_updateFrame hlinks e

theorem Passes.heap_eq (h : e.Passes e₁) : e₁.heap = e.heap := by
  obtain ⟨g, rfl, -, -⟩ := h
  rfl

/-! ### Captures -/

theorem captureRegister_of_lookup {r : Nat} {c : CellRef}
    (h : e.frame.openCells.lookup r = some c) : e.captureRegister r = (c, e) := by
  simp only [captureRegister, Frame.capture, h]
  rw [updateFrame_eq_self fun _ => rfl]

/-- A register without an open cell is captured in a new one. -/
theorem captureRegister_of_lookup_eq_none {r : Nat} (h : e.frame.openCells.lookup r = none) :
    e.captureRegister r = (⟨e.heap.cells.size⟩,
      { e with heap := (e.heap.newCell (.opened e.frame.id r)).2 }.updateFrame fun _ =>
        { e.frame with openCells := (r, ⟨e.heap.cells.size⟩) :: e.frame.openCells }) := by
  simp only [captureRegister, Frame.capture, h, Heap.newCell]

/-- After a capture the register has the cell, if a function runs. -/
theorem lookup_captureRegister (hpos : 0 < e.depth) (r : Nat) :
    (e.captureRegister r).2.frame.openCells.lookup r = some (e.captureRegister r).1 := by
  cases hr : e.frame.openCells.lookup r with
  | some c => rwa [captureRegister_of_lookup hr]
  | none =>
    rw [captureRegister_of_lookup_eq_none hr]
    refine (congrArg (List.lookup r ·.openCells) (frame_updateFrame ?_ _)).trans ?_
    · exact hpos
    · exact List.lookup_cons_self

theorem depth_captureRegister (e : Engine) (r : Nat) : (e.captureRegister r).2.depth = e.depth := by
  cases hr : e.frame.openCells.lookup r with
  | some c => rw [captureRegister_of_lookup hr]
  | none =>
    rw [captureRegister_of_lookup_eq_none hr]
    exact depth_updateFrame _ _

/-- The running frame learns of the new cell, unless the stack is empty. -/
theorem frame_captureRegister_of_lookup_eq_none {r : Nat}
    (h : e.frame.openCells.lookup r = none) :
    (e.captureRegister r).2.frame.id = e.frame.id ∧
      ((e.captureRegister r).2.frame.openCells = (r, ⟨e.heap.cells.size⟩) :: e.frame.openCells ∨
        e.depth = 0 ∧ (e.captureRegister r).2.frame.openCells = e.frame.openCells) := by
  rcases Nat.eq_zero_or_pos e.depth with hzero | hpos
  · rw [frame_of_depth_eq_zero ((depth_captureRegister e r).trans hzero),
      frame_of_depth_eq_zero hzero]
    exact ⟨rfl, .inr ⟨hzero, rfl⟩⟩
  · rw [captureRegister_of_lookup_eq_none h, frame_updateFrame]
    · exact ⟨rfl, .inl rfl⟩
    · exact hpos

theorem advances_captureRegister (e : Engine) (r : Nat) :
    e.Advances (e.captureRegister r).2 := by
  cases hr : e.frame.openCells.lookup r with
  | some c =>
    rw [captureRegister_of_lookup hr]
    exact .refl e
  | none =>
    have heq : (e.captureRegister r).2 = Engine.updateFrame { e with heap := _ } _ :=
      congrArg Prod.snd (captureRegister_of_lookup_eq_none hr)
    have hheap : (e.captureRegister r).2.heap = (e.heap.newCell (.opened e.frame.id r)).2 := by
      rw [heq]
      rfl
    obtain ⟨hid, hopen⟩ := frame_captureRegister_of_lookup_eq_none hr
    exact
      { depth_eq := depth_captureRegister e r
        serial_eq := by rw [heq]; rfl
        getElem?_below := fun i hi => by
          rw [heq, getElem?_updateFrame, if_neg]
          exact Nat.ne_of_lt hi
        id_eq := hid
        hasCell := fun c hc => by
          rw [hheap]
          exact Nat.lt_of_lt_of_le hc (by simp [Heap.newCell])
        cell_eq := fun c hc => by rw [hheap, Heap.cell_newCell_of_hasCell hc]
        -- the register had no cell, so the new one hides none
        lookup := fun r' c' hr' => by
          obtain hopen | ⟨-, hopen⟩ := hopen
          · have hne : r' ≠ r := by
              rintro rfl
              exact absurd (hr.symm.trans hr') (by simp)
            rw [hopen, List.lookup_cons, beq_false_of_ne hne]
            exact hr'
          · rwa [hopen]
        lookup_of_new := fun hpos c' id r' hc' ho => by
          obtain hopen | ⟨hzero, -⟩ := hopen
          · rw [hheap, Heap.cell_newCell] at ho
            split at ho
            · rename_i hnew
              obtain ⟨rfl, rfl⟩ : e.frame.id = id ∧ r = r' := by simpa using ho
              rw [hopen, hnew]
              exact ⟨rfl, List.lookup_cons_self⟩
            · exact absurd (Heap.hasCell_of_opened ho) hc'
          · omega
        new_of_mem := fun r' c' hmem hnot => by
          obtain hopen | ⟨-, hopen⟩ := hopen
          · rw [hopen] at hmem
            obtain ⟨rfl, rfl⟩ : r' = r ∧ c' = ⟨e.heap.cells.size⟩ := by
              simpa only [Prod.mk.injEq] using (List.mem_cons.1 hmem).resolve_right hnot
            rw [hheap]
            exact ⟨Nat.lt_irrefl _, (Heap.cell_newCell _ _ _).trans (if_pos rfl)⟩
          · exact absurd (hopen ▸ hmem) hnot }

end LuaBytecode.Engine
