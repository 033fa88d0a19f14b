import LuaBytecode.Engine

/-!
# The call stack and the cells

What the operations of the engine do to the frames, by their position on the stack, and to the
cells.
-/

namespace LuaBytecode

/-! ### Cells -/

namespace Heap

variable {h : Heap} {c d : CellRef} {id : FrameId} {r : Nat} {v : Value}

/-- A cell at an address that was given out. -/
def HasCell (h : Heap) (c : CellRef) : Prop := c.index < h.cells.size

theorem hasCell_of_opened (hc : h.cell c = .opened id r) : h.HasCell c := by
  refine Nat.lt_of_not_le fun hout => ?_
  rw [cell, Array.getD_eq_getD_getElem?, Array.getElem?_eq_none hout] at hc
  exact absurd hc (by simp)

theorem cell_congr {h' : Heap} (hcells : h'.cells = h.cells) (c : CellRef) :
    h'.cell c = h.cell c := by
  rw [cell, cell, hcells]

theorem cell_newCell (h : Heap) (s : Cell) (c : CellRef) :
    (h.newCell s).2.cell c = if c = (h.newCell s).1 then s else h.cell c := by
  obtain ⟨i⟩ := c
  simp only [cell, newCell, CellRef.mk.injEq, Array.getD_eq_getD_getElem?, Array.getElem?_push]
  split <;> rfl

theorem cell_newCell_of_hasCell (hc : h.HasCell c) (s : Cell) :
    (h.newCell s).2.cell c = h.cell c := by
  rw [cell_newCell, if_neg]
  rintro rfl
  exact Nat.lt_irrefl _ hc

/-- Cells that are made closed are no open ones, and leave the others as they are. -/
theorem cell_newClosedCells (h : Heap) (vs : List Value) (c : CellRef) :
    (h.newClosedCells vs).2.cell c = h.cell c ∨
      (¬ h.HasCell c ∧ ∃ v, (h.newClosedCells vs).2.cell c = .closed v) := by
  induction vs generalizing h with
  | nil => exact .inl rfl
  | cons v vs ih =>
    obtain heq | ⟨hout, w, hw⟩ := ih (h.newCell (.closed v)).2
    · rw [cell_newCell] at heq
      split at heq
      · rename_i hnew
        exact .inr ⟨by rw [hnew]; exact Nat.lt_irrefl _, v, heq⟩
      · exact .inl heq
    · refine .inr ⟨fun hc => hout (Nat.lt_of_lt_of_le hc ?_), w, hw⟩
      simp [newCell]

theorem opened_newClosedCells_iff (h : Heap) (vs : List Value) :
    (h.newClosedCells vs).2.cell c = .opened id r ↔ h.cell c = .opened id r := by
  obtain heq | ⟨hout, v, hv⟩ := cell_newClosedCells h vs c
  · rw [heq]
  · rw [hv]
    exact ⟨fun he => absurd he (by simp), fun he => absurd (hasCell_of_opened he) hout⟩

theorem size_cells_newClosedCells (h : Heap) (vs : List Value) :
    h.cells.size ≤ (h.newClosedCells vs).2.cells.size := by
  induction vs generalizing h with
  | nil => exact Nat.le_refl _
  | cons v vs ih => exact Nat.le_trans (by simp [newCell]) (ih (h.newCell (.closed v)).2)

@[simp]
theorem size_cells_setCell (h : Heap) (c : CellRef) (s : Cell) :
    (h.setCell c s).cells.size = h.cells.size := Array.size_setIfInBounds

theorem cell_setCell_of_ne (h : Heap) (hcd : c ≠ d) (s : Cell) :
    (h.setCell c s).cell d = h.cell d := by
  obtain ⟨i⟩ := c
  obtain ⟨j⟩ := d
  simp only [ne_eq, CellRef.mk.injEq] at hcd
  simp only [cell, setCell, Array.getD_eq_getD_getElem?, Array.getElem?_setIfInBounds, hcd,
    if_false]

end Heap

namespace Frame

variable {f : Frame} {h : Heap} {c : CellRef} {r : Nat} {cs : List (Nat × CellRef)}

/-- The identity of a frame and the cells that it has open. -/
def links (f : Frame) : FrameId × List (Nat × CellRef) := (f.id, f.openCells)

@[simp]
theorem links_set (f : Frame) (r : Nat) (v : Value) : (f.set r v).links = f.links := rfl

@[simp]
theorem links_setRange (f : Frame) (base : Nat) (vs : List Value) :
    (f.setRange base vs).links = f.links := by
  induction vs generalizing f base with
  | nil => rfl
  | cons v vs ih => rw [setRange, ih, links_set]

theorem cell_closeAll_of_not_mem (hc : ∀ r, (r, c) ∉ cs) : (f.closeAll cs h).cell c = h.cell c := by
  induction cs generalizing h with
  | nil => rfl
  | cons rc cs ih =>
    have hne : rc.2 ≠ c := fun he => hc rc.1 (he ▸ List.mem_cons_self)
    rw [closeAll, ih fun r hr => hc r (List.mem_cons_of_mem _ hr)]
    exact Heap.cell_setCell_of_ne h hne _

/-- A cell among those that are closed gets the value of its register, if it has only one. -/
theorem cell_closeAll_of_mem (hmem : (r, c) ∈ cs) (huniq : ∀ r', (r', c) ∈ cs → r' = r)
    (hc : h.HasCell c) : (f.closeAll cs h).cell c = .closed (f.get r) := by
  induction cs generalizing h with
  | nil => exact absurd hmem (by simp)
  | cons rc cs ih =>
    obtain ⟨r₁, c₁⟩ := rc
    by_cases hlater : (r, c) ∈ cs
    · rw [closeAll]
      refine ih hlater (fun r' hr' => huniq r' (List.mem_cons_of_mem _ hr')) ?_
      simpa only [Heap.HasCell, Heap.size_cells_setCell] using hc
    · obtain ⟨rfl, rfl⟩ : r = r₁ ∧ c = c₁ := by
        simpa only [Prod.mk.injEq] using (List.mem_cons.1 hmem).resolve_right hlater
      have hnot : ∀ r', (r', c) ∉ cs := by
        intro r' hr'
        obtain rfl := huniq r' (List.mem_cons_of_mem _ hr')
        exact hlater hr'
      rw [closeAll, cell_closeAll_of_not_mem hnot, Heap.cell_setCell h c c _ hc, if_pos rfl]

theorem size_cells_closeAll (f : Frame) (cs : List (Nat × CellRef)) (h : Heap) :
    (f.closeAll cs h).cells.size = h.cells.size := by
  induction cs generalizing h with
  | nil => rfl
  | cons rc cs ih => rw [closeAll, ih, Heap.size_cells_setCell]

end Frame

/-! ### Frames -/

namespace Engine

variable {e : Engine} {f : Frame} {g : Frame → Frame} {i : Nat}

theorem getElem?_depth (h : 0 < e.depth) : e.frames[e.depth - 1]? = some e.frame := by
  have hlt : e.frames.size - 1 < e.frames.size := by
    rw [depth] at h
    omega
  rw [frame, Array.back?_eq_getElem?, depth, Array.getElem?_eq_getElem hlt, Option.getD_some]

theorem frame_eq_of_getElem? (h : e.frames[e.depth - 1]? = some f) : e.frame = f := by
  rw [frame, Array.back?_eq_getElem?]
  exact h ▸ rfl

theorem lt_depth_of_getElem? (h : e.frames[i]? = some f) : i < e.depth :=
  (Array.getElem?_eq_some_iff.1 h).1

@[simp]
theorem depth_updateFrame (e : Engine) (g : Frame → Frame) : (e.updateFrame g).depth = e.depth :=
  Array.size_modify

theorem getElem?_updateFrame (e : Engine) (g : Frame → Frame) (i : Nat) :
    (e.updateFrame g).frames[i]? =
      if i + 1 = e.depth then e.frames[i]?.map g else e.frames[i]? := by
  rw [updateFrame, depth]
  simp only [Array.getElem?_modify]
  rcases Nat.lt_trichotomy (i + 1) e.frames.size with hi | hi | hi
  · rw [if_neg (by omega), if_neg (by omega)]
  · rw [if_pos (by omega), if_pos hi]
  · rw [Array.getElem?_eq_none (by omega), Option.map_none, ite_self, ite_self]

theorem frame_updateFrame (h : 0 < e.depth) (g : Frame → Frame) :
    (e.updateFrame g).frame = g e.frame := by
  apply frame_eq_of_getElem?
  rw [depth_updateFrame, getElem?_updateFrame, if_pos (by omega), getElem?_depth h]
  rfl

theorem frame_of_depth_eq_zero (h : e.depth = 0) : e.frame = blankFrame := by
  rw [frame, Array.back?_eq_getElem?, Array.getElem?_eq_none (by rw [depth] at h; omega),
    Option.getD_none]

theorem updateFrame_eq_self (hg : 0 < e.depth → g e.frame = e.frame) : e.updateFrame g = e := by
  have hframes : e.frames.modify (e.frames.size - 1) g = e.frames := by
    refine Array.ext_getElem? fun i => (getElem?_updateFrame e g i).trans ?_
    split
    · rename_i hi
      obtain rfl : i = e.depth - 1 := by omega
      rw [getElem?_depth (by omega), Option.map_some, hg (by omega)]
    · rfl
  rw [updateFrame, hframes]

theorem updateFrame_updateFrame (e : Engine) (g g' : Frame → Frame) :
    (e.updateFrame g).updateFrame g' = e.updateFrame (g' ∘ g) := by
  simp only [updateFrame, Array.size_modify, Engine.mk.injEq, true_and, and_true]
  apply Array.ext
  · simp
  · intro i h1 h2
    simp only [Array.getElem_modify]
    split <;> rfl

theorem getElem?_push (e : Engine) (c : Closure) (args : List Value) (i : Nat) :
    (e.push c args).frames[i]? =
      if i = e.depth then some (.start ⟨e.depth, e.serial + 1⟩ c args e.config.minRegisters)
      else e.frames[i]? :=
  Array.getElem?_push

theorem frames_push (e : Engine) (c : Closure) (args : List Value) :
    (e.push c args).frames = e.frames.push (e.push c args).frame := by
  simp [frame, push]

theorem openCells_push (e : Engine) (c : Closure) (args : List Value) :
    (e.push c args).frame.openCells = [] := by
  simp [frame, push, Frame.start]

theorem getElem?_pop (e : Engine) (i : Nat) :
    e.pop.2.frames[i]? = if i + 1 < e.depth then e.frames[i]? else none := by
  rw [pop, Array.getElem?_pop, depth]
  by_cases hi : i + 1 < e.frames.size
  · rw [if_pos hi, if_pos (by omega)]
  · rw [if_neg hi, if_neg (by omega)]

@[simp]
theorem depth_pop (e : Engine) : e.pop.2.depth = e.depth - 1 := Array.size_pop

@[simp]
theorem depth_push (e : Engine) (c : Closure) (args : List Value) :
    (e.push c args).depth = e.depth + 1 := Array.size_push _

@[simp]
theorem depth_load (e : Engine) (p : Prototype) : (e.load p).depth = e.depth + 1 :=
  Array.size_push _

@[simp]
theorem depth_closeCells (e : Engine) (first : Nat) : (e.closeCells first).depth = e.depth :=
  Array.size_modify

@[simp]
theorem depth_setCellValue (e : Engine) (c : CellRef) (v : Value) :
    (e.setCellValue c v).depth = e.depth := by
  rw [setCellValue]
  split
  · exact Array.size_modify
  · rfl

theorem depth_popMany (n : Nat) (r : List Value × Engine) :
    (popMany n r).2.depth = r.2.depth - n := by
  induction n generalizing r with
  | zero => rfl
  | succ n ih =>
    rw [popMany, ih, depth_pop]
    omega

theorem depth_unwindTo (e : Engine) (depth : Nat) :
    (e.unwindTo depth).2.depth = min e.depth depth := by
  refine (depth_popMany _ _).trans ?_
  change e.frames.size - (e.frames.size - depth) = min e.frames.size depth
  omega

theorem getElem?_popMany (n : Nat) (r : List Value × Engine) (i : Nat) :
    (popMany n r).2.frames[i]? = if i + n < r.2.depth then r.2.frames[i]? else none := by
  induction n generalizing r with
  | zero =>
    rw [popMany]
    split
    · rfl
    · exact Array.getElem?_eq_none (by rw [depth] at *; omega)
  | succ n ih =>
    rw [popMany, ih, depth_pop, getElem?_pop]
    split
    · rw [if_pos (by omega), if_pos (by omega)]
    · rw [if_neg (by omega)]

theorem getElem?_unwindTo {depth i : Nat} (hle : depth ≤ e.depth) :
    (e.unwindTo depth).2.frames[i]? = if i < depth then e.frames[i]? else none := by
  have hcond : i + (e.frames.size - depth) < e.frames.size ↔ i < depth := by
    rw [Engine.depth] at hle
    omega
  refine (getElem?_popMany _ _ i).trans ?_
  simp only [Engine.depth, hcond]

theorem nativeDepth_popMany (n : Nat) (r : List Value × Engine) :
    (popMany n r).2.nativeDepth = r.2.nativeDepth := by
  induction n generalizing r with
  | zero => rfl
  | succ n ih => exact ih _

/-- An assignment opens and closes no cell. -/
theorem opened_setCellValue_iff (e : Engine) (c : CellRef) (v : Value) {d : CellRef} {id : FrameId}
    {r : Nat} : (e.setCellValue c v).heap.cell d = .opened id r ↔ e.heap.cell d = .opened id r := by
  cases hc : e.heap.cell c with
  | opened id r => rw [setCellValue, hc]
  | closed w =>
    rw [setCellValue, hc]
    by_cases hcd : c = d
    · subst hcd
      refine ⟨fun ho => ?_, fun ho => absurd (hc.symm.trans ho) (by simp)⟩
      have hhas : e.heap.HasCell c := by
        have hhas := Heap.hasCell_of_opened ho
        rwa [Heap.HasCell, Heap.size_cells_setCell] at hhas
      rw [Heap.cell_setCell _ _ _ _ hhas, if_pos rfl] at ho
      exact absurd ho (by simp)
    · rw [Heap.cell_setCell_of_ne _ hcd]

end Engine

end LuaBytecode
