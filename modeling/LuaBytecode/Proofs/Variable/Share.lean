import LuaBytecode.Proofs.Variable.Linked

/-!
# What cells share

A cell shares the value of its register while it is open, and its own value afterwards.  For an
engine whose frames and open cells are linked, this file tells what each change does to the values
that cells share.

* `Engine.cellValue_setCellValue_self`, `Engine.cellValue_setCellValue_of_ne` : an assignment
  through a cell is seen through this cell and through no other, although it may write a register.
* `Engine.cellValue_closeCells`, `Engine.cellValue_unwindTo` : closing cells, also those of many
  frames in turn, changes no value.
* `Engine.Advances.cellValue` : when the running frame goes on, only the cells open on its own
  registers can share another value, and it is the value of the register.

* `Engine.Linked.opened_closeCells_iff`, `Engine.Linked.opened_unwindTo_iff` : which cells stay
  open.
-/

namespace LuaBytecode.Engine

variable {e e' : Engine} {c d : CellRef} {id : FrameId} {r : Nat} {v : Value}

theorem cellValue_of_closed (hc : e.heap.cell c = .closed v) : e.cellValue c = v := by
  rw [cellValue, hc]

/-- An open cell shares a register of the frame that it names. -/
theorem cellValue_of_open (hc : e.heap.cell c = .opened id r) {f : Frame}
    (hf : e.frames[id.depth]? = some f) : e.cellValue c = f.get r := by
  rw [cellValue, hc]
  simp only [Array.getD_eq_getD_getElem?, hf, Option.getD_some]

/-- A cell open on the running frame shares its register. -/
theorem Linked.cellValue_of_open_frame (h : e.Linked) (hc : e.heap.cell c = .opened e.frame.id r) :
    e.cellValue c = e.frame.get r := by
  obtain ⟨f, hf, hid, -⟩ := h.frame_of_open hc
  have hpos : 0 < e.depth := Nat.zero_lt_of_lt (lt_depth_of_getElem? hf)
  rw [cellValue_of_open hc hf]
  rw [h.depth_frame hpos, getElem?_depth hpos] at hf
  rw [Option.some.inj hf]

/-- A cell shares the same value if it is the same and its frame has the same registers. -/
theorem cellValue_congr (hc : e'.heap.cell c = e.heap.cell c)
    (hf : ∀ id r, e.heap.cell c = .opened id r →
      (e'.frames[id.depth]?.map Frame.registers) = e.frames[id.depth]?.map Frame.registers) :
    e'.cellValue c = e.cellValue c := by
  rw [cellValue, cellValue, hc]
  cases ho : e.heap.cell c with
  | closed v => rfl
  | opened id r =>
    have heq := hf id r ho
    simp only [Array.getD_eq_getD_getElem?, Frame.get]
    cases hf₁ : e'.frames[id.depth]? <;> cases hf₂ : e.frames[id.depth]? <;>
      simp_all [blankFrame]

theorem Calm.cellValue (h : e.Calm e') (c : CellRef) : e'.cellValue c = e.cellValue c :=
  cellValue_congr (h.cell_eq c) fun _ _ _ => by rw [h.frames_eq]

theorem Passes.cellValue (h : e.Passes e') (c : CellRef) : e'.cellValue c = e.cellValue c := by
  obtain ⟨g, rfl, -, hregisters⟩ := h
  refine cellValue_congr rfl fun id r _ => ?_
  rw [getElem?_updateFrame]
  split
  · rw [Option.map_map]
    exact congrArg (Option.map · e.frames[id.depth]?) (funext hregisters)
  · rfl

/-! ### The running frame goes on -/

/-- **Only the registers of the running frame are written.**  When it goes on, a cell shares what
it shared, or is open on one of its registers and shares what that holds now. -/
theorem Advances.cellValue (hadv : e.Advances e') (h : e.Linked) (hc : e.heap.HasCell c) :
    e'.cellValue c = e.cellValue c ∨
      ∃ r, e.heap.cell c = .opened e.frame.id r ∧ e'.heap.cell c = .opened e'.frame.id r ∧
        e'.cellValue c = e'.frame.get r := by
  have hcell := hadv.cell_eq c hc
  cases ho : e.heap.cell c with
  | closed v =>
    exact .inl (cellValue_congr hcell fun id r ho' => absurd (ho.symm.trans ho') (by simp))
  | opened id r =>
    obtain ⟨f, hf, hid, -⟩ := h.frame_of_open ho
    -- the frame of the cell lies below the running one, or it is that
    rcases Nat.lt_or_eq_of_le (Nat.succ_le_of_lt (lt_depth_of_getElem? hf)) with hi | hi
    · refine .inl (cellValue_congr hcell fun id' r' ho' => ?_)
      obtain ⟨rfl, rfl⟩ := Cell.opened.inj (ho.symm.trans ho')
      rw [hadv.getElem?_below _ hi]
    · obtain rfl : e.frame = f := frame_eq_of_getElem? (by rw [← hi]; exact hf)
      have ho' : e'.heap.cell c = .opened e'.frame.id r := by rw [hcell, ho, hadv.id_eq, hid]
      refine .inr ⟨r, by rw [hid], ho', ?_⟩
      exact (h.advances (by omega) hadv).cellValue_of_open_frame ho'

/-! ### Assignments -/

theorem getElem?_setCellValue_of_open (ho : e.heap.cell c = .opened id r) (v : Value) (i : Nat) :
    (e.setCellValue c v).frames[i]? =
      if id.depth = i then e.frames[i]?.map (·.set r v) else e.frames[i]? := by
  rw [setCellValue, ho]
  exact Array.getElem?_modify

/-- **An assignment is seen through its cell.** -/
theorem cellValue_setCellValue_self (h : e.Linked) (hc : e.heap.HasCell c) (v : Value) :
    (e.setCellValue c v).cellValue c = v := by
  cases ho : e.heap.cell c with
  | opened id r =>
    obtain ⟨f, hf, -, -⟩ := h.frame_of_open ho
    have hset : (e.setCellValue c v).frames[id.depth]? = some (f.set r v) := by
      rw [getElem?_setCellValue_of_open ho, if_pos rfl, hf, Option.map_some]
    rw [cellValue_of_open ((opened_setCellValue_iff e c v).2 ho) hset, Frame.get_set, if_pos rfl]
  | closed w =>
    refine cellValue_of_closed ?_
    rw [setCellValue, ho]
    exact (Heap.cell_setCell _ _ _ _ hc).trans (if_pos rfl)

/-- **An assignment is seen through no other cell**, although it may write a register. -/
theorem cellValue_setCellValue_of_ne (h : e.Linked) (hdc : d ≠ c) (v : Value) :
    (e.setCellValue c v).cellValue d = e.cellValue d := by
  cases ho : e.heap.cell c with
  | closed w =>
    refine cellValue_congr ?_ fun _ _ _ => ?_
    · rw [setCellValue, ho]
      exact Heap.cell_setCell_of_ne _ (Ne.symm hdc) _
    · rw [setCellValue, ho]
  | opened id r =>
    cases hd : e.heap.cell d with
    | closed w =>
      rw [cellValue_of_closed hd]
      refine cellValue_of_closed ?_
      rw [setCellValue, ho]
      exact hd
    | opened id' r' =>
      obtain ⟨g, hg, -, -⟩ := h.frame_of_open hd
      have hd' := (opened_setCellValue_iff e c v).2 hd
      by_cases hdepth : id.depth = id'.depth
      · -- both cells are open on one frame, so they are on different registers
        obtain rfl := h.id_eq_of_depth_eq ho hd hdepth
        have hset : (e.setCellValue c v).frames[id.depth]? = some (g.set r v) := by
          rw [getElem?_setCellValue_of_open ho, if_pos rfl, hg, Option.map_some]
        have hne : r ≠ r' := by
          rintro rfl
          exact hdc (h.eq_of_open hd ho)
        rw [cellValue_of_open hd' hset, cellValue_of_open hd hg, Frame.get_set, if_neg hne]
      · have hsame : (e.setCellValue c v).frames[id'.depth]? = some g := by
          rw [getElem?_setCellValue_of_open ho, if_neg hdepth, hg]
        rw [cellValue_of_open hd' hsame, cellValue_of_open hd hg]

/-! ### Closing -/

/-- A cell that is not closed stays what it is, and one that is closed keeps its value. -/
theorem cellValue_of_closeFrom (h : e.Linked) {first : Nat}
    (hheap : e'.heap.cell c = (e.frame.closeFrom first e.heap).2.cell c)
    (hframes : ∀ i : Nat, (∃ id r, e'.heap.cell c = .opened id r ∧ id.depth = i) →
      e'.frames[i]?.map Frame.registers = e.frames[i]?.map Frame.registers) :
    e'.cellValue c = e.cellValue c := by
  by_cases hclose : ∃ r, e.heap.cell c = .opened e.frame.id r ∧ first ≤ r
  · obtain ⟨r, hc, hr⟩ := hclose
    rw [h.cellValue_of_open_frame hc]
    exact cellValue_of_closed (hheap.trans (h.cell_closeFrom_of_open hc hr))
  · have hcell : e'.heap.cell c = e.heap.cell c := by
      rw [hheap]
      exact h.cell_closeFrom_of_not fun r hc => Nat.lt_of_not_le fun hr => hclose ⟨r, hc, hr⟩
    exact cellValue_congr hcell fun id r ho => hframes _ ⟨id, r, hcell.trans ho, rfl⟩

/-- **Closing the cells of a block changes no variable.** -/
theorem cellValue_closeCells (h : e.Linked) (first : Nat) (c : CellRef) :
    (e.closeCells first).cellValue c = e.cellValue c := by
  refine cellValue_of_closeFrom h rfl fun i _ => ?_
  rw [show (e.closeCells first).frames[i]? = _ from getElem?_updateFrame _ _ i]
  split
  · rename_i hi
    obtain rfl : i = e.depth - 1 := by
      change i + 1 = e.depth at hi
      omega
    cases hf : e.frames[e.depth - 1]? with
    | none => rfl
    | some f =>
      rw [← frame_eq_of_getElem? hf]
      rfl
  · rfl

/-- **Leaving a function changes no variable.** -/
theorem cellValue_pop (h : e.Linked) (c : CellRef) : e.pop.2.cellValue c = e.cellValue c := by
  refine cellValue_of_closeFrom h rfl ?_
  rintro i ⟨id, r, ho, rfl⟩
  obtain ⟨f, hf, -, -⟩ := h.pop.frame_of_open ho
  rw [hf]
  rw [getElem?_pop] at hf
  split at hf
  · rw [hf]
  · exact absurd hf (by simp)

theorem cellValue_popMany (n : Nat) (r : List Value × Engine) (h : r.2.Linked) (c : CellRef) :
    (popMany n r).2.cellValue c = r.2.cellValue c := by
  induction n generalizing r with
  | zero => rfl
  | succ n ih => exact (ih _ h.pop).trans (cellValue_pop h c)

/-- **Unwinding changes no variable**, however many functions it leaves. -/
theorem cellValue_unwindTo (h : e.Linked) (depth : Nat) (c : CellRef) :
    (e.unwindTo depth).2.cellValue c = e.cellValue c := cellValue_popMany _ _ h c

/-! ### Starting a function -/

theorem cellValue_push (h : e.Linked) (cl : Closure) (args : List Value) (c : CellRef) :
    (e.push cl args).cellValue c = e.cellValue c := by
  refine cellValue_congr rfl fun id r ho => ?_
  obtain ⟨f, hf, -, -⟩ := h.frame_of_open ho
  rw [getElem?_push, if_neg (Nat.ne_of_lt (lt_depth_of_getElem? hf))]

theorem cellValue_load (h : e.Linked) (p : Prototype) (hc : e.heap.HasCell c) :
    (e.load p).cellValue c = e.cellValue c := by
  refine (cellValue_push (h.newClosedCells _) _ _ c).trans ?_
  refine cellValue_congr ?_ fun _ _ _ => rfl
  obtain heq | ⟨hnot, -⟩ := Heap.cell_newClosedCells e.heap _ c
  · exact heq
  · exact absurd hc hnot

/-! ### Which cells stay open -/

/-- Closing cells closes those on the registers from the first one on. -/
theorem Linked.opened_closeCells_iff (h : e.Linked) (first : Nat) :
    (e.closeCells first).heap.cell c = .opened id r ↔
      e.heap.cell c = .opened id r ∧ (id = e.frame.id → r < first) :=
  h.opened_closeFrom_iff first

theorem Linked.opened_popMany_iff (n : Nat) (vs : List Value) (h : e.Linked) :
    (Engine.popMany n (vs, e)).2.heap.cell c = .opened id r ↔
      e.heap.cell c = .opened id r ∧ id.depth + n < e.depth := by
  induction n generalizing vs e with
  | zero =>
    refine ⟨fun hc => ⟨hc, ?_⟩, And.left⟩
    obtain ⟨f, hf, -, -⟩ := h.frame_of_open hc
    exact lt_depth_of_getElem? hf
  | succ n ih =>
    refine (ih _ h.pop).trans ⟨fun ⟨hc, hlt⟩ => ?_, fun ⟨hc, hlt⟩ => ?_⟩
    · rw [depth_pop] at hlt
      exact ⟨((h.opened_closeFrom_iff 0).1 hc).1, by omega⟩
    · refine ⟨(h.opened_closeFrom_iff 0).2 ⟨hc, fun hid => ?_⟩, by rw [depth_pop]; omega⟩
      have hdepth := h.depth_frame (by omega)
      rw [← hid] at hdepth
      omega

/-- Unwinding closes the cells of the frames that go. -/
theorem Linked.opened_unwindTo_iff (h : e.Linked) {depth : Nat} (hle : depth ≤ e.depth) :
    (e.unwindTo depth).2.heap.cell c = .opened id r ↔
      e.heap.cell c = .opened id r ∧ id.depth < depth := by
  refine (h.opened_popMany_iff (e.frames.size - depth) []).trans (and_congr_right fun _ => ?_)
  rw [Engine.depth] at hle ⊢
  omega

/-! ### Cells stay given out -/

theorem hasCell_setCellValue_iff (e : Engine) (d : CellRef) (v : Value) :
    (e.setCellValue d v).heap.HasCell c ↔ e.heap.HasCell c := by
  rw [setCellValue]
  split
  · rfl
  · rw [Heap.HasCell, Heap.HasCell, Heap.size_cells_setCell]

theorem hasCell_closeFrom_iff (f : Frame) (first : Nat) (h : Heap) :
    (f.closeFrom first h).2.HasCell c ↔ h.HasCell c := by
  rw [Heap.HasCell, Heap.HasCell, Frame.closeFrom, Frame.size_cells_closeAll]

theorem hasCell_popMany_iff (n : Nat) (r : List Value × Engine) :
    (popMany n r).2.heap.HasCell c ↔ r.2.heap.HasCell c := by
  induction n generalizing r with
  | zero => rfl
  | succ n ih => exact (ih _).trans (hasCell_closeFrom_iff _ _ _)

theorem hasCell_load (p : Prototype) (hc : e.heap.HasCell c) : (e.load p).heap.HasCell c :=
  Nat.lt_of_lt_of_le hc (Heap.size_cells_newClosedCells _ _)

end LuaBytecode.Engine
