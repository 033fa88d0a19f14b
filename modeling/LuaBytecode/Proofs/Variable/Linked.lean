import LuaBytecode.Proofs.Variable.Change

/-!
# Open cells and their frames

An open cell names a frame by its place on the stack and a serial number, but only the place is
looked at when the cell is read or written.  That this is safe is an invariant of the engine.

* `Engine.Linked` : every frame stands where its identity says, with a serial number above those
  below it; every open cell names a register of a frame on the stack, and that frame knows the
  cell; and what a frame knows as open cells are such cells.
* `Engine.Linked.mem_openCells_iff` : the captures of the running frame are the cells open on it.
* `Engine.Linked.advances`, `Engine.Linked.closeCells`, `Engine.Linked.unwindTo` and others : the
  changes of a run keep the invariant.

The invariant carries itself from change to change because cells are closed by the frame they are
open on, before the frame goes: what the frame knows are all the cells that name it.
-/

namespace LuaBytecode

theorem Frame.mem_of_lookup {cs : List (Nat × CellRef)} {r : Nat} {c : CellRef}
    (h : cs.lookup r = some c) : (r, c) ∈ cs := by
  obtain ⟨l₁, l₂, hl, -⟩ := List.lookup_eq_some_iff.1 h
  exact hl ▸ List.mem_append_right l₁ List.mem_cons_self

theorem Frame.lookup_closeFrom (f : Frame) (h : Heap) {first r : Nat} (hr : r < first) :
    (f.closeFrom first h).1.openCells.lookup r = f.openCells.lookup r := by
  change (f.openCells.filter fun rc => rc.1 < first).lookup r = _
  induction f.openCells with
  | nil => rfl
  | cons rc l ih =>
    obtain ⟨r₀, c⟩ := rc
    by_cases hr₀ : r₀ < first
    · rw [List.filter_cons_of_pos (by simpa using hr₀), List.lookup_cons, List.lookup_cons, ih]
    · rw [List.filter_cons_of_neg (by simpa using hr₀), ih, List.lookup_cons,
        beq_false_of_ne (by omega)]

namespace Engine

/-- The frames and the open cells refer to each other consistently. -/
structure Linked (e : Engine) : Prop where
  /-- A frame stands at the depth of its identity. -/
  depth_eq : ∀ {i : Nat} {f : Frame}, e.frames[i]? = some f → f.id.depth = i
  /-- Serial numbers increase up the stack. -/
  serial_lt : ∀ {i j : Nat} {f g : Frame}, i < j → e.frames[i]? = some f → e.frames[j]? = some g →
    f.id.serial < g.id.serial
  /-- The next serial number is a new one. -/
  serial_le : ∀ {i : Nat} {f : Frame}, e.frames[i]? = some f → f.id.serial ≤ e.serial
  /-- An open cell names a frame on the stack, which has it as the cell of the register. -/
  frame_of_open : ∀ {c : CellRef} {id : FrameId} {r : Nat}, e.heap.cell c = .opened id r →
    ∃ f, e.frames[id.depth]? = some f ∧ f.id = id ∧ f.openCells.lookup r = some c
  /-- What a frame has as cell of a register is a cell that is open on it. -/
  open_of_mem : ∀ {i : Nat} {f : Frame} {r : Nat} {c : CellRef}, e.frames[i]? = some f →
    (r, c) ∈ f.openCells → e.heap.cell c = .opened f.id r

namespace Linked

variable {e e' : Engine} {c d : CellRef} {id : FrameId} {f : Frame} {r : Nat} {v : Value}

/-- The identity of the running frame. -/
theorem depth_frame (h : e.Linked) (hpos : 0 < e.depth) : e.frame.id.depth = e.depth - 1 :=
  h.depth_eq (getElem?_depth hpos)

/-- A new engine has no frames and no cells. -/
theorem of_empty (hframes : e.frames = #[]) (hcells : e.heap.cells = #[]) : e.Linked := by
  have hnone {i : Nat} {f : Frame} : e.frames[i]? ≠ some f := by
    simp [hframes]
  have hcell {c : CellRef} {id : FrameId} {r : Nat} : e.heap.cell c ≠ .opened id r := by
    simp [Heap.cell, hcells]
  exact
    { depth_eq := fun hf => absurd hf hnone
      serial_lt := fun _ hf => absurd hf hnone
      serial_le := fun hf => absurd hf hnone
      frame_of_open := fun hc => absurd hc hcell
      open_of_mem := fun hf => absurd hf hnone }

/-! ### The open cells of the running frame -/

/-- The captures of the running frame are the cells that are open on it. -/
theorem mem_openCells_iff (h : e.Linked) :
    (r, c) ∈ e.frame.openCells ↔ e.heap.cell c = .opened e.frame.id r := by
  rcases Nat.eq_zero_or_pos e.depth with hzero | hpos
  · rw [frame_of_depth_eq_zero hzero]
    refine ⟨fun hmem => absurd hmem (by simp [blankFrame]), fun hc => ?_⟩
    obtain ⟨f, hf, -, -⟩ := h.frame_of_open hc
    exact absurd (lt_depth_of_getElem? hf) (by omega)
  · refine ⟨h.open_of_mem (getElem?_depth hpos), fun hc => ?_⟩
    obtain ⟨f, hf, -, hlookup⟩ := h.frame_of_open hc
    rw [h.depth_frame hpos, getElem?_depth hpos] at hf
    obtain rfl := Option.some.inj hf
    exact Frame.mem_of_lookup hlookup

/-- A captured register of the running frame has an open cell. -/
theorem open_of_lookup (h : e.Linked) (hr : e.frame.openCells.lookup r = some c) :
    e.heap.cell c = .opened e.frame.id r :=
  h.mem_openCells_iff.1 (Frame.mem_of_lookup hr)

/-- A register of a frame has at most one open cell. -/
theorem eq_of_open (h : e.Linked) (hc : e.heap.cell c = .opened id r)
    (hd : e.heap.cell d = .opened id r) : c = d := by
  obtain ⟨f, hf, -, hc⟩ := h.frame_of_open hc
  obtain ⟨g, hg, -, hd⟩ := h.frame_of_open hd
  rw [hf] at hg
  obtain rfl := Option.some.inj hg
  exact Option.some.inj (hc.symm.trans hd)

/-- Open cells that name the same place name the same frame. -/
theorem id_eq_of_depth_eq {id' : FrameId} {r' : Nat} (h : e.Linked)
    (hc : e.heap.cell c = .opened id r) (hd : e.heap.cell d = .opened id' r')
    (hdepth : id.depth = id'.depth) : id = id' := by
  obtain ⟨f, hf, rfl, -⟩ := h.frame_of_open hc
  obtain ⟨g, hg, rfl, -⟩ := h.frame_of_open hd
  rw [hdepth, hg] at hf
  rw [Option.some.inj hf]

/-- Closing reaches the cells that are open on the running frame from the register on. -/
theorem cell_closeFrom_of_open (h : e.Linked) {first : Nat}
    (hc : e.heap.cell c = .opened e.frame.id r) (hr : first ≤ r) :
    (e.frame.closeFrom first e.heap).2.cell c = .closed (e.frame.get r) := by
  refine Frame.cell_closeAll_of_mem ?_ (fun r' hr' => ?_) (Heap.hasCell_of_opened hc)
  · rw [List.mem_filter]
    exact ⟨h.mem_openCells_iff.2 hc, by simpa using hr⟩
  · have hc' := h.mem_openCells_iff.1 (List.mem_filter.1 hr').1
    rw [hc] at hc'
    simpa [eq_comm] using hc'

/-- Closing leaves the other cells as they are. -/
theorem cell_closeFrom_of_not (h : e.Linked) {first : Nat}
    (hc : ∀ r, e.heap.cell c = .opened e.frame.id r → r < first) :
    (e.frame.closeFrom first e.heap).2.cell c = e.heap.cell c := by
  refine Frame.cell_closeAll_of_not_mem fun r hr => ?_
  obtain ⟨hmem, hle⟩ := List.mem_filter.1 hr
  have hlt := hc r (h.mem_openCells_iff.1 hmem)
  exact absurd (of_decide_eq_true hle) (by omega)

/-- The cells that are open after closing. -/
theorem opened_closeFrom_iff (h : e.Linked) (first : Nat) :
    (e.frame.closeFrom first e.heap).2.cell c = .opened id r ↔
      e.heap.cell c = .opened id r ∧ (id = e.frame.id → r < first) := by
  by_cases hclose : ∃ r₀, e.heap.cell c = .opened e.frame.id r₀ ∧ first ≤ r₀
  · obtain ⟨r₀, hc, hr₀⟩ := hclose
    rw [h.cell_closeFrom_of_open hc hr₀, hc]
    refine ⟨fun ho => absurd ho (by simp), ?_⟩
    rintro ⟨heq, hlt⟩
    obtain ⟨rfl, rfl⟩ := Cell.opened.inj heq
    exact absurd (hlt rfl) (by omega)
  · have hkeep : ∀ r, e.heap.cell c = .opened e.frame.id r → r < first := fun r hc =>
      Nat.lt_of_not_le fun hr => hclose ⟨r, hc, hr⟩
    rw [h.cell_closeFrom_of_not hkeep]
    exact ⟨fun hc => ⟨hc, fun hid => hkeep r (hid ▸ hc)⟩, And.left⟩

/-! ### Every change keeps the references -/

/-- Frames may go and captures may go, as long as the cells that stay open keep their frame and
its capture, and the captures that stay keep their cell. -/
theorem shrink (h : e.Linked) (hserial : e.serial ≤ e'.serial)
    (hframes : ∀ {i : Nat} {f' : Frame}, e'.frames[i]? = some f' →
      ∃ f, e.frames[i]? = some f ∧ f'.id = f.id ∧ ∀ rc ∈ f'.openCells, rc ∈ f.openCells)
    (hopen : ∀ {c : CellRef} {id : FrameId} {r : Nat}, e'.heap.cell c = .opened id r →
      e.heap.cell c = .opened id r)
    (hlookup : ∀ {c : CellRef} {f : Frame} {r : Nat}, e'.heap.cell c = .opened f.id r →
      e.frames[f.id.depth]? = some f → f.openCells.lookup r = some c →
      ∃ f', e'.frames[f.id.depth]? = some f' ∧ f'.openCells.lookup r = some c)
    (hmem : ∀ {i : Nat} {f' : Frame} {r : Nat} {c : CellRef}, e'.frames[i]? = some f' →
      (r, c) ∈ f'.openCells → e.heap.cell c = .opened f'.id r →
      e'.heap.cell c = .opened f'.id r) : e'.Linked where
  depth_eq hf' := by
    obtain ⟨f, hf, hid, -⟩ := hframes hf'
    rw [hid]
    exact h.depth_eq hf
  serial_lt hij hf' hg' := by
    obtain ⟨f, hf, hfid, -⟩ := hframes hf'
    obtain ⟨g, hg, hgid, -⟩ := hframes hg'
    rw [hfid, hgid]
    exact h.serial_lt hij hf hg
  serial_le hf' := by
    obtain ⟨f, hf, hid, -⟩ := hframes hf'
    rw [hid]
    exact Nat.le_trans (h.serial_le hf) hserial
  frame_of_open hc := by
    obtain ⟨f, hf, rfl, hr⟩ := h.frame_of_open (hopen hc)
    obtain ⟨f', hf', hr'⟩ := hlookup hc hf hr
    obtain ⟨f₀, hf₀, hid, -⟩ := hframes hf'
    rw [hf] at hf₀
    exact ⟨f', hf', by rw [hid, Option.some.inj hf₀], hr'⟩
  open_of_mem hf' hrc := by
    obtain ⟨f, hf, hid, hsub⟩ := hframes hf'
    exact hmem hf' hrc (hid ▸ h.open_of_mem hf (hsub _ hrc))

/-- What the invariant looks at: identities, captures, and which cells are open. -/
theorem congr (h : e.Linked) (hserial : e.serial ≤ e'.serial)
    (hframes : ∀ i : Nat, e'.frames[i]?.map Frame.links = e.frames[i]?.map Frame.links)
    (hcells : ∀ c id r, e'.heap.cell c = .opened id r ↔ e.heap.cell c = .opened id r) :
    e'.Linked := by
  refine h.shrink hserial (fun {i f'} hf' => ?_) (hcells _ _ _).1 (fun {c f r} _ hf hr => ?_)
    fun _ _ => (hcells _ _ _).2
  · have heq := hframes i
    rw [hf'] at heq
    obtain ⟨f, hf, hff⟩ := Option.map_eq_some_iff.1 heq.symm
    obtain ⟨hid, hopen⟩ := Prod.mk.inj hff
    exact ⟨f, hf, hid.symm, fun rc hrc => hopen ▸ hrc⟩
  · have heq := hframes f.id.depth
    rw [hf] at heq
    obtain ⟨f', hf', hff⟩ := Option.map_eq_some_iff.1 heq
    exact ⟨f', hf', (Prod.mk.inj hff).2 ▸ hr⟩

theorem calm (h : e.Linked) (hcalm : e.Calm e') : e'.Linked :=
  h.congr (Nat.le_of_eq hcalm.serial_eq.symm) (fun i => by rw [hcalm.frames_eq])
    fun c id r => by rw [hcalm.cell_eq]

theorem setCellValue (h : e.Linked) (c : CellRef) (v : Value) : (e.setCellValue c v).Linked := by
  have hcells (d : CellRef) (id : FrameId) (r : Nat) := @opened_setCellValue_iff e c v d id r
  cases hc : e.heap.cell c with
  | opened id r =>
    rw [Engine.setCellValue, hc] at hcells ⊢
    refine h.congr (Nat.le_refl _) (fun i => ?_) hcells
    simp only [Array.getElem?_modify]
    split
    · rw [Option.map_map]
      rfl
    · rfl
  | closed w =>
    rw [Engine.setCellValue, hc] at hcells ⊢
    exact h.congr (Nat.le_refl _) (fun _ => rfl) hcells

theorem advances (h : e.Linked) (hpos : 0 < e.depth) (hadv : e.Advances e') : e'.Linked := by
  have htop {id : FrameId} (hid : id = e.frame.id) :
      e'.frames[id.depth]? = some e'.frame ∧ e'.frame.id = id := by
    rw [hid, h.depth_frame hpos, ← hadv.depth_eq]
    exact ⟨getElem?_depth (hadv.depth_eq ▸ hpos), hadv.id_eq⟩
  exact
    { depth_eq := fun hf => by
        obtain ⟨f₀, hf₀, hid⟩ := hadv.exists_getElem? hpos hf
        rw [hid]
        exact h.depth_eq hf₀
      serial_lt := fun hij hf hg => by
        obtain ⟨f₀, hf₀, hfid⟩ := hadv.exists_getElem? hpos hf
        obtain ⟨g₀, hg₀, hgid⟩ := hadv.exists_getElem? hpos hg
        rw [hfid, hgid]
        exact h.serial_lt hij hf₀ hg₀
      serial_le := fun hf => by
        obtain ⟨f₀, hf₀, hid⟩ := hadv.exists_getElem? hpos hf
        rw [hid, hadv.serial_eq]
        exact h.serial_le hf₀
      frame_of_open := fun {c id r} hc => by
        -- a cell that was there has kept its frame, a new one is open on the running frame
        by_cases hhas : e.heap.HasCell c
        · rw [hadv.cell_eq c hhas] at hc
          obtain ⟨f, hf, hid, hr⟩ := h.frame_of_open hc
          rcases Nat.lt_or_eq_of_le (Nat.succ_le_of_lt (lt_depth_of_getElem? hf)) with hi | hi
          · exact ⟨f, by rw [hadv.getElem?_below _ hi, hf], hid, hr⟩
          · obtain rfl : f = e.frame := (frame_eq_of_getElem? (by
              rw [← hf, ← hi]
              rfl)).symm
            obtain ⟨htop, hid'⟩ := htop hid.symm
            exact ⟨e'.frame, htop, hid', hadv.lookup r c hr⟩
        · obtain ⟨hid, hr⟩ := hadv.lookup_of_new hpos c id r hhas hc
          obtain ⟨htop, hid'⟩ := htop hid
          exact ⟨e'.frame, htop, hid', hr⟩
      open_of_mem := fun {i f r c} hf hmem => by
        obtain ⟨hi, hf₀⟩ | ⟨hi, rfl⟩ := hadv.getElem?_cases hf
        · have hc := h.open_of_mem hf₀ hmem
          rwa [hadv.cell_eq c (Heap.hasCell_of_opened hc)]
        · rw [hadv.id_eq]
          by_cases hmem₀ : (r, c) ∈ e.frame.openCells
          · have hc := h.mem_openCells_iff.1 hmem₀
            rwa [hadv.cell_eq c (Heap.hasCell_of_opened hc)]
          · exact (hadv.new_of_mem r c hmem hmem₀).2 }

theorem passes (h : e.Linked) (hpass : e.Passes e') : e'.Linked := by
  obtain ⟨g, rfl, hlinks, -⟩ := hpass
  refine h.congr (Nat.le_refl _) (fun i => ?_) fun _ _ _ => Iff.rfl
  rw [getElem?_updateFrame]
  split
  · rw [Option.map_map]
    exact congrArg (Option.map · e.frames[i]?) (funext hlinks)
  · rfl

theorem push (h : e.Linked) (cl : Closure) (args : List Value) : (e.push cl args).Linked := by
  have hcases {i : Nat} {f : Frame} (hf : (e.push cl args).frames[i]? = some f) :
      e.frames[i]? = some f ∨
        (i = e.depth ∧ f.id = ⟨e.depth, e.serial + 1⟩ ∧ f.openCells = []) := by
    rw [getElem?_push] at hf
    split at hf
    · exact .inr ⟨‹_›, by rw [← Option.some.inj hf]; exact ⟨rfl, rfl⟩⟩
    · exact .inl hf
  exact
    { depth_eq := fun hf => by
        obtain hf | ⟨hi, hid, -⟩ := hcases hf
        · exact h.depth_eq hf
        · rw [hid, hi]
      serial_lt := fun hij hf hg => by
        obtain hg | ⟨hj, hgid, -⟩ := hcases hg
        · obtain hf | ⟨hi, -, -⟩ := hcases hf
          · exact h.serial_lt hij hf hg
          · exact absurd (lt_depth_of_getElem? hg) (by omega)
        · obtain hf | ⟨hi, -, -⟩ := hcases hf
          · rw [hgid]
            exact Nat.lt_succ_of_le (h.serial_le hf)
          · omega
      serial_le := fun hf => by
        obtain hf | ⟨-, hid, -⟩ := hcases hf
        · exact Nat.le_succ_of_le (h.serial_le hf)
        · rw [hid]
          exact Nat.le_refl _
      frame_of_open := fun hc => by
        obtain ⟨f, hf, hid, hr⟩ := h.frame_of_open hc
        refine ⟨f, ?_, hid, hr⟩
        rw [getElem?_push, if_neg (Nat.ne_of_lt (lt_depth_of_getElem? hf)), hf]
      open_of_mem := fun hf hmem => by
        obtain hf | ⟨-, -, hopen⟩ := hcases hf
        · exact h.open_of_mem hf hmem
        · exact absurd (hopen ▸ hmem) (by simp) }

theorem newClosedCells (h : e.Linked) (vs : List Value) :
    ({ e with heap := (e.heap.newClosedCells vs).2 } : Engine).Linked :=
  h.congr (Nat.le_refl _) (fun _ => rfl) fun _ _ _ => Heap.opened_newClosedCells_iff _ _

theorem load (h : e.Linked) (p : Prototype) : (e.load p).Linked := (h.newClosedCells _).push _ _

theorem closeCells (h : e.Linked) (first : Nat) : (e.closeCells first).Linked := by
  have hframes (i : Nat) : (e.closeCells first).frames[i]? =
      if i + 1 = e.depth then e.frames[i]?.map fun _ => (e.frame.closeFrom first e.heap).1
      else e.frames[i]? := getElem?_updateFrame _ _ i
  have hcells : ∀ {c : CellRef} {id : FrameId} {r : Nat},
      (e.closeCells first).heap.cell c = .opened id r ↔
        e.heap.cell c = .opened id r ∧ (id = e.frame.id → r < first) :=
    h.opened_closeFrom_iff first
  refine h.shrink (Nat.le_refl _) (fun {i f'} hf' => ?_) (fun hc => (hcells.1 hc).1)
    (fun {c f r} hc hf hr => ?_) fun {i f' r c} hf' hrc hc => ?_
  · rw [hframes] at hf'
    split at hf'
    · obtain ⟨f, hf, rfl⟩ := Option.map_eq_some_iff.1 hf'
      obtain rfl : i = e.depth - 1 := by omega
      obtain rfl := frame_eq_of_getElem? hf
      exact ⟨e.frame, hf, rfl, fun rc hrc => (List.mem_filter.1 hrc).1⟩
    · exact ⟨f', hf', rfl, fun _ => id⟩
  · rw [hframes, hf]
    split
    · rename_i hi
      have hlt := (hcells.1 hc).2
      obtain rfl := frame_eq_of_getElem? (e := e) (by rwa [← hi])
      exact ⟨_, rfl, (Frame.lookup_closeFrom _ _ (hlt rfl)).trans hr⟩
    · exact ⟨f, rfl, hr⟩
  · refine hcells.2 ⟨hc, fun hid => ?_⟩
    rw [hframes] at hf'
    split at hf'
    · obtain ⟨f, hf, rfl⟩ := Option.map_eq_some_iff.1 hf'
      simpa using (List.mem_filter.1 hrc).2
    · -- another frame than the running one has another depth in its identity
      have hlt := lt_depth_of_getElem? hf'
      have hdepth := h.depth_frame (by omega)
      rw [← hid, h.depth_eq hf'] at hdepth
      omega

theorem pop (h : e.Linked) : e.pop.2.Linked := by
  have hof {i : Nat} {f : Frame} (hf : e.pop.2.frames[i]? = some f) :
      i + 1 < e.depth ∧ e.frames[i]? = some f := by
    rw [getElem?_pop] at hf
    split at hf
    · exact ⟨‹_›, hf⟩
    · exact absurd hf (by simp)
  have hcells : ∀ {c : CellRef} {id : FrameId} {r : Nat},
      e.pop.2.heap.cell c = .opened id r ↔
        e.heap.cell c = .opened id r ∧ (id = e.frame.id → r < 0) := h.opened_closeFrom_iff 0
  refine h.shrink (Nat.le_refl _) (fun {i f'} hf' => ?_) (fun hc => (hcells.1 hc).1)
    (fun {c f r} hc hf hr => ?_) fun {i f' r c} hf' hrc hc => ?_
  · exact ⟨f', (hof hf').2, rfl, fun _ => id⟩
  · rw [getElem?_pop, if_pos, hf]
    · exact ⟨f, rfl, hr⟩
    · -- a cell that is still open is not one of the frame that goes
      have hne : f.id ≠ e.frame.id := fun hid => absurd ((hcells.1 hc).2 hid) (by omega)
      refine Nat.lt_of_le_of_ne (lt_depth_of_getElem? hf) fun hi => hne ?_
      rw [frame_eq_of_getElem? (e := e) (by rwa [← hi])]
  · refine hcells.2 ⟨hc, fun hid => ?_⟩
    obtain ⟨hi, hf⟩ := hof hf'
    have hdepth := h.depth_frame (by omega)
    rw [← hid, h.depth_eq hf] at hdepth
    omega

theorem popMany (n : Nat) (r : List Value × Engine) (h : r.2.Linked) :
    (Engine.popMany n r).2.Linked := by
  induction n generalizing r with
  | zero => exact h
  | succ n ih => exact ih _ h.pop

theorem unwindTo (h : e.Linked) (depth : Nat) : (e.unwindTo depth).2.Linked := popMany _ _ h

end Linked

end Engine

end LuaBytecode
