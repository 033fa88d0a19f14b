import LuaBytecode.Proofs.Variable.Event

/-!
# Captured variables are boxes

Where a variable lives changes: in a register while its block runs, in a cell afterwards, and
which of the two it is depends on jumps, returns and faults.  The functions that share it cannot
tell.

* `Machine.SharesBoxes` : what it means that the cells behave as boxes from a state on.
* `Machine.sharesBoxes_of_reachable` : **they do so in every state of every run.**

That two captures yield one cell or two is decided by whether the cell is still open: a register
has at most one open cell, and a cell that is closed stays so.
-/

namespace LuaBytecode.Machine

variable {config : Config} {m m' : Machine} {c : CellRef} {id : FrameId} {r : Nat}

/-! ### Runs -/

/-- A state of a run and a later one. -/
def Later : Machine → Machine → Prop := Relation.ReflTransGen Next

/-- A state of a run and a later one, with no step between them that closes a register. -/
def LaterOpen (id : FrameId) (r : Nat) : Machine → Machine → Prop :=
  Relation.ReflTransGen fun m m' => m.Next m' ∧ ¬ m.Closes id r

theorem LaterOpen.later (h : LaterOpen id r m m') : m.Later m' :=
  Relation.ReflTransGen.mono (fun _ _ => And.left) _ _ h

theorem Reachable.next (h : Reachable config m) (hn : m.Next m') : Reachable config m' :=
  Relation.ReflTransGen.tail h hn

theorem Reachable.later (h : Reachable config m) (hrun : m.Later m') : Reachable config m' :=
  Relation.ReflTransGen.trans h hrun

/-- Cells stay given out. -/
theorem Reachable.hasCell (h : Reachable config m) (hrun : m.Later m')
    (hc : m.engine.heap.HasCell c) : m'.engine.heap.HasCell c := by
  induction hrun with
  | refl => exact hc
  | tail hrun hn ih => exact ((h.later hrun).sound.next hn).2.hasCell ih

/-- A cell that is open has been open on its register since it was given out. -/
theorem Reachable.opened_of_opened (h : Reachable config m) (hrun : m.Later m')
    (hc : m.engine.heap.HasCell c) (ho : m'.engine.heap.cell c = .opened id r) :
    m.engine.heap.cell c = .opened id r := by
  induction hrun with
  | refl => exact ho
  | tail hrun hn ih =>
    have hm := h.later hrun
    exact ih ((hm.sound.next hn).2.opened_of_opened hm.linked (h.hasCell hrun hc) ho)

/-- As long as its register is not closed, a cell is open. -/
theorem Reachable.opened (h : Reachable config m) (hrun : LaterOpen id r m m')
    (ho : m.engine.heap.cell c = .opened id r) : m'.engine.heap.cell c = .opened id r := by
  induction hrun with
  | refl => exact ho
  | tail hrun hn ih =>
    have hm := h.later (LaterOpen.later hrun)
    exact (hm.sound.next hn.1).2.opened hm.linked ih hn.2

/-- A step that captures is a step. -/
theorem Captures.next (h : m.Captures m' id r c) : m.Next m' := by
  obtain ⟨-, f, j, s, hcreates, -⟩ := h
  exact .step hcreates.2.1

/-- A step that captures closes nothing. -/
theorem Captures.not_closes (h : m.Captures m' id r c) {id' : FrameId} {r' : Nat} :
    ¬ m.Closes id' r' := by
  obtain ⟨-, f, j, s, ⟨⟨i, hi⟩, -⟩, -⟩ := h
  rintro (⟨i', hi', -⟩ | ⟨base, hleave, -⟩)
  · exact absurd (hi.symm.trans hi') (by simp)
  · obtain ⟨base', e, ha, -⟩ := instruction?_eq_some_iff.1 hi
    obtain ⟨e', he'⟩ | ⟨f', e', he'⟩ := hleave
    · exact absurd (ha.symm.trans he') (by simp)
    · exact absurd (ha.symm.trans he') (by simp)

theorem Reachable.opened_of_captures (h : Reachable config m) (hcap : m.Captures m' id r c) :
    m'.engine.heap.cell c = .opened id r :=
  Machine.opened_of_captures (h.next hcap.next).linked hcap

/-! ### Boxes -/

/-- From this state on, the variables that functions share behave as boxes. -/
structure SharesBoxes (m : Machine) : Prop where
  /-- In a step a cell keeps its value, unless the running function assigns through it or it is
  open on a register that an instruction of its own frame writes. -/
  changed : ∀ m' c, m.Next m' → m.engine.heap.HasCell c →
    m'.engine.cellValue c = m.engine.cellValue c ∨ m.Assigns c (m'.engine.cellValue c) ∨
      m.Writes m' c
  /-- What is assigned through a cell is its value then. -/
  assigned : ∀ m' c v, m.Next m' → m.engine.heap.HasCell c → m.Assigns c v →
    m'.engine.cellValue c = v
  /-- Jumps, returns and the leaving of functions, also by faults, change no value. -/
  closing : ∀ m' c, m.Next m' → m.Closing → m'.engine.cellValue c = m.engine.cellValue c
  /-- Two upvalues of one function that are the same register have one cell. -/
  within : ∀ m' id r c c', m.Captures m' id r c → m.Captures m' id r c' → c' = c
  /-- Two captures of a register that is not closed in between yield one cell, and then what is
  assigned through it by one function is seen by the other, for ever after. -/
  same : ∀ m' m₁ m₁' id r c c', m.Captures m' id r c → LaterOpen id r m' m₁ →
    m₁.Captures m₁' id r c' → c' = c ∧ ∀ m₂ v, m₁'.Later m₂ →
      (m₂.engine.setCellValue c v).cellValue c' = v
  /-- Two captures of a register that is closed in between yield two cells.  The first one keeps
  its value to itself, and neither is changed by an assignment through the other. -/
  apart : ∀ m' k k' m₁ m₁' id r c c', m.Captures m' id r c → m'.Later k → k.Closes id r →
    k.Next k' → k'.Later m₁ → m₁.Captures m₁' id r c' → c' ≠ c ∧ ∀ m₂ v, m₁'.Later m₂ →
      (∃ w, m₂.engine.heap.cell c = .closed w) ∧
      (m₂.engine.setCellValue c v).cellValue c' = m₂.engine.cellValue c' ∧
      (m₂.engine.setCellValue c' v).cellValue c = m₂.engine.cellValue c

/-- A captured cell is a box from then on. -/
theorem Reachable.cellValue_setCellValue_self (h : Reachable config m)
    (hcap : m.Captures m' id r c) {m₂ : Machine} (hrun : m'.Later m₂) (v : Value) :
    (m₂.engine.setCellValue c v).cellValue c = v := by
  have hm' := h.next hcap.next
  have hc := hm'.hasCell hrun (Heap.hasCell_of_opened (h.opened_of_captures hcap))
  exact Engine.cellValue_setCellValue_self (hm'.later hrun).linked hc v

/-- A captured cell is closed once its register has been. -/
theorem Reachable.closed_of_closes (h : Reachable config m) (hcap : m.Captures m' id r c)
    {k k' m₂ : Machine} (hk : m'.Later k) (hclose : k.Closes id r) (hk' : k.Next k')
    (hrun : k'.Later m₂) : ∃ w, m₂.engine.heap.cell c = .closed w := by
  have hm' := h.next hcap.next
  have hkreach := hm'.later hk
  have hc := Heap.hasCell_of_opened (h.opened_of_captures hcap)
  have hck' := hm'.hasCell (hk.tail hk') hc
  cases hcell : m₂.engine.heap.cell c with
  | closed w => exact ⟨w, rfl⟩
  | opened id₂ r₂ =>
    -- it would have been open on the same register when that was closed
    have ho := (hkreach.next hk').opened_of_opened hrun hck' hcell
    have hfirst := hm'.opened_of_opened (hk.tail hk') hc ho
    obtain ⟨rfl, rfl⟩ := Cell.opened.inj ((h.opened_of_captures hcap).symm.trans hfirst)
    exact absurd ho (not_opened_of_closes hkreach.linked hk' hclose)

/-- **Captured variables behave as boxes**, in every state that a new engine can come to. -/
theorem sharesBoxes_of_reachable (h : Reachable config m) : m.SharesBoxes where
  changed m' c hn hc := (h.sound.next hn).2.cellValue h.linked hc
  assigned m' c v hn hc hassign := cellValue_of_assigns h.linked hn hassign hc
  closing m' c hn hclosing := cellValue_of_closing h.linked hn hclosing c
  within m' id r c c' hcap hcap' :=
    (h.next hcap.next).linked.eq_of_open (h.opened_of_captures hcap') (h.opened_of_captures hcap)
  same m' m₁ m₁' id r c c' hcap hrun hcap' := by
    have hm' := h.next hcap.next
    have hm₁ := hm'.later hrun.later
    have ho : m₁'.engine.heap.cell c = .opened id r :=
      hm'.opened (hrun.tail ⟨hcap'.next, hcap'.not_closes⟩) (h.opened_of_captures hcap)
    obtain rfl : c' = c :=
      (hm₁.next hcap'.next).linked.eq_of_open (hm₁.opened_of_captures hcap') ho
    exact ⟨rfl, fun m₂ v hlater => hm₁.cellValue_setCellValue_self hcap' hlater v⟩
  apart m' k k' m₁ m₁' id r c c' hcap hk hclose hk' hrun hcap' := by
    have hm' := h.next hcap.next
    have hm₁ := (hm'.later (hk.tail hk')).later hrun
    have hclosed {m₂ : Machine} (hlater : m₁'.Later m₂) :=
      h.closed_of_closes hcap hk hclose hk' ((hrun.tail hcap'.next).trans hlater)
    have hne : c' ≠ c := by
      rintro rfl
      obtain ⟨w, hw⟩ := hclosed .refl
      exact absurd ((hm₁.opened_of_captures hcap').symm.trans hw) (by simp)
    refine ⟨hne, fun m₂ v hlater => ⟨hclosed hlater, ?_, ?_⟩⟩
    · exact Engine.cellValue_setCellValue_of_ne ((hm₁.next hcap'.next).later hlater).linked hne v
    · exact Engine.cellValue_setCellValue_of_ne ((hm₁.next hcap'.next).later hlater).linked
        (Ne.symm hne) v

/-- A chunk that captures its register 1, closes it, and captures it once more. -/
def capturing : Prototype :=
  { code := #[.abx .closure 0 0, .asbx .jump 2 0, .abx .closure 2 0, .abc .ret 0 1 0]
    protos := #[counter] }

/-- The two functions of the chunk have a box each. -/
theorem sharesBoxes_of_reachable_capturing :
    let m := running capturing
    m.SharesBoxes ∧ m.Captures (m.after 1) ⟨0, 1⟩ 1 ⟨0⟩ ∧ (m.after 1).Closes ⟨0, 1⟩ 1 ∧
      (m.after 2).Captures (m.after 3) ⟨0, 1⟩ 1 ⟨1⟩ := by
  refine ⟨sharesBoxes_of_reachable (reachable_running capturing), ?_, ?_, ?_⟩
  · exact ⟨rfl, ⟨counter, #[⟨0⟩]⟩, 0, 1, ⟨⟨.abx .closure 0 0, rfl⟩, rfl, rfl⟩, rfl, rfl, rfl⟩
  · exact .jump (.asbx .jump 2 0) rfl (by decide) rfl (by decide)
  · exact ⟨rfl, ⟨counter, #[⟨1⟩]⟩, 0, 1, ⟨⟨.abx .closure 2 0, rfl⟩, rfl, rfl⟩, rfl, rfl, rfl⟩

end LuaBytecode.Machine
