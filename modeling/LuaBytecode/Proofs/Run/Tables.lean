import LuaBytecode.Proofs.Run.Parts
import LuaBytecode.Proofs.Table.Items

/-!
# The tables of a run

Instructions and host functions get at tables in a few ways only: they make new ones, write
entries, take steps of traversals and replace metatables.  So whatever is known of the tables that
come about by operations is true of every table of every run.

* `Heap.table_updateTable_cases` : a change of one table.
* `Engine.Reworks` : the tables that come about by operations still do so, in every part of a run.
* `Machine.Reachable.tables` : **every table of a run has come about by operations.**
-/

namespace LuaBytecode

variable {e e' : Engine}

/-! ### Tables of the heap -/

namespace Heap

theorem updateTable_id (h : Heap) (t : TableRef) : h.updateTable t (fun table => table) = h := by
  have htables : h.tables.modify t.index (fun table => table) = h.tables := by
    ext i <;> simp [Array.getElem_modify]
  rw [updateTable, htables]

theorem updateTable_updateTable (h : Heap) (t : TableRef) (f g : Table → Table) :
    (h.updateTable t f).updateTable t g = h.updateTable t fun table => g (f table) := by
  simp only [updateTable, Heap.mk.injEq, and_true]
  ext i
  · simp
  · simp only [Array.getElem_modify]
    split <;> rfl

/-- One table changes at most, and there is none at an address that was not given out. -/
theorem table_updateTable_cases (h : Heap) (t u : TableRef) (f : Table → Table) :
    (h.updateTable t f).table u = h.table u ∨
      t = u ∧ (h.updateTable t f).table u = f (h.table t) := by
  by_cases ht : t.index < h.tables.size
  · rw [table_updateTable h t u f ht]
    split
    · rename_i htu
      exact .inr ⟨htu, by rw [htu]⟩
    · exact .inl rfl
  · have hsame : (h.updateTable t f).tables = h.tables := by
      refine Array.ext_getElem? fun i => ?_
      rw [updateTable, Array.getElem?_modify]
      split
      · rename_i hi
        rw [← hi, Array.getElem?_eq_none (Nat.le_of_not_lt ht), Option.map_none]
      · rfl
    rw [table, table, hsame]
    exact .inl rfl

/-- A new table is as good as none. -/
theorem table_newTable (h : Heap) (u : TableRef) : h.newTable.2.table u = h.table u := by
  simp only [newTable, table, Array.getD_eq_getD_getElem?, Array.getElem?_push]
  split
  · rename_i hu
    rw [hu, Array.getElem?_eq_none (Nat.le_refl _)]
    rfl
  · rfl

theorem tables_newClosedCells (h : Heap) (vs : List Value) :
    (h.newClosedCells vs).2.tables = h.tables := by
  induction vs generalizing h with
  | nil => rfl
  | cons v vs ih => exact ih _

end Heap

/-- Cells are closed without a look at tables. -/
theorem Frame.tables_closeAll (f : Frame) (cs : List (Nat × CellRef)) (h : Heap) :
    (f.closeAll cs h).tables = h.tables := by
  induction cs generalizing h with
  | nil => rfl
  | cons c cs ih => exact ih _

/-- Storing items is writing them to the one table. -/
theorem Action.storeItems_eq (t : TableRef) (n : Nat) (vs : List Value) (e : Engine) :
    storeItems t n vs e = { e with heap := e.heap.updateTable t (·.setItems n vs) } := by
  induction vs generalizing n e with
  | nil =>
    change e = { e with heap := e.heap.updateTable t (fun table => table) }
    rw [Heap.updateTable_id]
  | cons v vs ih =>
    rw [storeItems, ih, Heap.updateTable_updateTable]
    rfl

/-! ### Tables that come about by operations -/

namespace Engine

/-- If all tables have come about by operations before, so have they behind. -/
def Reworks (e e' : Engine) : Prop :=
  (∀ t, (e.heap.table t).Reachable) → ∀ t, (e'.heap.table t).Reachable

instance : IsPreorder Engine Reworks where
  refl _ h := h
  trans _ _ _ h₁ h₂ h := h₂ (h₁ h)

theorem reworks_of_tables_eq (h : e'.heap.tables = e.heap.tables) : e.Reworks e' := by
  intro hall t
  rw [Heap.table, h]
  exact hall t

theorem reworks_operate (e : Engine) (t : TableRef) (o : Table.Operation) :
    e.Reworks { e with heap := e.heap.updateTable t (·.apply o) } := by
  intro hall u
  obtain hsame | ⟨-, hnew⟩ := e.heap.table_updateTable_cases t u (·.apply o)
  · exact hsame.symm ▸ hall u
  · exact hnew.symm ▸ (hall t).apply o

theorem reworks_newTable (e : Engine) : e.Reworks e.newTable.2 := by
  intro hall t
  exact (e.heap.table_newTable t).symm ▸ hall t

theorem tables_captureRegister (e : Engine) (r : Nat) :
    (e.captureRegister r).2.heap.tables = e.heap.tables := by
  unfold captureRegister Frame.capture
  cases e.frame.openCells.lookup r <;> rfl

theorem tables_closeCells (e : Engine) (first : Nat) :
    (e.closeCells first).heap.tables = e.heap.tables :=
  e.frame.tables_closeAll _ e.heap

theorem tables_setCellValue (e : Engine) (c : CellRef) (v : Value) :
    (e.setCellValue c v).heap.tables = e.heap.tables := by
  unfold setCellValue
  split <;> rfl

theorem tables_popMany (n : Nat) (r : List Value × Engine) :
    (popMany n r).2.heap.tables = r.2.heap.tables := by
  induction n generalizing r with
  | zero => rfl
  | succ n ih =>
    obtain ⟨vs, e⟩ := r
    exact (ih _).trans (e.frame.tables_closeAll _ e.heap)

theorem tables_unwindTo (e : Engine) (depth : Nat) :
    (e.unwindTo depth).2.heap.tables = e.heap.tables := tables_popMany _ _

theorem tables_load (e : Engine) (p : Prototype) : (e.load p).heap.tables = e.heap.tables :=
  e.heap.tables_newClosedCells _

end Engine

open Engine (Reworks reworks_of_tables_eq)

/-- Cells are captured and functions made without a look at tables. -/
theorem Action.reworks_closure (n : Nat) : (closure n).Walks Reworks := by
  have captured (us : List UpvalueSource) : (captureAll us).Walks Reworks := by
    induction us with
    | nil => exact .pure _
    | cons u us ih =>
      cases u with
      | register r =>
        have hcapture : (update fun e => e.captureRegister r.toNat).Walks Reworks :=
          .update fun e => reworks_of_tables_eq (e.tables_captureRegister r.toNat)
        exact .bind hcapture fun _ => .bind ih fun _ => .pure _
      | enclosing n =>
        exact .bind (.read _) fun _ => .bind (.orFail _ _) fun _ => .bind ih fun _ => .pure _
  exact .bind (.read _) fun _ => .bind (.orFail _ _) fun _ => .bind (captured _) fun _ =>
    .bind (.update fun _ => reworks_of_tables_eq rfl) fun _ => .pure _

/-- **Every part of a run reworks tables by their operations.** -/
instance : Engine.Covers Reworks where
  operate := Engine.reworks_operate
  newTable := Engine.reworks_newTable
  newNative _ _ _ := reworks_of_tables_eq rfl
  closure := Action.reworks_closure
  events _ _ := reworks_of_tables_eq rfl
  updateFrame _ _ _ := reworks_of_tables_eq rfl
  setCellValue e c v := reworks_of_tables_eq (e.tables_setCellValue c v)
  closeCells e first := reworks_of_tables_eq (e.tables_closeCells first)
  nativeDepth _ _ := reworks_of_tables_eq rfl
  push _ := reworks_of_tables_eq rfl
  load e p := reworks_of_tables_eq (e.tables_load p)
  unwindTo e depth := reworks_of_tables_eq (e.tables_unwindTo depth)

namespace Machine

/-- An empty engine has no tables but the new ones of the globals and the default metamethods. -/
theorem tables_empty (config : Config) (t : TableRef) :
    ((Engine.empty config).heap.table t).Reachable := by
  change ((({} : Heap).newTable.2.newTable.2).table t).Reachable
  rw [Heap.table_newTable, Heap.table_newTable]
  exact .new

/-- **Every table of a run has come about by operations**, so what these keep holds of it: its
parts are well formed. -/
theorem Reachable.tables {config : Config} {m : Machine} (h : Reachable config m) (t : TableRef) :
    (m.engine.heap.table t).Reachable := h.covers (R := Reworks) (tables_empty config) t

end Machine

end LuaBytecode
