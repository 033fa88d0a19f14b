import LuaBytecode.Host
import LuaBytecode.Table

/-!
# The heap

Tables, upvalue cells and functions have identity: a `Heap` keeps them under addresses that are
given out in order and never used twice.
-/

namespace LuaBytecode

/-- A function: compiled code with its upvalues, or a host function. -/
inductive Function where
  | closure (c : Closure)
  | native (name : String) (body : List Value → Host)

/-- The tables, cells and functions. -/
structure Heap where
  tables : Array Table := #[]
  cells : Array Cell := #[]
  functions : Array Function := #[]

namespace Heap

instance : Inhabited Heap := ⟨{}⟩

/-! ### Tables -/

/-- The table at an address; an empty one at an address that was not given out. -/
def table (h : Heap) (t : TableRef) : Table := h.tables.getD t.index {}

/-- A new empty table. -/
def newTable (h : Heap) : TableRef × Heap :=
  (⟨h.tables.size⟩, { h with tables := h.tables.push {} })

def updateTable (h : Heap) (t : TableRef) (f : Table → Table) : Heap :=
  { h with tables := h.tables.modify t.index f }

theorem table_updateTable (h : Heap) (t u : TableRef) (f : Table → Table)
    (ht : t.index < h.tables.size) :
    (h.updateTable t f).table u = if t = u then f (h.table u) else h.table u := by
  obtain ⟨i⟩ := t
  obtain ⟨j⟩ := u
  simp only [table, updateTable, TableRef.mk.injEq, Array.getD_eq_getD_getElem?,
    Array.getElem?_modify]
  split <;> simp_all

/-- Write an entry of a table; nil and NaN are no keys. -/
def setEntry (h : Heap) (t : TableRef) (key v : Value) : Except Cause Heap :=
  match Key.ofValue? key with
  | some k => .ok (h.updateTable t (·.put k v))
  | none => .error (Table.keyFault key)

/-- The metatable of a table, which is created unless it is there. -/
def ensureMetatable (h : Heap) (t : TableRef) : TableRef × Heap :=
  match (h.table t).metatable with
  | some m => (m, h)
  | none =>
    let (m, h) := h.newTable
    (m, h.updateTable t fun tbl => { tbl with metatable := some m })

/-! ### Cells -/

/-- The cell at an address; one that holds nil at an address that was not given out. -/
def cell (h : Heap) (c : CellRef) : Cell := h.cells.getD c.index (.closed .nil)

def newCell (h : Heap) (c : Cell) : CellRef × Heap :=
  (⟨h.cells.size⟩, { h with cells := h.cells.push c })

def setCell (h : Heap) (c : CellRef) (state : Cell) : Heap :=
  { h with cells := h.cells.setIfInBounds c.index state }

theorem cell_setCell (h : Heap) (c d : CellRef) (state : Cell) (hc : c.index < h.cells.size) :
    (h.setCell c state).cell d = if c = d then state else h.cell d := by
  obtain ⟨i⟩ := c
  obtain ⟨j⟩ := d
  simp only [cell, setCell, CellRef.mk.injEq, Array.getD_eq_getD_getElem?,
    Array.getElem?_setIfInBounds]
  split <;> simp_all

/-- A closed cell for each of some values. -/
def newClosedCells (h : Heap) : List Value → List CellRef × Heap
  | [] => ([], h)
  | v :: vs =>
    let (c, h) := h.newCell (.closed v)
    let (cs, h) := h.newClosedCells vs
    (c :: cs, h)

/-! ### Functions -/

def function? (h : Heap) (f : FunctionRef) : Option Function := h.functions[f.index]?

def newFunction (h : Heap) (f : Function) : FunctionRef × Heap :=
  (⟨h.functions.size⟩, { h with functions := h.functions.push f })

/-! ### Text -/

/-- The text of an address. -/
def addressText (n : Nat) : String :=
  String.ofList ('0' :: 'x' :: Nat.toDigits 16 (0x550000000000 + 16 * n))

/-- The text of a value: tables and functions are told apart by their addresses, and host
functions by their names. -/
def text (h : Heap) : Value → String
  | .nil => "nil"
  | .bool b => if b then "true" else "false"
  | .number n => n.text
  | .string s => s
  | .table t => "table: " ++ addressText t.index
  | .function f =>
    match h.function? f with
    | some (.native name _) => "function: builtin '" ++ name ++ "'"
    | _ => "function: " ++ addressText f.index

end Heap

end LuaBytecode
