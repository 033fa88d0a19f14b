import LuaBytecode.Heap

/-!
# Frames

A `Frame` is the record of a running function: its registers, where it stands in the code, and
the cells that are open on its registers.  The register file grows when it is written, and a
register that it does not have reads as nil.
-/

namespace LuaBytecode

/-- The record of a running function. -/
structure Frame where
  id : FrameId
  closure : Closure
  registers : Array Value
  /-- One past the last register that an operation with an open number of results wrote. -/
  top : Nat
  /-- The position of the next instruction. -/
  pc : Nat := 0
  /-- The arguments beyond the fixed parameters. -/
  varargs : List Value := []
  /-- The open cells, by register. -/
  openCells : List (Nat × CellRef) := []
  /-- What the function returns. -/
  results : List Value := []

namespace Frame

/-- A list cut or filled with nil to the given length. -/
def padded (n : Nat) (vs : List Value) : List Value :=
  vs.take n ++ List.replicate (n - vs.length) .nil

@[simp]
theorem length_padded (n : Nat) (vs : List Value) : (padded n vs).length = n := by
  simp only [padded, List.length_append, List.length_take, List.length_replicate]
  omega

/-- A frame at the start of a function: the parameters take the first registers, and a vararg
function keeps the arguments beyond them. -/
def start (id : FrameId) (closure : Closure) (args : List Value) (minRegisters : Nat) : Frame :=
  let params := closure.proto.params.toNat
  let size := max closure.proto.maxStack.toNat (max minRegisters params)
  { id
    closure
    registers := (padded size (args.take params)).toArray
    top := params
    varargs := if closure.proto.isVararg then args.drop params else [] }

def proto (f : Frame) : Prototype := f.closure.proto

/-! ### Registers -/

/-- The value of a register. -/
def get (f : Frame) (r : Nat) : Value := f.registers.getD r .nil

/-- Write a register. -/
def set (f : Frame) (r : Nat) (v : Value) : Frame :=
  { f with
    registers :=
      if r < f.registers.size then f.registers.setIfInBounds r v
      else (f.registers ++ Array.replicate (r - f.registers.size) Value.nil).push v }

theorem get_set (f : Frame) (r r' : Nat) (v : Value) :
    (f.set r v).get r' = if r = r' then v else f.get r' := by
  simp only [get, set, Array.getD_eq_getD_getElem?]
  split
  · grind
  · rcases Nat.lt_trichotomy r r' with h | h | h <;> grind

/-- Write consecutive registers. -/
def setRange (f : Frame) (base : Nat) : List Value → Frame
  | [] => f
  | v :: vs => (f.set base v).setRange (base + 1) vs

/-- The values of the registers from `first` up to `last`, which is left out. -/
def slice (f : Frame) (first last : Nat) : List Value :=
  (List.range' first (last - first)).map f.get

/-! ### Cells -/

/-- The cell of an upvalue of the running function. -/
def upvalue? (f : Frame) (i : Nat) : Option CellRef := f.closure.upvalues[i]?

/-- The open cell of a register, which is created unless it is there. -/
def capture (f : Frame) (h : Heap) (r : Nat) : CellRef × Frame × Heap :=
  match f.openCells.lookup r with
  | some c => (c, f, h)
  | none =>
    let (c, h) := h.newCell (.opened f.id r)
    (c, { f with openCells := (r, c) :: f.openCells }, h)

/-- Give the cells the values of their registers. -/
def closeAll (f : Frame) : List (Nat × CellRef) → Heap → Heap
  | [], h => h
  | (r, c) :: cs, h => f.closeAll cs (h.setCell c (.closed (f.get r)))

/-- Close the open cells of the registers from `first` on. -/
def closeFrom (f : Frame) (first : Nat) (h : Heap) : Frame × Heap :=
  let h := f.closeAll (f.openCells.filter fun rc => first ≤ rc.1) h
  ({ f with openCells := f.openCells.filter fun rc => rc.1 < first }, h)

end Frame

end LuaBytecode
