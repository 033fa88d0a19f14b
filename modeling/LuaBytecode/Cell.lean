import LuaBytecode.Prototype

/-!
# Upvalue cells

A variable that several functions share lives in a cell.  While the frame of the variable runs,
the cell is open and names the register that holds the value; when the variable goes out of
scope the cell is closed and holds the value itself.
-/

namespace LuaBytecode

/-- The identity of a frame: its place on the stack, and a number that no other frame has. -/
structure FrameId where
  depth : Nat
  serial : Nat
deriving DecidableEq

/-- The address of a cell. -/
structure CellRef where
  index : Nat
deriving DecidableEq

/-- The state of a cell. -/
inductive Cell where
  | opened (frame : FrameId) (register : Nat)
  | closed (v : Value)
deriving DecidableEq

def Cell.isOpen : Cell → Bool
  | opened _ _ => true
  | closed _ => false

/-- A prototype with the cells of its upvalues. -/
structure Closure where
  proto : Prototype
  upvalues : Array CellRef := #[]

end LuaBytecode
