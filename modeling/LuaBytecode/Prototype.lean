import LuaBytecode.Instruction

/-!
# Prototypes

A `Prototype` is the compiled form of a function: its code, its constants, where its upvalues
come from, the functions nested in it, and line information for error messages.
-/

namespace LuaBytecode

/-- A value that code may hold. -/
inductive Constant where
  | nil
  | bool (b : Bool)
  | number (n : Number)
  | string (s : String)
deriving DecidableEq

def Constant.toValue : Constant → Value
  | nil => .nil
  | bool b => .bool b
  | number n => .number n
  | string s => .string s

/-- Where a new function finds an upvalue. -/
inductive UpvalueSource where
  /-- In a register of the frame that creates the function. -/
  | register (index : UInt8)
  /-- Among the upvalues of the function that creates it. -/
  | enclosing (index : UInt8)
deriving DecidableEq

/-- The compiled form of a function. -/
structure Prototype where
  /-- The chunk that the function comes from. -/
  source : String := ""
  lineDefined : UInt32 := 0
  lastLineDefined : UInt32 := 0
  /-- The number of fixed parameters. -/
  params : UInt8 := 0
  /-- Further arguments are kept. -/
  isVararg : Bool := false
  /-- The registers that the function needs. -/
  maxStack : UInt8 := 0
  code : Array Instruction := #[]
  constants : Array Constant := #[]
  upvalues : Array UpvalueSource := #[]
  /-- The functions that `CLOSURE` creates. -/
  protos : Array Prototype := #[]
  /-- The line of each instruction; it may be shorter than the code. -/
  lines : Array UInt32 := #[]

namespace Prototype

instance : Inhabited Prototype := ⟨{}⟩

/-- The line of an instruction; without line information, instructions count as lines. -/
def lineAt (p : Prototype) (pc : Nat) : UInt32 :=
  p.lines.getD pc (UInt32.ofNat pc + 1)

end Prototype

end LuaBytecode
