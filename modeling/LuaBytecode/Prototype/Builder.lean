import LuaBytecode.Prototype

/-!
# Building prototypes

A `Builder` grows a prototype instruction by instruction.  Each operation that adds something
gives back its index; equal constants share one index, where an integer and a float are never
equal, nor are floats that differ in any bit.
-/

namespace LuaBytecode

/-- A prototype under construction. -/
structure Builder where
  proto : Prototype
  /-- The line of the instructions to come; zero for none. -/
  line : UInt32 := 0

namespace Builder

/-- An empty function of a chunk. -/
def new (source : String) : Builder := { proto := { source, maxStack := 2 } }

def setParams (b : Builder) (n : UInt8) : Builder :=
  { b with proto := { b.proto with params := n } }

def setVararg (b : Builder) : Builder :=
  { b with proto := { b.proto with isVararg := true } }

def setMaxStack (b : Builder) (n : UInt8) : Builder :=
  { b with proto := { b.proto with maxStack := n } }

def setLines (b : Builder) (defined last : UInt32) : Builder :=
  { b with proto := { b.proto with lineDefined := defined, lastLineDefined := last } }

def setLine (b : Builder) (line : UInt32) : Builder := { b with line }

/-- The position of the next instruction. -/
def pc (b : Builder) : Nat := b.proto.code.size

/-- The first `n` lines, with the given one for those that are missing. -/
def linesUpTo (lines : Array UInt32) (n : Nat) (line : UInt32) : Array UInt32 :=
  lines.take n ++ Array.replicate (n - lines.size) line

/-- Add an instruction; its position. -/
def emit (b : Builder) (i : Instruction) : Nat × Builder :=
  let lines :=
    if b.line = 0 then b.proto.lines
    else (linesUpTo b.proto.lines b.pc b.line).push b.line
  (b.pc, { b with proto := { b.proto with code := b.proto.code.push i, lines } })

/-- Replace an instruction. -/
def patch (b : Builder) (pc : Nat) (i : Instruction) : Builder :=
  { b with proto := { b.proto with code := b.proto.code.setIfInBounds pc i } }

/-- The index of a constant, which is added unless it is there. -/
def constant (b : Builder) (c : Constant) : UInt32 × Builder :=
  match b.proto.constants.findIdx? (· = c) with
  | some i => (UInt32.ofNat i, b)
  | none =>
    (UInt32.ofNat b.proto.constants.size,
      { b with proto := { b.proto with constants := b.proto.constants.push c } })

/-- Add an upvalue; its index, which has eight bits. -/
def upvalue (b : Builder) (u : UpvalueSource) : UInt8 × Builder :=
  (UInt8.ofNat b.proto.upvalues.size,
    { b with proto := { b.proto with upvalues := b.proto.upvalues.push u } })

/-- Add a nested function; its index. -/
def nested (b : Builder) (p : Prototype) : UInt32 × Builder :=
  (UInt32.ofNat b.proto.protos.size,
    { b with proto := { b.proto with protos := b.proto.protos.push p } })

end Builder

end LuaBytecode
