import LuaBytecode.Operator

/-!
# Opcodes

The instruction set: forty-seven opcodes, numbered from 0 in the order of `Opcode.all`, and for
each of them the static facts `Opcode.info` that listings and checkers need.  The arithmetic
operators and the three comparisons are families of opcodes.
-/

namespace LuaBytecode

/-- The comparisons that an instruction can test. -/
inductive Comparison where
  | eq
  | lt
  | le
deriving DecidableEq

/-- The operations of instructions. -/
inductive Opcode where
  | move
  | loadK
  | loadKx
  | loadBool
  | loadNil
  | getUpvalue
  | getTabUp
  | getTable
  | setTabUp
  | setUpvalue
  | setTable
  | newTable
  | self
  | arith (op : Operator)
  | not
  | len
  | concat
  | jump
  | compare (c : Comparison)
  | test
  | testSet
  | call
  | tailCall
  | ret
  | forLoop
  | forPrep
  | tforCall
  | tforLoop
  | setList
  | closure
  | vararg
  | extraArg
deriving DecidableEq

/-- How the operands lie in an instruction word. -/
inductive Layout where
  | abc
  | abx
  | asbx
  | ax
deriving DecidableEq

/-- What an operand stands for. -/
inductive OperandKind where
  /-- Not used. -/
  | unused
  /-- A plain number. -/
  | number
  /-- A register or a jump offset. -/
  | register
  /-- A constant, or either a register or a constant. -/
  | constant
deriving DecidableEq

/-- The static facts about an opcode. -/
structure OpcodeInfo where
  name : String
  /-- The instruction decides whether the next one, a jump, is taken. -/
  isTest : Bool
  /-- The instruction writes its register A. -/
  setsA : Bool
  b : OperandKind
  c : OperandKind
  layout : Layout

namespace Opcode

/-- The opcodes in the order of their numbers. -/
def all : Array Opcode := #[
  move, loadK, loadKx, loadBool, loadNil, getUpvalue, getTabUp, getTable, setTabUp, setUpvalue,
  setTable, newTable, self, arith .add, arith .sub, arith .mul, arith .mod, arith .pow,
  arith .div, arith .idiv, arith .band, arith .bor, arith .bxor, arith .shl, arith .shr,
  arith .unm, arith .bnot, not, len, concat, jump, compare .eq, compare .lt, compare .le, test,
  testSet, call, tailCall, ret, forLoop, forPrep, tforCall, tforLoop, setList, closure, vararg,
  extraArg]

/-- The opcode of a number. -/
def ofNat? (n : Nat) : Option Opcode := all[n]?

/-- The number of an opcode: its place among all. -/
def toNat (op : Opcode) : Nat := all.toList.idxOf op

theorem ofNat?_toNat (op : Opcode) : ofNat? op.toNat = some op := by
  cases op with
  | arith o => cases o <;> decide
  | compare c => cases c <;> decide
  | _ => decide

theorem toNat_lt (op : Opcode) : op.toNat < 47 := by
  cases op with
  | arith o => cases o <;> decide
  | compare c => cases c <;> decide
  | _ => decide

/-- The static facts about an opcode. -/
def info : Opcode → OpcodeInfo
  | move => ⟨"MOVE", false, true, .register, .unused, .abc⟩
  | loadK => ⟨"LOADK", false, true, .constant, .unused, .abx⟩
  | loadKx => ⟨"LOADKX", false, true, .unused, .unused, .abx⟩
  | loadBool => ⟨"LOADBOOL", false, true, .number, .number, .abc⟩
  | loadNil => ⟨"LOADNIL", false, true, .number, .unused, .abc⟩
  | getUpvalue => ⟨"GETUPVAL", false, true, .number, .unused, .abc⟩
  | getTabUp => ⟨"GETTABUP", false, true, .number, .constant, .abc⟩
  | getTable => ⟨"GETTABLE", false, true, .register, .constant, .abc⟩
  | setTabUp => ⟨"SETTABUP", false, false, .constant, .constant, .abc⟩
  | setUpvalue => ⟨"SETUPVAL", false, false, .number, .unused, .abc⟩
  | setTable => ⟨"SETTABLE", false, false, .constant, .constant, .abc⟩
  | newTable => ⟨"NEWTABLE", false, true, .number, .number, .abc⟩
  | self => ⟨"SELF", false, true, .register, .constant, .abc⟩
  | arith .add => ⟨"ADD", false, true, .constant, .constant, .abc⟩
  | arith .sub => ⟨"SUB", false, true, .constant, .constant, .abc⟩
  | arith .mul => ⟨"MUL", false, true, .constant, .constant, .abc⟩
  | arith .mod => ⟨"MOD", false, true, .constant, .constant, .abc⟩
  | arith .pow => ⟨"POW", false, true, .constant, .constant, .abc⟩
  | arith .div => ⟨"DIV", false, true, .constant, .constant, .abc⟩
  | arith .idiv => ⟨"IDIV", false, true, .constant, .constant, .abc⟩
  | arith .band => ⟨"BAND", false, true, .constant, .constant, .abc⟩
  | arith .bor => ⟨"BOR", false, true, .constant, .constant, .abc⟩
  | arith .bxor => ⟨"BXOR", false, true, .constant, .constant, .abc⟩
  | arith .shl => ⟨"SHL", false, true, .constant, .constant, .abc⟩
  | arith .shr => ⟨"SHR", false, true, .constant, .constant, .abc⟩
  | arith .unm => ⟨"UNM", false, true, .register, .unused, .abc⟩
  | arith .bnot => ⟨"BNOT", false, true, .register, .unused, .abc⟩
  | not => ⟨"NOT", false, true, .register, .unused, .abc⟩
  | len => ⟨"LEN", false, true, .register, .unused, .abc⟩
  | concat => ⟨"CONCAT", false, true, .register, .register, .abc⟩
  | jump => ⟨"JMP", false, false, .register, .unused, .asbx⟩
  | compare .eq => ⟨"EQ", true, false, .constant, .constant, .abc⟩
  | compare .lt => ⟨"LT", true, false, .constant, .constant, .abc⟩
  | compare .le => ⟨"LE", true, false, .constant, .constant, .abc⟩
  | test => ⟨"TEST", true, false, .unused, .number, .abc⟩
  | testSet => ⟨"TESTSET", true, true, .register, .number, .abc⟩
  | call => ⟨"CALL", false, true, .number, .number, .abc⟩
  | tailCall => ⟨"TAILCALL", false, true, .number, .number, .abc⟩
  | ret => ⟨"RETURN", false, false, .number, .unused, .abc⟩
  | forLoop => ⟨"FORLOOP", false, true, .register, .unused, .asbx⟩
  | forPrep => ⟨"FORPREP", false, true, .register, .unused, .asbx⟩
  | tforCall => ⟨"TFORCALL", false, false, .unused, .number, .abc⟩
  | tforLoop => ⟨"TFORLOOP", false, true, .register, .unused, .asbx⟩
  | setList => ⟨"SETLIST", false, false, .number, .number, .abc⟩
  | closure => ⟨"CLOSURE", false, true, .number, .unused, .abx⟩
  | vararg => ⟨"VARARG", false, true, .number, .unused, .abc⟩
  | extraArg => ⟨"EXTRAARG", false, false, .number, .number, .ax⟩

def name (op : Opcode) : String := op.info.name

end Opcode

end LuaBytecode
