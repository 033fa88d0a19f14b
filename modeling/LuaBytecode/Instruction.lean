import LuaBytecode.Opcode

/-!
# Instruction words

An instruction is a 32-bit word with the opcode in its low six bits and the operands in one of
four layouts:

```text
 31        23        14        6      0
 +---------+---------+---------+------+
 |  B:9    |  C:9    |  A:8    | OP:6 |  abc
 |      Bx:18        |  A:8    | OP:6 |  abx
 |     sBx:18        |  A:8    | OP:6 |  asbx
 |           Ax:26             | OP:6 |  ax
 +---------+---------+---------+------+
```

`sBx` is kept as the unsigned number `sBx + 131071`.  Where an operand may be a register or a
constant, `RK`, the ninth bit marks a constant.

* `Instruction.abc`, `abx`, `asbx` and `ax` build a word, the fields `a`, `b`, `c`, `bx`, `sbx`
  and `extra` read it.
* `Instruction.text` lists an instruction.
-/

namespace LuaBytecode

/-- An instruction word. -/
structure Instruction where
  word : UInt32
deriving DecidableEq

/-- The items that one `SETLIST` stores. -/
def itemsPerBatch : Nat := 50

namespace RK

/-- The operand is a constant. -/
def isConstant (x : Nat) : Bool := x.testBit 8

/-- The index of the constant that an operand names. -/
def constantIndex (x : Nat) : Nat := x % 256

/-- The operand that names a constant. -/
def ofConstant (index : UInt32) : UInt32 := index ||| 256

end RK

namespace Instruction

/-- What `sBx` is raised by to be kept unsigned. -/
def offsetBias : Nat := 131071

/-! ### Fields -/

/-- The number of the opcode. -/
def code (i : Instruction) : Nat := i.word.toNat % 0x40

/-- The opcode, if the number is one. -/
def opcode? (i : Instruction) : Option Opcode := Opcode.ofNat? i.code

def a (i : Instruction) : Nat := i.word.toNat / 0x40 % 0x100

def b (i : Instruction) : Nat := i.word.toNat / 0x800000

def c (i : Instruction) : Nat := i.word.toNat / 0x4000 % 0x200

def bx (i : Instruction) : Nat := i.word.toNat / 0x4000

def sbx (i : Instruction) : Int := i.bx - offsetBias

/-- The operand of the layout `ax`. -/
def extra (i : Instruction) : Nat := i.word.toNat / 0x40

/-! ### Words -/

def abc (op : Opcode) (a b c : UInt32) : Instruction :=
  ⟨UInt32.ofNat op.toNat ||| a <<< 6 ||| b <<< 23 ||| c <<< 14⟩

def abx (op : Opcode) (a bx : UInt32) : Instruction :=
  ⟨UInt32.ofNat op.toNat ||| a <<< 6 ||| bx <<< 14⟩

def asbx (op : Opcode) (a : UInt32) (sbx : Int32) : Instruction :=
  abx op a (sbx.toUInt32 + UInt32.ofNat offsetBias)

def ax (op : Opcode) (extra : UInt32) : Instruction :=
  ⟨UInt32.ofNat op.toNat ||| extra <<< 6⟩

/-! ### Listing -/

/-- The name of an opcode, padded so that operands line up. -/
def column (op : Opcode) : String :=
  op.name ++ String.ofList (List.replicate (9 - op.name.length) ' ')

/-- An operand behind a blank, a constant as `-1 - index`; nothing if it is unused. -/
def operandText (kind : OperandKind) (x : Nat) : String :=
  match kind with
  | .unused => ""
  | .constant =>
    if RK.isConstant x then " " ++ toString (-1 - (RK.constantIndex x : Int)) else " " ++ toString x
  | _ => " " ++ toString x

/-- The listing of an instruction: the name and the operands that its layout has. -/
def text (i : Instruction) : String :=
  match i.opcode? with
  | none => "<unknown opcode " ++ toString i.code ++ ">"
  | some op =>
    let info := op.info
    column op ++
    match info.layout with
    | .abc => toString i.a ++ operandText info.b i.b ++ operandText info.c i.c
    | .abx =>
      let bx : Int := if info.b = .constant then -1 - (i.bx : Int) else i.bx
      toString i.a ++ " " ++ toString bx
    | .asbx => toString i.a ++ " " ++ toString i.sbx
    | .ax => toString i.extra

/-- A word as `0x` and eight hexadecimal digits. -/
def hexText (i : Instruction) : String :=
  let digits := Nat.toDigits 16 i.word.toNat
  String.ofList ('0' :: 'x' :: (List.replicate (8 - digits.length) '0' ++ digits))

/-- The word beside its listing. -/
def wordText (i : Instruction) : String := "Instruction(" ++ i.hexText ++ ": " ++ i.text ++ ")"

end Instruction

end LuaBytecode
