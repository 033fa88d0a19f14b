import LuaBytecode.Fault

/-!
# Operators

The arithmetic and bitwise operators on primitive operands, without metamethods.

* `Operator.apply` is the result of an operator: integers stay integers except under division
  and power, bitwise operators need exact integers, and everything else is computed in floats.
  Operands that do not convert have no primitive result.
* `Word.floorDiv`, `Word.floorMod`, `Word.shiftLeft` and `Word.shiftRight` are the integer
  operations that the machine does not have.
* `Value.rawLt?` and `Value.rawLe?` order numbers and strings.
-/

namespace LuaBytecode

/-- The arithmetic and bitwise operators. -/
inductive Operator where
  | add
  | sub
  | mul
  | mod
  | pow
  | div
  | idiv
  | band
  | bor
  | bxor
  | shl
  | shr
  | unm
  | bnot
deriving DecidableEq

namespace Word

/-! ### Integers -/

/-- Division rounded toward negative infinity, wrapping around; the divisor is not zero. -/
def floorDiv (a b : Int64) : Int64 :=
  let q := a / b
  if a % b ≠ 0 ∧ decide (a < 0) ≠ decide (b < 0) then q - 1 else q

/-- What `floorDiv` leaves over; it has the sign of the divisor, which is not zero. -/
def floorMod (a b : Int64) : Int64 := a - floorDiv a b * b

/-- Logical shift to the left; a negative count shifts to the right, and a count beyond the
width leaves nothing. -/
def shiftLeft (x n : Int64) : Int64 :=
  if n ≤ -64 ∨ 64 ≤ n then 0
  else if 0 ≤ n then (x.toUInt64 <<< n.toUInt64).toInt64
  else (x.toUInt64 >>> (-n).toUInt64).toInt64

/-- Logical shift to the right. -/
def shiftRight (x n : Int64) : Int64 := shiftLeft x (-n)

end Word

namespace Operator

/-- The metamethod that stands in for the operator. -/
def event : Operator → String
  | add => "__add"
  | sub => "__sub"
  | mul => "__mul"
  | mod => "__mod"
  | pow => "__pow"
  | div => "__div"
  | idiv => "__idiv"
  | band => "__band"
  | bor => "__bor"
  | bxor => "__bxor"
  | shl => "__shl"
  | shr => "__shr"
  | unm => "__unm"
  | bnot => "__bnot"

def isBitwise : Operator → Bool
  | band | bor | bxor | shl | shr | bnot => true
  | _ => false

def isUnary : Operator → Bool
  | unm | bnot => true
  | _ => false

/-- A bitwise operator on integers; the complement ignores its second operand. -/
def onBits (op : Operator) (x y : Int64) : Int64 :=
  match op with
  | band => x &&& y
  | bor => x ||| y
  | bxor => x ^^^ y
  | shl => Word.shiftLeft x y
  | shr => Word.shiftRight x y
  | _ => ~~~x

/-- An arithmetic operator on integers, if it is computed in integers. -/
def onInts (op : Operator) (x y : Int64) : Except Complaint (Option Int64) :=
  match op with
  | add => .ok (some (x + y))
  | sub => .ok (some (x - y))
  | mul => .ok (some (x * y))
  | unm => .ok (some (-x))
  | idiv => if y = 0 then .error .divisionByZero else .ok (some (Word.floorDiv x y))
  | mod => if y = 0 then .error .moduloByZero else .ok (some (Word.floorMod x y))
  | _ => .ok none

/-- An arithmetic operator on floats. -/
def onDoubles (op : Operator) (x y : Double) : Double :=
  match op with
  | add => x.add y
  | sub => x.sub y
  | mul => x.mul y
  | div => x.div y
  | pow => x.pow y
  | idiv => x.floorDiv y
  | mod => x.floorMod y
  | _ => x.neg

/-- The float result of an arithmetic operator; none if an operand is not a number. -/
def inDoubles (op : Operator) (a b : Value) : Option Value := do
  let x ← a.toDouble?
  let y ← b.toDouble?
  return .float (op.onDoubles x y)

/-- The result of a bitwise operator; none if an operand has no exact integer value. -/
def inBits (op : Operator) (a b : Value) : Option Value := do
  let x ← a.toInt?
  let y ← b.toInt?
  return .int (op.onBits x y)

/-- The primitive result of an operator; none if an operand does not convert.  Both operands
have to convert, also under an operator that uses only the first. -/
def apply (op : Operator) (a b : Value) : Except Complaint (Option Value) :=
  if op.isBitwise then .ok (op.inBits a b)
  else
    match a, b with
    | .number (.int x), .number (.int y) =>
      match op.onInts x y with
      | .error e => .error e
      | .ok (some n) => .ok (some (.int n))
      | .ok none => .ok (op.inDoubles a b)
    | _, _ => .ok (op.inDoubles a b)

end Operator

namespace Value

/-! ### Order -/

/-- The first value is smaller; none if the two are not both numbers or both strings. -/
def rawLt? : Value → Value → Option Bool
  | number a, number b => some (a.lt b)
  | string s, string t => some (decide (s < t))
  | _, _ => none

/-- The first value is not larger; none if the two are not both numbers or both strings. -/
def rawLe? : Value → Value → Option Bool
  | number a, number b => some (a.le b)
  | string s, string t => some (!decide (t < s))
  | _, _ => none

end Value

end LuaBytecode
