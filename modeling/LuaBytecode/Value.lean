import LuaBytecode.Number.Numeral

/-!
# Values

A `Value` is nil, a boolean, a number, a string, or a reference to a table or a function, which
live in the heap and have identity.  Strings and numbers convert into each other: a string
counts as the number it denotes, a number as its text.
-/

namespace LuaBytecode

/-- The address of a table. -/
structure TableRef where
  index : Nat
deriving DecidableEq

/-- The address of a function. -/
structure FunctionRef where
  index : Nat
deriving DecidableEq

/-- A value of a script. -/
inductive Value where
  | nil
  | bool (b : Bool)
  | number (n : Number)
  | string (s : String)
  | table (t : TableRef)
  | function (f : FunctionRef)
deriving DecidableEq

namespace Value

instance : Inhabited Value := ⟨nil⟩

/-- An integer value. -/
abbrev int (n : Int64) : Value := number (.int n)

/-- A float value. -/
abbrev float (x : Double) : Value := number (.float x)

/-- The name of the value's type. -/
def typeName : Value → String
  | nil => "nil"
  | bool _ => "boolean"
  | number _ => "number"
  | string _ => "string"
  | table _ => "table"
  | function _ => "function"

/-- Everything but nil and false counts as true. -/
def isTruthy : Value → Bool
  | nil | bool false => false
  | _ => true

def isNil : Value → Bool
  | nil => true
  | _ => false

/-- Raw equality: numbers by their exact value, references by identity. -/
def rawEq : Value → Value → Bool
  | number a, number b => a.eq b
  | a, b => decide (a = b)

/-! ### Conversions -/

/-- The number that a number or a numeral denotes. -/
def toNumber? : Value → Option Number
  | number n => some n
  | string s => Number.ofText? s
  | _ => none

/-- The operand of float arithmetic. -/
def toDouble? (v : Value) : Option Double := v.toNumber?.map Number.toDouble

/-- The operand of integer arithmetic: the number must have an exact integer value. -/
def toInt? (v : Value) : Option Int64 := v.toNumber?.bind Number.toInt?

/-- The operand of concatenation: a string, or the text of a number. -/
def toText? : Value → Option String
  | string s => some s
  | number n => some n.text
  | _ => none

end Value

end LuaBytecode
