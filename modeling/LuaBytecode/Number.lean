import LuaBytecode.Double

/-!
# Numbers

A number is a 64-bit integer or a float.  Numbers of both kinds are equal, and are ordered, by
their exact values.
-/

namespace LuaBytecode

/-- A number: integer or float. -/
inductive Number where
  | int (n : Int64)
  | float (x : Double)
deriving DecidableEq

namespace Number

/-- The float nearest to a number. -/
def toDouble : Number → Double
  | int n => .ofInt n.toInt
  | float x => x

/-- The integer with exactly the number's value. -/
def toInt? : Number → Option Int64
  | int n => some n
  | float x => x.toInt?

def isNaN : Number → Bool
  | int _ => false
  | float x => x.isNaN

/-- The exact value in units of `2^-1074`; of no meaning for a NaN. -/
def units : Number → Int
  | int n => n.toInt * Double.one
  | float x => x.units

/-! ### Equality and order -/

/-- The same value: an integer equals the float that holds exactly it. -/
def eq : Number → Number → Bool
  | int m, int n => m == n
  | float x, float y => x.eq y
  | int n, float x => x.toInt? == some n
  | float x, int n => x.toInt? == some n

/-- The order of an integer and a float; none with a NaN.  The integer is never rounded to a
float: within the range of the 64-bit integers it is compared with the floor of the float, and
then the fraction decides. -/
def compareIntDouble? (n : Int64) (x : Double) : Option Ordering :=
  if x.isNaN then none
  else if Double.beyondInt.le x then some .lt
  else if x.lt Double.beyondInt.neg then some .gt
  else
    match compare n x.floor.saturate with
    | .eq => some (if x.floor.lt x then .lt else .eq)
    | order => some order

/-- The order of two numbers; none with a NaN. -/
def compare? : Number → Number → Option Ordering
  | int m, int n => some (compare m n)
  | float x, float y => x.compare? y
  | int n, float x => compareIntDouble? n x
  | float x, int n => (compareIntDouble? n x).map .swap

/-- The first value is smaller; never so with a NaN. -/
def lt (a b : Number) : Bool := (a.compare? b).any (·.isLT)

/-- The first value is not larger; never so with a NaN. -/
def le (a b : Number) : Bool := (a.compare? b).any (·.isLE)

end Number

end LuaBytecode
