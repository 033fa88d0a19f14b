/-!
# Double-precision floats

A `Double` is a 64-bit word: a sign bit above a 63-bit magnitude.  Magnitudes below `topWord`
are the finite numbers in increasing order, `topWord` is infinity, and larger words are NaNs.

* `Double.units` is the exact value as a whole number of units of `2^-1074`, of which every
  finite double is a multiple; infinity counts as `2^2098` units, above every finite one, so
  that comparing `units` compares values.
* `Double.ofRatio` rounds an exact ratio of units to the nearest double, a tie to the even
  word.  The operations compute their exact result and round it once.
* `Double.floor`, `Double.toInt?` and `Double.saturate` are exact; only `Double.pow` is left to
  the machine.
-/

namespace LuaBytecode

/-- A double-precision float, by its 64-bit word. -/
structure Double where
  /-- The word: sign bit, eleven exponent bits, fifty-two fraction bits. -/
  bits : UInt64
deriving DecidableEq

/-- The quotient rounded to the nearest whole number, a tie to the even one. -/
def divRoundEven (num den : Nat) : Nat :=
  let q := num / den
  let r := num % den
  if 2 * r < den then q
  else if den < 2 * r then q + 1
  else q + q % 2

namespace Double

instance : Inhabited Double := ⟨⟨0⟩⟩

/-! ### Words -/

/-- The magnitude word of infinity. -/
def topWord : Nat := 0x7ff0000000000000

/-- The word without its sign bit. -/
def magnitude (x : Double) : Nat := x.bits.toNat % 0x8000000000000000

/-- The sign bit. -/
def isNegative (x : Double) : Bool := decide (0x8000000000000000 ≤ x.bits.toNat)

/-- The double with the given sign and magnitude word. -/
def ofWord (negative : Bool) (word : Nat) : Double :=
  ⟨UInt64.ofNat (if negative then 0x8000000000000000 + word else word)⟩

theorem magnitude_ofWord {negative : Bool} {word : Nat} (h : word < 0x8000000000000000) :
    (ofWord negative word).magnitude = word := by
  cases negative <;> simp [ofWord, magnitude] <;> omega

theorem isNegative_ofWord {negative : Bool} {word : Nat} (h : word < 0x8000000000000000) :
    (ofWord negative word).isNegative = negative := by
  cases negative <;> simp [ofWord, isNegative] <;> omega

/-- A double is its sign and its magnitude. -/
theorem ofWord_magnitude (x : Double) : ofWord x.isNegative x.magnitude = x := by
  obtain ⟨w⟩ := x
  have hw := w.toNat_lt
  simp only [ofWord, magnitude, isNegative, decide_eq_true_eq, mk.injEq]
  apply UInt64.toNat_inj.1
  simp only [UInt64.toNat_ofNat']
  split <;> omega

/-- Not a number. -/
def isNaN (x : Double) : Bool := decide (topWord < x.magnitude)

def isInfinite (x : Double) : Bool := decide (x.magnitude = topWord)

/-- The NaN that undefined results give. -/
def nan : Double := ⟨0x7ff8000000000000⟩

/-- The infinity of the given sign. -/
def infinity (negative : Bool) : Double := ofWord negative topWord

/-- The zero of the given sign. -/
def zero (negative : Bool) : Double := ofWord negative 0

/-- The opposite: the sign bit is flipped, of a NaN too. -/
def neg (x : Double) : Double := ofWord (!x.isNegative) x.magnitude

/-! ### Exact values -/

/-- The units in one. -/
def one : Nat := 1 <<< 1074

/-- The units of a magnitude word: words below `2^52` are subnormal and count units, above them
each step of `2^52` words doubles the spacing. -/
def unitsOfWord (word : Nat) : Nat :=
  if word < 0x10000000000000 then word
  else (0x10000000000000 + word % 0x10000000000000) <<< (word / 0x10000000000000 - 1)

/-- The value in units of `2^-1074`; of no meaning for a NaN. -/
def units (x : Double) : Int :=
  if x.isNegative then -(unitsOfWord x.magnitude : Int) else unitsOfWord x.magnitude

/-! ### Rounding -/

/-- The magnitude word nearest to a ratio of units, a tie to the even word. -/
def nearestWord (num den : Nat) : Nat :=
  let shift := (num / den).log2 - 52
  min topWord (shift * 0x10000000000000 + divRoundEven num (den <<< shift))

/-- The double nearest to `num / den` units with the given sign, a tie to the even word. -/
def ofRatio (negative : Bool) (num den : Nat) : Double :=
  ofWord negative (nearestWord num den)

/-- The double nearest to a number of units; none of them is the positive zero. -/
def ofUnits (u : Int) : Double := ofRatio (decide (u < 0)) u.natAbs 1

/-- The double nearest to an integer. -/
def ofInt (n : Int) : Double := ofUnits (n * one)

/-- The double nearest to `mantissa * 10 ^ exponent` with the given sign. -/
def ofDecimal (negative : Bool) (mantissa : Nat) (exponent : Int) : Double :=
  if mantissa = 0 then zero negative
  else if 400 < exponent then infinity negative
  else if 0 ≤ exponent then ofRatio negative (mantissa * Nat.pow 10 exponent.toNat * one) 1
  else if mantissa.log2 + 1200 < exponent.natAbs then zero negative
  else ofRatio negative (mantissa * one) (Nat.pow 10 exponent.natAbs)

/-! ### Arithmetic -/

/-- The sum; a zero sum is negative when both operands are. -/
def add (x y : Double) : Double :=
  if x.isNaN || y.isNaN then nan
  else if x.isInfinite then
    if y.isInfinite && x.isNegative != y.isNegative then nan else x
  else if y.isInfinite then y
  else
    let u := x.units + y.units
    if u = 0 then zero (x.isNegative && y.isNegative) else ofUnits u

def sub (x y : Double) : Double := add x y.neg

def mul (x y : Double) : Double :=
  let negative := x.isNegative != y.isNegative
  if x.isNaN || y.isNaN then nan
  else if x.isInfinite || y.isInfinite then
    if x.units = 0 || y.units = 0 then nan else infinity negative
  else ofRatio negative (x.units.natAbs * y.units.natAbs) one

def div (x y : Double) : Double :=
  let negative := x.isNegative != y.isNegative
  if x.isNaN || y.isNaN then nan
  else if x.isInfinite then if y.isInfinite then nan else infinity negative
  else if y.isInfinite then zero negative
  else if y.units = 0 then if x.units = 0 then nan else infinity negative
  else ofRatio negative (x.units.natAbs * one) y.units.natAbs

/-- The greatest integral value not above `x`; integral values, infinities and NaNs are kept. -/
def floor (x : Double) : Double :=
  if x.isNaN || x.isInfinite || x.units % one = 0 then x
  else ofUnits (x.units - x.units % one)

/-- The least integral value not below `x`. -/
def ceil (x : Double) : Double := x.neg.floor.neg

/-- The floor of the rounded quotient. -/
def floorDiv (x y : Double) : Double := (x.div y).floor

/-- What `floorDiv` leaves over, each step rounded. -/
def floorMod (x y : Double) : Double := x.sub ((x.floorDiv y).mul y)

/-- The power, as the machine computes it. -/
def pow (x y : Double) : Double :=
  ⟨((Float.ofBits x.bits).pow (Float.ofBits y.bits)).toBits⟩

/-! ### Order and integers -/

/-- The same value: zeros of both signs agree, and a NaN equals nothing. -/
def eq (x y : Double) : Bool := !x.isNaN && !y.isNaN && decide (x.units = y.units)

def lt (x y : Double) : Bool := !x.isNaN && !y.isNaN && decide (x.units < y.units)

def le (x y : Double) : Bool := !x.isNaN && !y.isNaN && decide (x.units ≤ y.units)

/-- The order of two doubles; none with a NaN. -/
def compare? (x y : Double) : Option Ordering :=
  if x.isNaN || y.isNaN then none else some (compare x.units y.units)

/-- The float `2 ^ 63`, the first one beyond the 64-bit integers. -/
def beyondInt : Double := ⟨0x43e0000000000000⟩

/-- The 64-bit integer with exactly this value. -/
def toInt? (x : Double) : Option Int64 :=
  if x.isNaN || x.isInfinite || x.units % one != 0 then none
  else
    let n := x.units / one
    if -0x8000000000000000 ≤ n ∧ n < 0x8000000000000000 then some (Int64.ofInt n) else none

/-- The value without its fraction, kept within the 64-bit integers; a NaN gives zero. -/
def saturate (x : Double) : Int64 :=
  if x.isNaN then 0
  else Int64.ofInt (max (-0x8000000000000000) (min 0x7fffffffffffffff (x.units.tdiv one)))

end Double

end LuaBytecode
