import LuaBytecode.Double

/-!
# The text of a float

A float is written with fourteen significant digits, rounded from its exact value with a tie to
the even digit: positionally for decimal exponents from -4 to 13, in scientific notation
outside.  Trailing zeros of the fraction go; a positional text without a fraction ends in `.0`,
so that the text of a float never reads as an integer.

* `Double.significand` chooses the digits and the decimal exponent.
* `Double.text` lays them out.
-/

namespace LuaBytecode

/-- The last `count` decimal digits of a number, leading zeros included. -/
def decimalDigits : Nat → Nat → List Char
  | 0, _ => []
  | count + 1, n => decimalDigits count (n / 10) ++ [Nat.digitChar (n % 10)]

/-- The number of decimal digits of a positive number. -/
def decimalLength (n : Nat) : Nat := (Nat.toDigits 10 n).length

namespace Double

/-- Significant digits of the text of a float. -/
def precision : Nat := 14

/-- The exponent of the leading decimal digit of a positive number of units. -/
def decimalExponent (u : Nat) : Int :=
  if one ≤ u then (decimalLength (u / one) : Int) - 1
  else -(decimalLength ((one - 1) / u) : Int)

/-- The value of `u` units times `10 ^ k`, rounded to a whole number. -/
def scaled (u : Nat) (k : Int) : Nat :=
  if 0 ≤ k then divRoundEven (u * Nat.pow 10 k.toNat) one
  else divRoundEven u (one * Nat.pow 10 k.natAbs)

/-- The `precision` leading digits of a number of units, as a whole number, and the exponent of
the first of them; rounding up to a further digit moves the exponent. -/
def significand (u : Nat) : Nat × Int :=
  if u = 0 then (0, 0)
  else
    let e := decimalExponent u
    let m := scaled u (precision - 1 - e)
    if m = Nat.pow 10 precision then (Nat.pow 10 (precision - 1), e + 1) else (m, e)

/-- The digits without the zeros at their end. -/
def trimZeros (ds : List Char) : List Char := (ds.reverse.dropWhile (· = '0')).reverse

/-- A fraction behind its point; nothing if it is zero. -/
def fractionText (ds : List Char) : List Char :=
  match trimZeros ds with
  | [] => []
  | ds => '.' :: ds

/-- An exponent with its sign and at least two digits. -/
def exponentText (e : Int) : List Char :=
  let digits := Nat.toDigits 10 e.natAbs
  (if e < 0 then '-' else '+') :: (if e.natAbs < 10 then '0' :: digits else digits)

/-- One digit before the point, and the exponent. -/
def scientificText (ds : List Char) (e : Int) : List Char :=
  ds.take 1 ++ fractionText (ds.drop 1) ++ 'e' :: exponentText e

/-- The digits around a point in its place, with `.0` for a fraction that is zero. -/
def positionalText (ds : List Char) (e : Int) : List Char :=
  let (whole, fraction) :=
    if 0 ≤ e then (ds.take (e.toNat + 1), ds.drop (e.toNat + 1))
    else (['0'], List.replicate (e.natAbs - 1) '0' ++ ds)
  match fractionText fraction with
  | [] => whole ++ ['.', '0']
  | fraction => whole ++ fraction

/-- The text of a finite magnitude. -/
def magnitudeText (u : Nat) : List Char :=
  let (m, e) := significand u
  let ds := decimalDigits precision m
  if e < -4 ∨ (precision : Int) ≤ e then scientificText ds e else positionalText ds e

/-- The text of a float. -/
def text (x : Double) : String :=
  let digits :=
    if x.isNaN then ['n', 'a', 'n']
    else if x.isInfinite then ['i', 'n', 'f']
    else magnitudeText x.units.natAbs
  String.ofList (if x.isNegative then '-' :: digits else digits)

end Double

end LuaBytecode
