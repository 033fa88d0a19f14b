import LuaBytecode.Number
import LuaBytecode.Text.Blank
import LuaBytecode.Text.Digit
import LuaBytecode.Double.Text

/-!
# Numerals

The texts that denote numbers: blanks, an optional sign, and either a hexadecimal integer or a
decimal numeral, which has digits, an optional fraction and an optional exponent.

* `Number.ofText?` reads a numeral.  Hexadecimal integers wrap around; a decimal numeral that
  is a run of digits is an integer if it fits into 64 bits, and any other is the nearest float.
* `Numeral.int?` and `Numeral.double?` read the texts of integers and of floats, sign included.
  Infinity and NaN have names, which are texts of floats but no numerals: a numeral has no
  letter but that of its exponent.
* `Number.text` writes a number.
-/

namespace LuaBytecode

namespace Numeral

/-- Whether a sign is a minus, and what follows the sign. -/
def sign : List Char → Bool × List Char
  | '-' :: cs => (true, cs)
  | '+' :: cs => (false, cs)
  | cs => (false, cs)

def isDigit (c : Char) : Bool := decide ('0' ≤ c ∧ c ≤ '9')

/-- The value of the digits of an exponent.  Once it has reached `2 ^ 16`, further digits do not
count. -/
def exponentValue (cs : List Char) : Nat :=
  cs.foldl (fun n c => if n < 0x10000 then n * 10 + Text.decimalDigit c else n) 0

/-- The exponent that ends a decimal numeral; no exponent counts as zero. -/
def exponent? : List Char → Option Int
  | [] => some 0
  | c :: cs =>
    let (negative, ds) := sign cs
    if (c = 'e' ∨ c = 'E') ∧ ds ≠ [] ∧ ds.all isDigit then
      let k := exponentValue ds
      some (if negative then -(k : Int) else k)
    else none

/-- The digits of a fraction, with what follows; without a point there are none. -/
def fraction : List Char → List Char × List Char
  | '.' :: cs => cs.span isDigit
  | cs => ([], cs)

/-- A float without its sign: digits, a fraction and an exponent, of which the first two may not
both be empty. -/
def float? (negative : Bool) (cs : List Char) : Option Double :=
  let (whole, rest) := cs.span isDigit
  let (part, rest) := fraction rest
  if whole.isEmpty && part.isEmpty then none
  else (exponent? rest).map fun e =>
    .ofDecimal negative (Text.decimalValue (whole ++ part)) (e - part.length)

/-- Infinity or NaN by name, in letters of either case. -/
def named? (negative : Bool) (cs : List Char) : Option Double :=
  match cs.map Char.toLower with
  | ['i', 'n', 'f'] | ['i', 'n', 'f', 'i', 'n', 'i', 't', 'y'] => some (.infinity negative)
  | ['n', 'a', 'n'] => some (if negative then Double.nan.neg else .nan)
  | _ => none

/-- The float that a text denotes. -/
def double? (cs : List Char) : Option Double :=
  let (negative, body) := sign cs
  (float? negative body).orElse fun _ => named? negative body

/-- The integer that a text denotes: a sign and digits, if the value fits into 64 bits. -/
def int? (cs : List Char) : Option Int64 :=
  let (negative, ds) := sign cs
  if ds ≠ [] ∧ ds.all isDigit then
    let n : Int := if negative then -(Text.decimalValue ds : Int) else Text.decimalValue ds
    if -0x8000000000000000 ≤ n ∧ n < 0x8000000000000000 then some (Int64.ofInt n) else none
  else none

/-- A decimal numeral with its sign: an integer if it can be one. -/
def decimal? (cs : List Char) : Option Number :=
  match int? cs with
  | some n => some (.int n)
  | none => (double? cs).map .float

/-- The characters that a decimal numeral may have. -/
def isDecimalChar (c : Char) : Bool :=
  isDigit c || c == '.' || c == 'e' || c == 'E' || c == '+' || c == '-'

/-- What follows the mark of a hexadecimal integer. -/
def hexDigits? : List Char → Option (List Char)
  | '0' :: 'x' :: ds | '0' :: 'X' :: ds => some ds
  | _ => none

/-- A hexadecimal integer behind its sign and mark. -/
def hexadecimal? (negative : Bool) (ds : List Char) : Option Number :=
  (Text.readDigits? 16 ds).map fun n => .int (if negative then -n else n)

/-- An integer in the given base: an optional minus and digits, between blanks. -/
def inBase? (base : Nat) (s : String) : Option Int64 :=
  match Text.trim s.toList with
  | '-' :: ds => (Text.readDigits? base ds).map (- ·)
  | ds => Text.readDigits? base ds

end Numeral

namespace Number

/-- The number that a text denotes. -/
def ofText? (s : String) : Option Number :=
  let cs := Text.trim s.toList
  let (negative, body) := Numeral.sign cs
  match Numeral.hexDigits? body with
  | some ds => Numeral.hexadecimal? negative ds
  | none => if body.all Numeral.isDecimalChar then Numeral.decimal? cs else none

/-- The text of an integer. -/
def intText (n : Int64) : String :=
  let digits := Nat.toDigits 10 n.toInt.natAbs
  String.ofList (if n < 0 then '-' :: digits else digits)

/-- The text of a number. -/
def text : Number → String
  | int n => intText n
  | float x => x.text

end Number

end LuaBytecode
