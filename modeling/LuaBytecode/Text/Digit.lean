/-!
# Digits

Digits of a base up to 36 are `0` to `9` followed by the letters of either case.

* `Text.digit?` is the value of a digit.
* `Text.readDigits?` reads a run of digits as a 64-bit integer that wraps around.
* `Text.decimalValue` is the value of a run of decimal digits, of any length.
-/

namespace LuaBytecode.Text

/-- The value of a digit in the given base. -/
def digit? (base : Nat) (c : Char) : Option Nat :=
  let value? :=
    if '0' ≤ c ∧ c ≤ '9' then some (c.toNat - '0'.toNat)
    else if 'a' ≤ c ∧ c ≤ 'z' then some (c.toNat - 'a'.toNat + 10)
    else if 'A' ≤ c ∧ c ≤ 'Z' then some (c.toNat - 'A'.toNat + 10)
    else none
  value?.filter (· < base)

/-- Append the digits to a number, each step wrapping around. -/
def appendDigits? (base : Nat) (n : Int64) : List Char → Option Int64
  | [] => some n
  | c :: cs => do
    let d ← digit? base c
    appendDigits? base (n * Int64.ofNat base + Int64.ofNat d) cs

/-- A non-empty run of digits as a 64-bit integer, modulo `2^64`. -/
def readDigits? (base : Nat) (cs : List Char) : Option Int64 :=
  if cs.isEmpty then none else appendDigits? base 0 cs

/-- The value of a decimal digit. -/
def decimalDigit (c : Char) : Nat := c.toNat - '0'.toNat

/-- Neighbouring digits joined into digits of the squared base, the least significant first. -/
def joinPairs (base : Nat) : List Nat → List Nat
  | low :: high :: ds => (low + base * high) :: joinPairs base ds
  | ds => ds

/-- The value of digits in a base, the least significant first.  Each round halves their number,
so that long multiplications are few. -/
def valueOfDigits : (rounds base : Nat) → List Nat → Nat
  | 0, base, ds => ds.foldr (fun d n => d + base * n) 0
  | rounds + 1, base, ds => valueOfDigits rounds (base * base) (joinPairs base ds)

theorem foldr_joinPairs (base : Nat) (ds : List Nat) :
    (joinPairs base ds).foldr (fun d n => d + base * base * n) 0 =
      ds.foldr (fun d n => d + base * n) 0 := by
  fun_induction joinPairs base ds with
  | case1 low high ds ih =>
    rw [List.foldr_cons, ih]
    simp only [List.foldr_cons, Nat.mul_add, Nat.mul_assoc, Nat.add_assoc]
  | case2 ds h =>
    match ds with
    | [] => rfl
    | [d] => simp only [List.foldr_cons, List.foldr_nil, Nat.mul_zero]
    | low :: high :: ds => exact absurd rfl (h low high ds)

theorem valueOfDigits_eq_foldr (rounds base : Nat) (ds : List Nat) :
    valueOfDigits rounds base ds = ds.foldr (fun d n => d + base * n) 0 := by
  induction rounds generalizing base ds with
  | zero => rfl
  | succ rounds ih => rw [valueOfDigits, ih, foldr_joinPairs]

/-- The value of a run of decimal digits. -/
def decimalValue (cs : List Char) : Nat :=
  valueOfDigits cs.length.log2 10 (cs.reverse.map decimalDigit)

theorem decimalValue_eq_foldl (cs : List Char) :
    decimalValue cs = cs.foldl (fun n c => n * 10 + decimalDigit c) 0 := by
  rw [decimalValue, valueOfDigits_eq_foldr, List.foldr_map, List.foldr_reverse]
  simp only [Nat.add_comm, Nat.mul_comm]

end LuaBytecode.Text
