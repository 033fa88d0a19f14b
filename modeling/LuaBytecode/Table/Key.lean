import LuaBytecode.Value

/-!
# Table keys

Values that are raw-equal index the same entry of a table, so an entry is kept under a normal
form, its `Key`: a float with an exact integer value becomes that integer.  Nil and NaN have no
key.

The order of keys, `Key.order`, fixes in which order a table lists its fields.
-/

namespace LuaBytecode

/-- The normal form of a value that indexes a table. -/
inductive Key where
  | bool (b : Bool)
  | int (n : Int64)
  | float (x : Double)
  | string (s : String)
  | table (t : TableRef)
  | function (f : FunctionRef)
deriving DecidableEq

namespace Key

/-- The key of a value; nil and NaN have none. -/
def ofValue? : Value → Option Key
  | .nil => none
  | .bool b => some (bool b)
  | .number (.int n) => some (int n)
  | .number (.float x) =>
    match x.toInt? with
    | some n => some (int n)
    | none => if x.isNaN then none else some (float x)
  | .string s => some (string s)
  | .table t => some (table t)
  | .function f => some (function f)

/-- The value in normal form that a key stands for. -/
def toValue : Key → Value
  | bool b => .bool b
  | int n => .int n
  | float x => .float x
  | string s => .string s
  | table t => .table t
  | function f => .function f

/-! ### Order -/

/-- The place of a key's kind in the order of keys. -/
def rank : Key → Nat
  | bool _ => 0
  | int _ => 1
  | float _ => 2
  | string _ => 3
  | table _ => 4
  | function _ => 5

/-- The number that tells a key from others of its kind; strings all have zero. -/
def ordinal : Key → Int
  | bool b => b.toNat
  | int n => n.toInt
  | float x => x.bits.toNat
  | string _ => 0
  | table t => t.index
  | function f => f.index

/-- The text of a string key; of no other key. -/
def characters : Key → String
  | string s => s
  | _ => ""

/-- The order of keys: by kind, and within a kind by number or text. -/
def order : Key → Key → Ordering :=
  compareLex (compareOn rank) (compareLex (compareOn ordinal) (compareOn characters))

instance : Std.TransCmp order :=
  inferInstanceAs (Std.TransCmp (compareLex _ _))

theorem eq_of_same {a b : Key} (hr : a.rank = b.rank) (ho : a.ordinal = b.ordinal)
    (hc : a.characters = b.characters) : a = b := by
  cases a <;> cases b <;> simp only [rank, reduceCtorEq, Nat.reduceEqDiff] at hr
  case bool.bool a b => cases a <;> cases b <;> simp_all [ordinal]
  case int.int a b => exact congrArg int (Int64.toInt_inj.1 ho)
  case float.float a b =>
    exact congrArg float (congrArg Double.mk (UInt64.toNat_inj.1 (Int.ofNat.inj ho)))
  case string.string a b => exact congrArg string hc
  case table.table a b => exact congrArg table (congrArg TableRef.mk (Int.ofNat.inj ho))
  case function.function a b =>
    exact congrArg function (congrArg FunctionRef.mk (Int.ofNat.inj ho))

instance : Std.LawfulEqCmp order where
  compare_self := Std.ReflCmp.compare_self
  eq_of_compare {a b} h := by
    simp only [order, compareLex, Ordering.then_eq_eq, compareOn, Std.LawfulEqCmp.compare_eq_iff_eq]
      at h
    exact eq_of_same h.1 h.2.1 h.2.2

end Key

end LuaBytecode
