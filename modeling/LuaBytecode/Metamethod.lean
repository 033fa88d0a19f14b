import LuaBytecode.Action

/-!
# Operations with metamethods

Where an operation has no primitive result, a metamethod of an operand stands in for it: a
function that is called with the operands.  A table has the metamethods of its metatable, all
other values share the default ones.

* `Action.arith`, `Action.concat`, `Action.equals`, `Action.lessThan`, `Action.lessEqual` and
  `Action.length` are the operators;
* `Action.index` and `Action.assign` read and write the entries of values.
-/

namespace LuaBytecode.Action

/-- The metamethod of a value, or nil. -/
def metamethod (v : Value) (event : String) : Action Value := read (·.metamethod v event)

/-- The first result of the metamethod of `a`, or else of `b`; none if neither has one. -/
def binaryMetamethod (event : String) (a b : Value) : Action (Option Value) := do
  let mine ← metamethod a event
  let handler ← if mine.isNil then metamethod b event else pure mine
  if handler.isNil then return none
  return some (← callFirst handler [a, b])

/-! ### Operators -/

/-- The fault of operands that neither convert nor have a metamethod: the first operand that is
no number is at fault. -/
def arithFault (op : Operator) (a b : Value) : Cause :=
  let culprit := if a.toDouble?.isNone then a else b
  if op.isBitwise then
    if culprit.toDouble?.isSome then .notInteger
    else .operand "perform bitwise operation on" culprit.typeName
  else .operand "perform arithmetic on" culprit.typeName

/-- The result of an arithmetic or bitwise operator. -/
def arith (op : Operator) (a b : Value) : Action Value :=
  match op.apply a b with
  | .error c => fail c
  | .ok (some v) => pure v
  | .ok none => do
    match ← binaryMetamethod op.event a b with
    | some v => return v
    | none => fail (arithFault op a b)

/-- Strings and numbers joined into a string. -/
def concat (a b : Value) : Action Value :=
  match a.toText?, b.toText? with
  | some s, some t => pure (.string (s ++ t))
  | s?, _ => do
    match ← binaryMetamethod "__concat" a b with
    | some v => return v
    | none => fail (.ofCause (.operand "concatenate" (if s?.isNone then a else b).typeName))

/-- Values that are compared by identity, for which a metamethod may define equality. -/
def isReference : Value → Bool
  | .table _ | .function _ => true
  | _ => false

/-- Equality: raw-equal values are equal, and references may have a metamethod. -/
def equals (a b : Value) : Action Bool :=
  if a.rawEq b then pure true
  else if isReference a && isReference b then do
    return (← binaryMetamethod "__eq" a b).any Value.isTruthy
  else pure false

def comparisonFault (a b : Value) : Fault := .ofCause (.comparison a.typeName b.typeName)

def lessThan (a b : Value) : Action Bool :=
  match a.rawLt? b with
  | some r => pure r
  | none => do
    match ← binaryMetamethod "__lt" a b with
    | some v => return v.isTruthy
    | none => fail (comparisonFault a b)

/-- Without a metamethod of its own, `a ≤ b` is taken as not `b < a`. -/
def lessEqual (a b : Value) : Action Bool :=
  match a.rawLe? b with
  | some r => pure r
  | none => do
    match ← binaryMetamethod "__le" a b with
    | some v => return v.isTruthy
    | none =>
      match ← binaryMetamethod "__lt" b a with
      | some v => return !v.isTruthy
      | none => fail (comparisonFault a b)

/-- The length: of a string in bytes, else by metamethod, else the border of a table. -/
def length (v : Value) : Action Value :=
  match v with
  | .string s => pure (.int (Int64.ofNat s.utf8ByteSize))
  | _ => do
    let handler ← metamethod v "__len"
    if !handler.isNil then callFirst handler [v]
    else
      match v with
      | .table t => read fun e => .int (Int64.ofNat (e.heap.table t).length)
      | _ => fail (.ofCause (.operand "get length of" v.typeName))

/-! ### Entries -/

/-- The entry of a table without metamethods; other values have none. -/
def rawEntry (object key : Value) : Action Value :=
  match object with
  | .table t => read fun e => (e.heap.table t).get key
  | _ => pure .nil

def indexFault (object : Value) : Fault := .ofCause (.operand "index" object.typeName)

/-- The entry of a value.  For an entry that is nil the metamethod may be a table, in which the
key is looked up once, or a function. -/
def index (object key : Value) : Action Value := do
  let direct ← rawEntry object key
  if !direct.isNil then return direct
  match ← metamethod object "__index" with
  | .nil => if isTable object then return .nil else fail (indexFault object)
  | .table t => read fun e => (e.heap.table t).get key
  | .function f => callFirst (.function f) [object, key]
  | _ => fail (indexFault object)
where
  isTable : Value → Bool
    | .table _ => true
    | _ => false

/-- Write the entry of a table without metamethods. -/
def setRaw (t : TableRef) (key v : Value) : Action Unit := fun e =>
  match Key.ofValue? key with
  | some k => .done () { e with heap := e.heap.updateTable t (·.put k v) }
  | none => .fault (Table.keyFault key) e

/-- Write the entry of a value.  Where the entry is nil the metamethod may be a function, or a
table to which the write is passed on. -/
def assignOr (passOn : Value → Action Unit) (object key v : Value) : Action Unit := do
  let present := !(← rawEntry object key).isNil
  match object, present with
  | .table t, true => setRaw t key v
  | _, _ =>
    match ← metamethod object "__newindex", object with
    | .nil, .table t => setRaw t key v
    | .table t, _ => passOn (.table t)
    | .function f, _ => do
      let _ ← call (.function f) [object, key, v]
    | _, _ => fail (indexFault object)

/-- Write the entry of a value; the write is passed on at most `links` times. -/
def assignVia : Nat → Value → Value → Value → Action Unit
  | 0, object, key, v => assignOr (fun _ => fail (.ofCause .stackOverflow)) object key v
  | links + 1, object, key, v => assignOr (fun next => assignVia links next key v) object key v

/-- Write the entry of a value.  A chain of tables longer than there are tables never ends. -/
def assign (object key v : Value) : Action Unit := do
  assignVia (← read fun e => e.heap.tables.size) object key v

end LuaBytecode.Action
