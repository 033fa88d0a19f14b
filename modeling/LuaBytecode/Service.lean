import LuaBytecode.Metamethod

/-!
# Serving host functions

The engine's answers to the requests of host functions.

* `Action.answer` is the answer to one request;
* `Host.act` is a whole host function as an action.
-/

namespace LuaBytecode

namespace Action

/-- Call a global variable, which must not be nil. -/
def callGlobal (name : String) (args : List Value) : Action (List Value) := do
  let f ← read (·.getGlobal name)
  if f.isNil then fail (Complaint.missingGlobal name)
  call f args

/-- Hand something to the embedding program. -/
def emit (event : Event) : Action Unit := modify fun e => { e with events := e.events.push event }

/-- The entry behind a key in the traversal of a table; no values at the end. -/
def next (t : TableRef) (key : Value) : Action (List Value) := fun e =>
  let (r, table) := (e.heap.table t).next key
  let e := { e with heap := e.heap.updateTable t fun _ => table }
  match r with
  | .error c => .fault c e
  | .ok none => .done [] e
  | .ok (some (k, v)) => .done [k, v] e

/-- The answer to a request. -/
def answer : Request → Action (List Value)
  | .call f args => call f args
  | .callGlobal name args => callGlobal name args
  | .index object key => do return [← index object key]
  | .runChunk p => await (.chunk p)
  | .metaField v event => do return [← metamethod v event]
  | .metatable v => do return ((← read (·.metatableOf v)).map Value.table).toList
  | .setMetatable t meta? => do
    modify fun e =>
      { e with heap := e.heap.updateTable t fun table => { table with metatable := meta? } }
    return []
  | .getRaw t key => read fun e => [(e.heap.table t).get key]
  | .setRaw t key v => do
    setRaw t key v
    return []
  | .next t key => next t key
  | .length t => read fun e => [.int (Int64.ofNat (e.heap.table t).length)]
  | .text v => read fun e => [.string (e.heap.text v)]
  | .print line => do
    emit (.printed line)
    return []
  | .note vs => do
    emit (.noted vs)
    return []

end Action

/-- A host function as an action. -/
def Host.act : Host → Action (List Value)
  | done vs => fun e => .done vs e
  | fail f => fun e => .fault f e
  | ask r go => fun e => (Action.answer r e).andFinally fun x e => (go x).act e
  | define name body go => fun e =>
    let (f, e) := e.newFunction (.native name body)
    (go (.function f)).act e

end LuaBytecode
