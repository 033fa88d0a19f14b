import LuaBytecode.Cell

/-!
# Host functions

A host function is a program outside the engine that scripts can call.  What it does is a
`Host`: it ends with results or a fault, or puts a request to the engine and goes on with the
answer.  It can reach the engine in no other way.

* `Request` lists what a host function can ask for.
* `Script` is the notation in which host functions are written: `Script.ask` fails with the
  request, `Script.attempt` sees the fault.
-/

namespace LuaBytecode

/-- What a host function can ask of the engine.  An answer is a list of values. -/
inductive Request where
  /-- Call a value; its results. -/
  | call (f : Value) (args : List Value)
  /-- Call a global variable; its results. -/
  | callGlobal (name : String) (args : List Value)
  /-- Index a value, with metamethods. -/
  | index (object key : Value)
  /-- Load a chunk and run it; its results. -/
  | runChunk (p : Prototype)
  /-- The metamethod of a value, or nil. -/
  | metaField (v : Value) (event : String)
  /-- The metatable of a value; no values if there is none. -/
  | metatable (v : Value)
  /-- Replace the metatable of a table. -/
  | setMetatable (t : TableRef) (meta? : Option TableRef)
  /-- Read an entry, without metamethods. -/
  | getRaw (t : TableRef) (key : Value)
  /-- Write an entry, without metamethods. -/
  | setRaw (t : TableRef) (key v : Value)
  /-- The entry behind a key in the traversal; no values at the end. -/
  | next (t : TableRef) (key : Value)
  /-- The border of a table. -/
  | length (t : TableRef)
  /-- The text of a value, without metamethods. -/
  | text (v : Value)
  /-- Print a line. -/
  | print (line : String)
  /-- Hand values to the embedding program. -/
  | note (vs : List Value)

/-- The course of a host function. -/
inductive Host where
  | done (vs : List Value)
  | fail (f : Fault)
  | ask (r : Request) (go : Except Fault (List Value) → Host)
  /-- Make a new host function. -/
  | define (name : String) (body : List Value → Host) (go : Value → Host)

/-- A part of a host function that yields a value to the rest of it. -/
def Script (α : Type) : Type := (α → Host) → Host

namespace Script

instance : Monad Script where
  pure a := fun go => go a
  bind x f := fun go => x fun a => f a go

/-- The host function that ends with the values of the script. -/
def run (x : Script (List Value)) : Host := x .done

/-- End with a fault. -/
def fail {α : Type} (f : Fault) : Script α := fun _ => Host.fail f

/-- The answer to a request, or its fault. -/
def attempt (r : Request) : Script (Except Fault (List Value)) := Host.ask r

/-- The answer to a request; its fault ends the function. -/
def ask (r : Request) : Script (List Value) := fun go =>
  Host.ask r fun
    | .ok vs => go vs
    | .error f => Host.fail f

/-- The first value of the answer, or nil. -/
def askOne (r : Request) : Script Value := do
  return (← ask r).headD .nil

/-- A new host function. -/
def define (name : String) (body : List Value → Script (List Value)) : Script Value :=
  Host.define name fun args => (body args).run

end Script

end LuaBytecode
