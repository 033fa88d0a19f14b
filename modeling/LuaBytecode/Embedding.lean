import LuaBytecode.BaseLibrary
import LuaBytecode.Run

/-!
# Embedding

What a program that embeds the engine can do with it: start one, load chunks and run them, call
and index values, and exchange global variables.

* `Engine.new` starts an engine, with the base library unless the configuration says otherwise.
* `Engine.run`, `Engine.call`, `Engine.callGlobal` and `Engine.index` run scripts;
  `Engine.load`, `Engine.register`, `Engine.setGlobal` and `Engine.getGlobal` do not.
-/

namespace LuaBytecode.Engine

/-- Make the functions of the base library global variables. -/
def openBase (e : Engine) : Engine :=
  BaseLibrary.functions.foldl (fun e (name, body) => e.register name fun args => (body args).run) e

/-- A new engine. -/
def new (config : Config) : Engine :=
  let e := empty config
  if config.openBaseLibrary then e.openBase else e

/-- Enough for every run that ends in practice. -/
def fuel : Nat := 1 <<< 62

/-- Carry an action through. -/
def carry {α : Type} (x : Action α) (e : Engine) : Outcome α := (x e).settle (perform fuel)

/-- Call a value. -/
def call (f : Value) (args : List Value) (e : Engine) : Outcome (List Value) :=
  e.carry (Action.call f args)

/-- Call a global variable. -/
def callGlobal (name : String) (args : List Value) (e : Engine) : Outcome (List Value) :=
  e.carry (Action.callGlobal name args)

/-- Index a value, with metamethods. -/
def index (object key : Value) (e : Engine) : Outcome Value := e.carry (Action.index object key)

/-- Execute the chunk that was loaded last. -/
def run (e : Engine) : Outcome (List Value) :=
  if e.depth = 0 then .fault (.ofCause (.misuse .nothingLoaded)) e
  else (execute fuel e).unwindTo (e.depth - 1)

/-- The text of a value, which a metamethod may give, as the only value. -/
def tostring (v : Value) (e : Engine) : Outcome (List Value) :=
  e.carry (BaseLibrary.tostring [v]).run.act

end LuaBytecode.Engine
