import LuaBytecode.Frame

/-!
# The base library

The global functions that every script can expect, written as host functions.  Arguments are
counted from 1 in messages.

`BaseLibrary.functions` lists them with their names.
-/

namespace LuaBytecode.BaseLibrary

/-- A host function: from arguments to results. -/
abbrev Body := List Value → Script (List Value)

/-! ### Arguments -/

/-- An argument, or nil. -/
def arg (args : List Value) (n : Nat) : Value := args.getD (n - 1) .nil

def badArgument {α : Type} (n : Nat) (function detail : String) : Script α :=
  .fail (Complaint.badArgument n function detail)

/-- An argument that has to be there. -/
def anyArg (args : List Value) (n : Nat) (function : String) : Script Value :=
  match args[n - 1]? with
  | some v => pure v
  | none => badArgument n function "value expected"

/-- An argument that has to be a table. -/
def tableArg (args : List Value) (n : Nat) (function : String) : Script TableRef :=
  match args[n - 1]? with
  | some (.table t) => pure t
  | some v => badArgument n function ("table expected, got " ++ v.typeName)
  | none => badArgument n function "table expected, got no value"

/-! ### Text and conversion -/

/-- The text of a value, which a metamethod may give. -/
def text (v : Value) : Script String := do
  let handler ← .askOne (.metaField v "__tostring")
  let r ← .askOne (if handler.isNil then .text v else .call handler [v])
  match r with
  | .string s => return s
  | _ => .fail Complaint.textNotString

/-- The texts of all arguments on one line, with tabs between them. -/
def print : Body := fun args => do
  let parts ← args.mapM text
  .ask (.print ("\t".intercalate parts))

def type : Body := fun args => do
  return [.string (← anyArg args 1 "type").typeName]

def tostring : Body := fun args => do
  return [.string (← text (← anyArg args 1 "tostring"))]

/-- A base that numerals can have. -/
def base? (v : Value) : Option Nat :=
  v.toInt?.bind fun n => if 2 ≤ n ∧ n ≤ 36 then some n.toInt.toNat else none

/-- The number that a value denotes, or an integer from its digits in a base. -/
def tonumber : Body := fun args => do
  let v ← anyArg args 1 "tonumber"
  let base := arg args 2
  if base.isNil then return [(v.toNumber?.map Value.number).getD .nil]
  match base? base with
  | none => badArgument 2 "tonumber" "base out of range"
  | some base =>
    match v with
    | .string s => return [((Numeral.inBase? base s).map Value.int).getD .nil]
    | _ => badArgument 1 "tonumber" ("string expected, got " ++ v.typeName)

/-! ### Faults -/

/-- Gives the arguments back if the first one counts as true. -/
def assert : Body := fun args => do
  if (arg args 1).isTruthy then return args
  match args with
  | _ :: message :: _ => .fail (.ofCause (.raised message))
  | _ => .fail Complaint.assertionFailed

/-- Raises a value. -/
def error : Body := fun args => .fail (.ofCause (.raised (arg args 1)))

/-- Calls a function and reports whether it fails. -/
def pcall : Body := fun args => do
  match args with
  | [] => badArgument 1 "pcall" "value expected"
  | f :: args =>
    match ← .attempt (.call f args) with
    | .ok vs => return .bool true :: vs
    | .error f => return [.bool false, f.toValue]

/-! ### Arguments as a list -/

/-- The arguments from a position on, which may count from the end, or their number. -/
def select : Body := fun args => do
  let selector ← anyArg args 1 "select"
  let rest := args.drop 1
  let count : Int := rest.length
  if selector = .string "#" then return [.int (Int64.ofInt count)]
  match selector.toInt?.map Int64.toInt with
  | none => badArgument 1 "select" "index out of range"
  | some n =>
    if 0 < n then return rest.drop (n - 1).toNat
    else if n < 0 ∧ -count ≤ n then return rest.drop (count + n).toNat
    else badArgument 1 "select" "index out of range"

/-! ### Traversal -/

/-- The entry behind a key. -/
def next : Body := fun args => do
  let t ← tableArg args 1 "next"
  match ← .ask (.next t (arg args 2)) with
  | [] => return [.nil]
  | entry => return entry

/-- What a loop over all entries needs: a function, the table and the key to start from. -/
def pairs : Body := fun args => do
  let v ← anyArg args 1 "pairs"
  let handler ← .askOne (.metaField v "__pairs")
  if !handler.isNil then
    return Frame.padded 3 (← .ask (.call handler [v]))
  let _ ← tableArg args 1 "pairs"
  return [← .define "next" next, v, .nil]

/-- The entry of the integer that follows; a table without metatable is read directly. -/
def ipairsStep : Body := fun args => do
  let object := arg args 1
  let i := (arg args 2).toInt?.getD 0 + 1
  let direct? ← match object with
    | .table t => do
      let metatable ← .ask (.metatable object)
      pure (if metatable.isEmpty then some t else none)
    | _ => pure none
  let v ← .askOne (match direct? with
    | some t => .getRaw t (.int i)
    | none => .index object (.int i))
  return if v.isNil then [.nil] else [.int i, v]

/-- What a loop over the leading integers needs. -/
def ipairs : Body := fun args => do
  let v ← anyArg args 1 "ipairs"
  return [← .define "ipairs_aux" ipairsStep, v, .int 0]

/-! ### Metatables and raw access -/

/-- What a metatable shows of itself. -/
def metatableGuard (t : TableRef) : Script Value := .askOne (.getRaw t (.string "__metatable"))

/-- Replaces the metatable of a table, unless the old one is protected. -/
def setmetatable : Body := fun args => do
  let t ← tableArg args 1 "setmetatable"
  let meta? ← match arg args 2 with
    | .nil => pure none
    | .table m => pure (some m)
    | v => badArgument 2 "setmetatable" ("nil or table expected, got " ++ v.typeName)
  match ← .ask (.metatable (.table t)) with
  | .table old :: _ =>
    if !(← metatableGuard old).isNil then .fail Complaint.protectedMetatable
  | _ => pure ()
  let _ ← .ask (.setMetatable t meta?)
  return [.table t]

/-- The metatable of a value, or what it shows in its place. -/
def getmetatable : Body := fun args => do
  let v ← anyArg args 1 "getmetatable"
  match ← .ask (.metatable v) with
  | .table m :: _ => do
    let shown ← metatableGuard m
    return [if shown.isNil then .table m else shown]
  | _ => return [.nil]

def rawget : Body := fun args => do
  let t ← tableArg args 1 "rawget"
  return [← .askOne (.getRaw t (arg args 2))]

def rawset : Body := fun args => do
  let t ← tableArg args 1 "rawset"
  let _ ← .ask (.setRaw t (arg args 2) (arg args 3))
  return [.table t]

def rawequal : Body := fun args => do
  let a ← anyArg args 1 "rawequal"
  let b ← anyArg args 2 "rawequal"
  return [.bool (a.rawEq b)]

def rawlen : Body := fun args =>
  match arg args 1 with
  | .table t => .ask (.length t)
  | .string s => pure [.int (Int64.ofNat s.utf8ByteSize)]
  | _ => badArgument 1 "rawlen" "table or string expected"

/-! ### The library -/

/-- The functions of the library and their names. -/
def functions : List (String × Body) := [
  ("print", print), ("type", type), ("tostring", tostring), ("tonumber", tonumber),
  ("assert", assert), ("error", error), ("pcall", pcall), ("select", select), ("next", next),
  ("pairs", pairs), ("ipairs", ipairs), ("setmetatable", setmetatable),
  ("getmetatable", getmetatable), ("rawget", rawget), ("rawset", rawset),
  ("rawequal", rawequal), ("rawlen", rawlen)]

end LuaBytecode.BaseLibrary
