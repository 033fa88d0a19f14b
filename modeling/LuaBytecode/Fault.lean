import LuaBytecode.Value

/-!
# Faults

A `Fault` has a cause and, once it has passed a frame, the place where it arose.  A value raised
by a script is never given a place: it reaches the protected call unchanged.

* `Fault.locate` records the first place and keeps it.
* `Fault.message` is the wording, `Fault.toValue` what a protected call reports.
-/

namespace LuaBytecode

/-- A mistake in the code of a prototype. -/
inductive Malformation where
  | pastEnd (pc : Nat)
  | unknownOpcode (code : Nat)
  | constantOutOfRange (index : Nat)
  | upvalueOutOfRange (index : Nat)
  | enclosingUpvalueOutOfRange (index : Nat)
  | prototypeOutOfRange (index : Nat)
  | missingExtraArg
  | strayExtraArg
  | setListBatchZero
  | setListTarget
  | forLoopSlots
  | reported (text : String)
deriving DecidableEq

/-- The three numbers that a numeric loop starts from. -/
inductive LoopSlot where
  | initial
  | limit
  | step
deriving DecidableEq

/-- A failure of an operation of a script that its message describes in full. -/
inductive Complaint where
  | divisionByZero
  | moduloByZero
  | staleKey
  | loopStepZero
  | loopNotNumber (slot : LoopSlot)
  | missingGlobal (name : String)
  | badArgument (position : Nat) (function detail : String)
  | assertionFailed
  | textNotString
  | protectedMetatable
  | reported (text : String)
deriving DecidableEq

/-- A mistake of the embedding program. -/
inductive Misuse where
  | nothingLoaded
  | reported (text : String)
deriving DecidableEq

/-- Why an operation failed. -/
inductive Cause where
  /-- A failure that its message describes. -/
  | runtime (complaint : Complaint)
  /-- A value raised by a script. -/
  | raised (v : Value)
  /-- An operation on a value of a kind that it does not take. -/
  | operand (action kind : String)
  /-- An ordering between kinds that are not ordered. -/
  | comparison (left right : String)
  | nilKey
  | nanKey
  /-- A bitwise operand without an exact integer value. -/
  | notInteger
  | malformed (m : Malformation)
  | stackOverflow
  | misuse (m : Misuse)
deriving DecidableEq

/-- A line of a chunk. -/
structure Place where
  chunk : String
  line : UInt32
deriving DecidableEq

/-- A failure and, if known, its place. -/
structure Fault where
  cause : Cause
  place : Option Place := none
deriving DecidableEq

def Fault.ofCause (cause : Cause) : Fault := { cause }

instance : Coe Cause Fault := ⟨Fault.ofCause⟩

instance : Coe Complaint Fault := ⟨fun c => .ofCause (.runtime c)⟩

instance : Coe Malformation Fault := ⟨fun m => .ofCause (.malformed m)⟩

/-! ### Wording -/

def Malformation.message : Malformation → String
  | pastEnd pc => "pc " ++ toString pc ++ " past end of code"
  | unknownOpcode n => "unknown opcode " ++ toString n
  | constantOutOfRange i => "constant " ++ toString i ++ " out of range"
  | upvalueOutOfRange i => "upvalue " ++ toString i ++ " out of range"
  | enclosingUpvalueOutOfRange i => "enclosing upvalue " ++ toString i ++ " out of range"
  | prototypeOutOfRange i => "prototype " ++ toString i ++ " out of range"
  | missingExtraArg => "expected EXTRAARG"
  | strayExtraArg => "EXTRAARG without a preceding opcode"
  | setListBatchZero => "SETLIST batch 0"
  | setListTarget => "SETLIST target is not a table"
  | forLoopSlots => "FORLOOP without FORPREP"
  | reported text => text

def LoopSlot.name : LoopSlot → String
  | initial => "initial value"
  | limit => "limit"
  | step => "step"

def Complaint.message : Complaint → String
  | divisionByZero => "attempt to perform 'n//0'"
  | moduloByZero => "attempt to perform 'n%0'"
  | staleKey => "invalid key to 'next'"
  | loopStepZero => "'for' step is zero"
  | loopNotNumber slot => "'for' " ++ slot.name ++ " must be a number"
  | missingGlobal name => "attempt to call a nil value (global '" ++ name ++ "')"
  | badArgument position function detail =>
    "bad argument #" ++ toString position ++ " to '" ++ function ++ "' (" ++ detail ++ ")"
  | assertionFailed => "assertion failed!"
  | textNotString => "'__tostring' must return a string"
  | protectedMetatable => "cannot change a protected metatable"
  | reported text => text

def Misuse.message : Misuse → String
  | nothingLoaded => "run called with no loaded chunk"
  | reported text => text

/-- A raised string or number speaks for itself; of other values only the type is told. -/
def Value.raisedMessage : Value → String
  | nil => "nil"
  | string s => s
  | number n => n.text
  | v => "(error object is a " ++ v.typeName ++ " value)"

def Cause.message : Cause → String
  | runtime complaint => complaint.message
  | raised v => v.raisedMessage
  | operand action kind => "attempt to " ++ action ++ " a " ++ kind ++ " value"
  | comparison left right =>
    if left = right then "attempt to compare two " ++ left ++ " values"
    else "attempt to compare " ++ left ++ " with " ++ right
  | nilKey => "table index is nil"
  | nanKey => "table index is NaN"
  | notInteger => "number has no integer representation"
  | malformed m => "malformed bytecode: " ++ m.message
  | stackOverflow => "stack overflow"
  | misuse m => "internal error: " ++ m.message

namespace Fault

/-- The wording, with the place in front. -/
def message (f : Fault) : String :=
  match f.place with
  | none => f.cause.message
  | some p => p.chunk ++ ":" ++ toString p.line.toNat ++ ": " ++ f.cause.message

/-! ### Places -/

/-- Record a place, unless there is one or the fault is a raised value. -/
def locate (chunk : String) (line : UInt32) (f : Fault) : Fault :=
  match f.cause, f.place with
  | .raised _, _ => f
  | _, some _ => f
  | _, none => { f with place := some ⟨chunk, line⟩ }

@[simp]
theorem cause_locate (chunk : String) (line : UInt32) (f : Fault) :
    (f.locate chunk line).cause = f.cause := by
  unfold locate
  split <;> rfl

theorem locate_locate (chunk chunk' : String) (line line' : UInt32) (f : Fault) :
    (f.locate chunk line).locate chunk' line' = f.locate chunk line := by
  obtain ⟨cause, place⟩ := f
  cases cause <;> cases place <;> rfl

/-- What a protected call reports: a raised value itself, else the message. -/
def toValue (f : Fault) : Value :=
  match f.cause with
  | .raised v => v
  | _ => .string f.message

end Fault

end LuaBytecode
