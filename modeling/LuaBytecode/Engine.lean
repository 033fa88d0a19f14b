import LuaBytecode.Frame

/-!
# The engine

An `Engine` is the state of everything that runs: the call stack, the heap, and the counters
that bound the depth of calls.  The last frame is the one that runs.
-/

namespace LuaBytecode

/-- The options of an engine. -/
structure Config where
  /-- Calls nested deeper than this fail. -/
  maxCallDepth : Nat := 200
  /-- The base library is there from the start. -/
  openBaseLibrary : Bool := true
  /-- The least size of a register file. -/
  minRegisters : Nat := 20
deriving DecidableEq

/-- The configuration without the base library. -/
def Config.bare : Config := { openBaseLibrary := false }

/-- What host functions hand to the embedding program. -/
inductive Event where
  | printed (line : String)
  | noted (vs : List Value)

/-- The state of an engine. -/
structure Engine where
  config : Config
  frames : Array Frame := #[]
  heap : Heap
  globals : TableRef
  /-- The metatable of all values that are not tables. -/
  defaultMeta : TableRef
  /-- The serial number of the last frame. -/
  serial : Nat := 0
  /-- The host functions that are running. -/
  nativeDepth : Nat := 0
  events : Array Event := #[]

namespace Engine

/-- An engine with empty tables of globals and of default metamethods. -/
def empty (config : Config) : Engine :=
  let (globals, heap) := ({} : Heap).newTable
  let (defaultMeta, heap) := heap.newTable
  { config, heap, globals, defaultMeta }

/-! ### The call stack -/

/-- The number of frames. -/
def depth (e : Engine) : Nat := e.frames.size

/-- A frame of an empty function. -/
def blankFrame : Frame :=
  { id := ⟨0, 0⟩, closure := { proto := {} }, registers := #[], top := 0 }

/-- The running frame; a blank one on an empty stack. -/
def frame (e : Engine) : Frame := e.frames.back?.getD blankFrame

def updateFrame (e : Engine) (f : Frame → Frame) : Engine :=
  { e with frames := e.frames.modify (e.frames.size - 1) f }

/-- Start a function. -/
def push (e : Engine) (closure : Closure) (args : List Value) : Engine :=
  let id : FrameId := ⟨e.frames.size, e.serial + 1⟩
  { e with
    serial := e.serial + 1
    frames := e.frames.push (.start id closure args e.config.minRegisters) }

/-- Leave the running function: its cells are closed, and its results are handed over. -/
def pop (e : Engine) : List Value × Engine :=
  let f := e.frame
  let (f, heap) := f.closeFrom 0 e.heap
  (f.results, { e with frames := e.frames.pop, heap })

/-- Leave `n` functions in turn; the results are those of the last one left. -/
def popMany : Nat → List Value × Engine → List Value × Engine
  | 0, r => r
  | n + 1, (_, e) => popMany n e.pop

/-- Leave functions until `depth` frames remain. -/
def unwindTo (e : Engine) (depth : Nat) : List Value × Engine :=
  popMany (e.frames.size - depth) ([], e)

/-- Push the frame of a chunk, whose first upvalue is the table of globals. -/
def load (e : Engine) (p : Prototype) : Engine :=
  let values := (List.range p.upvalues.size).map fun i => if i = 0 then .table e.globals else .nil
  let (cells, heap) := e.heap.newClosedCells values
  { e with heap }.push { proto := p, upvalues := cells.toArray } []

/-! ### Cells, tables and functions -/

/-- The value that a cell shares: the register that an open cell names, or its own value. -/
def cellValue (e : Engine) (c : CellRef) : Value :=
  match e.heap.cell c with
  | .opened frame r => (e.frames.getD frame.depth blankFrame).get r
  | .closed v => v

def setCellValue (e : Engine) (c : CellRef) (v : Value) : Engine :=
  match e.heap.cell c with
  | .opened frame r => { e with frames := e.frames.modify frame.depth (·.set r v) }
  | .closed _ => { e with heap := e.heap.setCell c (.closed v) }

/-- The open cell of a register of the running frame. -/
def captureRegister (e : Engine) (r : Nat) : CellRef × Engine :=
  let (c, f, heap) := e.frame.capture e.heap r
  (c, { e with heap }.updateFrame fun _ => f)

/-- Close the open cells of the running frame from a register on. -/
def closeCells (e : Engine) (first : Nat) : Engine :=
  let (f, heap) := e.frame.closeFrom first e.heap
  { e with heap }.updateFrame fun _ => f

def newTable (e : Engine) : TableRef × Engine :=
  let (t, heap) := e.heap.newTable
  (t, { e with heap })

def newFunction (e : Engine) (f : Function) : FunctionRef × Engine :=
  let (r, heap) := e.heap.newFunction f
  (r, { e with heap })

/-! ### Globals and metatables -/

def getGlobal (e : Engine) (name : String) : Value := (e.heap.table e.globals).get (.string name)

def setGlobal (e : Engine) (name : String) (v : Value) : Engine :=
  { e with heap := e.heap.updateTable e.globals (·.setString name v) }

/-- Make a host function a global variable. -/
def register (e : Engine) (name : String) (body : List Value → Host) : Engine :=
  let (f, e) := e.newFunction (.native name body)
  e.setGlobal name (.function f)

/-- The table in which the metamethods of a value are looked up. -/
def metatableFor (e : Engine) : Value → Option TableRef
  | .table t => (e.heap.table t).metatable
  | _ => some e.defaultMeta

/-- The metamethod of a value, or nil. -/
def metamethod (e : Engine) (v : Value) (event : String) : Value :=
  match e.metatableFor v with
  | some m => (e.heap.table m).get (.string event)
  | none => .nil

/-- The metatable of a value; an empty one of default metamethods does not count. -/
def metatableOf (e : Engine) : Value → Option TableRef
  | .table t => (e.heap.table t).metatable
  | _ => if (e.heap.table e.defaultMeta).isEmpty then none else some e.defaultMeta

end Engine

end LuaBytecode
