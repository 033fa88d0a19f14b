import LuaBytecode.Loop
import LuaBytecode.Metamethod

/-!
# The effect of instructions

`Opcode.effect` says what each opcode does to the running frame and the heap.  Operands are
registers of the frame; where one may be a constant, `Action.rk` decides.  When an instruction
takes effect the frame already points at the next one, so that jumps are relative to it.

`Engine.step` fetches an instruction and lets it take effect; faults are located at it.
-/

namespace LuaBytecode

namespace Action

/-! ### Operands -/

/-- The value of a register. -/
def register (r : Nat) : Action Value := read (·.frame.get r)

/-- Write a register. -/
def setRegister (r : Nat) (v : Value) : Action Unit := modify (·.updateFrame (·.set r v))

/-- A constant of the running function. -/
def constant (i : Nat) : Action Value := fun e =>
  match e.frame.proto.constants[i]? with
  | some c => .done c.toValue e
  | none => .fault (Malformation.constantOutOfRange i) e

/-- A constant or a register. -/
def rk (x : Nat) : Action Value :=
  if RK.isConstant x then constant (RK.constantIndex x) else register x

/-- The value of an upvalue of the running function. -/
def upvalue (i : Nat) : Action Value := fun e =>
  match e.frame.upvalue? i with
  | none => .fault (Malformation.upvalueOutOfRange i) e
  | some c => .done (e.cellValue c) e

/-- Write an upvalue of the running function. -/
def setUpvalue (i : Nat) (v : Value) : Action Unit := fun e =>
  match e.frame.upvalue? i with
  | none => .fault (Malformation.upvalueOutOfRange i) e
  | some c => .done () (e.setCellValue c v)

/-! ### The program counter -/

/-- Skip the next instruction. -/
def skip : Action Unit := modify (·.updateFrame fun f => { f with pc := f.pc + 1 })

/-- The position at an offset, in 64-bit arithmetic: a position before the code wraps around to
one far behind it. -/
def jumpTarget (pc : Nat) (offset : Int) : Nat := ((pc + offset) % 0x10000000000000000).toNat

/-- Jump relative to the next instruction. -/
def jump (offset : Int) : Action Unit :=
  modify (·.updateFrame fun f => { f with pc := jumpTarget f.pc offset })

/-- The operand of the `EXTRAARG` that has to follow; it is skipped. -/
def extraArg : Action Nat := do
  match ← read fun e => e.frame.proto.code[e.frame.pc]? with
  | some i =>
    if i.opcode? = some .extraArg then do
      skip
      return i.extra
    else fail Malformation.missingExtraArg
  | none => fail Malformation.missingExtraArg

/-! ### Calls -/

/-- The values of registers from `first` on: `count - 1` of them, or all up to the top if `count`
is zero. -/
def openSlice (first count : Nat) : Action (List Value) :=
  read fun e =>
    let f := e.frame
    f.slice first (if count = 0 then f.top else first + count - 1)

/-- Write results to the registers from `base` on: all of them if `want` is zero, otherwise
exactly `want - 1`, filled with nil.  The top is set behind them. -/
def storeResults (base want : Nat) (vs : List Value) : Action Unit :=
  let vs := if want = 0 then vs else Frame.padded (want - 1) vs
  modify (·.updateFrame fun f => { f.setRange base vs with top := base + vs.length })

/-! ### Instructions -/

/-- Join the values of registers, from the last one down to the first. -/
def concatDown (first : Nat) : Nat → Value → Action Value
  | 0, acc => pure acc
  | n + 1, acc => do
    let v ← register (first + n)
    concatDown first n (← concat v acc)

/-- A comparison of two values. -/
def compare : Comparison → Value → Value → Action Bool
  | .eq => equals
  | .lt => lessThan
  | .le => lessEqual

/-- Write values to consecutive integers from `n` on. -/
def storeItems (t : TableRef) (n : Nat) : List Value → Engine → Engine
  | [], e => e
  | v :: vs, e =>
    storeItems t (n + 1) vs
      { e with heap := e.heap.updateTable t (·.setInt (Int64.ofNat n) v) }

/-- Store a batch of list items from registers into a table. -/
def setList (a b c : Nat) : Action Unit := do
  let batch ← if c = 0 then extraArg else pure c
  if batch = 0 then fail Malformation.setListBatchZero
  let vs ← read fun e =>
    e.frame.slice (a + 1) (if b = 0 then e.frame.top else a + 1 + b)
  match ← register a with
  | .table t => modify (storeItems t ((batch - 1) * itemsPerBatch + 1) vs)
  | _ => fail Malformation.setListTarget

/-- The cells of the upvalues of a new function. -/
def captureAll : List UpvalueSource → Action (List CellRef)
  | [] => pure []
  | .register r :: us => do
    let c ← update fun e => e.captureRegister r.toNat
    return c :: (← captureAll us)
  | .enclosing i :: us => do
    let c ← orFail (Malformation.enclosingUpvalueOutOfRange i.toNat)
      (← read (·.frame.upvalue? i.toNat))
    return c :: (← captureAll us)

/-- A new function over a nested prototype. -/
def closure (i : Nat) : Action Value := do
  let p ← orFail (Malformation.prototypeOutOfRange i) (← read (·.frame.proto.protos[i]?))
  let cells ← captureAll p.upvalues.toList
  let f ← update (·.newFunction (.closure ⟨p, cells.toArray⟩))
  return .function f

/-- The slots of a numeric loop. -/
def loopSlots (a : Nat) : Action Loop :=
  read fun e =>
    let f := e.frame
    { index := f.get a, limit := f.get (a + 1), step := f.get (a + 2) }

def setLoopSlots (a : Nat) (l : Loop) : Action Unit :=
  modify (·.updateFrame (·.setRange a [l.index, l.limit, l.step]))

/-- Keep what a function returns. -/
def keepResults (vs : List Value) : Action Unit :=
  modify (·.updateFrame fun f => { f with results := vs })

/-- Write the arguments beyond the parameters to the registers from `base` on: `count - 1` of
them, filled with nil, or all of them and the top behind them if `count` is zero. -/
def storeVarargs (base count : Nat) : Action Unit :=
  modify (·.updateFrame fun f =>
    if count = 0 then { f.setRange base f.varargs with top := base + f.varargs.length }
    else f.setRange base (Frame.padded (count - 1) f.varargs))

end Action

open LuaBytecode.Action in
/-- The effect of an instruction with the given opcode. -/
def Opcode.effect (op : Opcode) (i : Instruction) : Action Unit :=
  match op with
  | move => do setRegister i.a (← register i.b)
  | loadK => do setRegister i.a (← constant i.bx)
  | loadKx => do setRegister i.a (← constant (← Action.extraArg))
  | loadBool => do
    setRegister i.a (.bool (i.b != 0))
    if i.c ≠ 0 then skip
  | loadNil => modify (·.updateFrame (·.setRange i.a (List.replicate (i.b + 1) .nil)))
  | getUpvalue => do setRegister i.a (← upvalue i.b)
  | setUpvalue => do Action.setUpvalue i.b (← register i.a)
  | getTabUp => do
    let object ← upvalue i.b
    setRegister i.a (← index object (← rk i.c))
  | setTabUp => do
    let object ← upvalue i.a
    let key ← rk i.b
    assign object key (← rk i.c)
  | getTable => do
    let object ← register i.b
    setRegister i.a (← index object (← rk i.c))
  | setTable => do
    let object ← register i.a
    let key ← rk i.b
    assign object key (← rk i.c)
  | newTable => do setRegister i.a (.table (← update (·.newTable)))
  | self => do
    let object ← register i.b
    let key ← rk i.c
    setRegister (i.a + 1) object
    setRegister i.a (← index object key)
  | setList => Action.setList i.a i.b i.c
  | arith op =>
    if op.isUnary then do
      let v ← register i.b
      setRegister i.a (← Action.arith op v v)
    else do
      let v ← rk i.b
      setRegister i.a (← Action.arith op v (← rk i.c))
  | not => do setRegister i.a (.bool !(← register i.b).isTruthy)
  | len => do setRegister i.a (← length (← register i.b))
  | concat => do setRegister i.a (← concatDown i.b (i.c - i.b) (← register i.c))
  | compare c => do
    let v ← rk i.b
    let r ← Action.compare c v (← rk i.c)
    if r != (i.a != 0) then skip
  | test => do
    if (← register i.a).isTruthy != (i.c != 0) then skip
  | testSet => do
    let v ← register i.b
    if v.isTruthy = (i.c != 0) then setRegister i.a v else skip
  | jump => do
    Action.jump i.sbx
    if i.a ≠ 0 then modify (·.closeCells (i.a - 1))
  | forPrep => do
    match (← loopSlots i.a).prepare with
    | .error c => fail c
    | .ok l => do
      setLoopSlots i.a l
      Action.jump i.sbx
  | forLoop => do
    match (← loopSlots i.a).advance with
    | .error m => fail m
    | .ok none => pure ()
    | .ok (some l) => do
      setLoopSlots i.a l
      setRegister (i.a + 3) l.index
      Action.jump i.sbx
  | tforCall => do
    let f ← register i.a
    let control ← read fun e => e.frame.slice (i.a + 1) (i.a + 3)
    storeResults (i.a + 3) (i.c + 1) (← Action.call f control)
  | tforLoop => do
    let control ← register (i.a + 1)
    if !control.isNil then do
      setRegister i.a control
      Action.jump i.sbx
  | call | tailCall => do
    let f ← register i.a
    let args ← openSlice (i.a + 1) i.b
    storeResults i.a i.c (← Action.call f args)
  | ret => do keepResults (← openSlice i.a i.b)
  | closure => do setRegister i.a (← Action.closure i.bx)
  | vararg => storeVarargs i.a i.b
  | extraArg => fail Malformation.strayExtraArg

/-- Execute the next instruction of the running function; whether the function returns. -/
def Engine.step (e : Engine) : Progress Bool :=
  let f := e.frame
  let p := f.proto
  let pc := f.pc
  let located := Fault.locate p.source (p.lineAt pc)
  match p.code[pc]? with
  | none => .fault (located (Malformation.pastEnd pc)) e
  | some i =>
    let e := e.updateFrame fun f => { f with pc := pc + 1 }
    match i.opcode? with
    | none => .fault (located (Malformation.unknownOpcode i.code)) e
    | some op => ((op.effect i e).mapFault located).andThen fun _ => .done (op = .ret)

end LuaBytecode
