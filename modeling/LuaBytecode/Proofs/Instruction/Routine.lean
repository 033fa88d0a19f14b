import LuaBytecode.Execution
import LuaBytecode.Proofs.Variable.Stack

/-!
# Instructions as routines of commands

The effect of an instruction is an action, and of an action only the outcome can be looked at.
What an instruction does on the way is told by its *routine*: the commands that it gives one after
the other, each to read or write a part of the running frame, a cell or the heap, or to carry out
an operation that may call functions.

* `Command` : the commands; `Command.run` carries one out.
* `Routine` : commands in a row, where the later ones may depend on the answers to the earlier
  ones.
* `Opcode.routine` : the routine of each instruction.
* `Opcode.run_routine` : **to carry out the routine is the effect of the instruction.**

So what holds of every command, and is kept when commands follow each other, holds of every
instruction.
-/

namespace LuaBytecode

variable {α β γ : Type}

/-! ### Actions as a monad -/

namespace Progress

theorem andThen_andThen (p : Progress α) (f : α → Engine → Progress β)
    (g : β → Engine → Progress γ) :
    (p.andThen f).andThen g = p.andThen fun a e => (f a e).andThen g := by
  refine (andFinally_andFinally p _ _).trans (congrArg p.andFinally ?_)
  funext r e
  cases r <;> rfl

theorem andThen_done_eq_self (p : Progress α) : (p.andThen fun a e => .done a e) = p := by
  induction p with
  | done a e => rfl
  | fault x e => rfl
  | await job e go ih =>
    refine congrArg (await job e) ?_
    funext r e'
    exact ih r e'

end Progress

instance : LawfulMonad Action :=
  LawfulMonad.mk' Action (fun x => funext fun e => (x e).andThen_done_eq_self) (fun _ _ => rfl)
    fun x _ _ => funext fun e => (x e).andThen_andThen _ _

/-- Two changes of the running frame are the same if they do the same to it. -/
theorem Engine.updateFrame_congr {e : Engine} {g g' : Frame → Frame} (h : g e.frame = g' e.frame) :
    e.updateFrame g = e.updateFrame g' := by
  refine congrArg (fun frames => { e with frames := frames }) (Array.ext_getElem? fun i => ?_)
  refine (getElem?_updateFrame e g i).trans ((getElem?_updateFrame e g' i).trans ?_).symm
  split
  · rename_i hi
    obtain rfl : i = e.depth - 1 := by omega
    rw [getElem?_depth (by omega), Option.map_some, Option.map_some, h]
  · rfl

/-! ### Commands -/

/-- What a frame holds for its function to go on, apart from registers. -/
structure Control where
  closure : Closure
  pc : Nat
  top : Nat
  varargs : List Value

def Frame.control (f : Frame) : Control := ⟨f.closure, f.pc, f.top, f.varargs⟩

/-- What an instruction can do at a time, by the type of the answer. -/
inductive Command : Type → Type where
  /-- Read a register. -/
  | register (r : Nat) : Command Value
  /-- Read the registers from `first` up to `last`, which is left out. -/
  | registers (first last : Nat) : Command (List Value)
  /-- Write consecutive registers. -/
  | setRegisters (base : Nat) (vs : List Value) : Command Unit
  | control : Command Control
  | skip : Command Unit
  | jump (offset : Int) : Command Unit
  | setTop (n : Nat) : Command Unit
  | keepResults (vs : List Value) : Command Unit
  | cellValue (c : CellRef) : Command Value
  | setCellValue (c : CellRef) (v : Value) : Command Unit
  | captureRegister (r : Nat) : Command CellRef
  | closeCells (first : Nat) : Command Unit
  | newTable : Command TableRef
  | newFunction (c : Closure) : Command FunctionRef
  | storeItems (t : TableRef) (n : Nat) (vs : List Value) : Command Unit
  | call (f : Value) (args : List Value) : Command (List Value)
  | arith (op : Operator) (a b : Value) : Command Value
  | concat (a b : Value) : Command Value
  | compare (c : Comparison) (a b : Value) : Command Bool
  | length (v : Value) : Command Value
  | index (object key : Value) : Command Value
  | assign (object key v : Value) : Command Unit

/-- Carry out a command. -/
def Command.run : Command α → Action α
  | register r => Action.register r
  | registers first last => .read (·.frame.slice first last)
  | setRegisters base vs => .modify (·.updateFrame (·.setRange base vs))
  | control => .read (·.frame.control)
  | skip => Action.skip
  | jump offset => Action.jump offset
  | setTop n => .modify (·.updateFrame fun f => { f with top := n })
  | keepResults vs => Action.keepResults vs
  | cellValue c => .read (·.cellValue c)
  | setCellValue c v => .modify (·.setCellValue c v)
  | captureRegister r => .update (·.captureRegister r)
  | closeCells first => .modify (·.closeCells first)
  | newTable => .update (·.newTable)
  | newFunction c => .update (·.newFunction (.closure c))
  | storeItems t n vs => .modify (Action.storeItems t n vs)
  | call f args => Action.call f args
  | arith op a b => Action.arith op a b
  | concat a b => Action.concat a b
  | compare c a b => Action.compare c a b
  | length v => Action.length v
  | index object key => Action.index object key
  | assign object key v => Action.assign object key v

/-! ### Routines -/

/-- Commands in a row, up to a result or a failure of the instruction itself. -/
inductive Routine (α : Type) : Type 1 where
  | done (a : α)
  | malformed (m : Malformation)
  | complain (c : Complaint)
  | give {β : Type} (c : Command β) (go : β → Routine α)

namespace Routine

/-- Go on from the result of a routine. -/
def andThen (x : Routine α) (f : α → Routine β) : Routine β :=
  match x with
  | done a => f a
  | malformed m => malformed m
  | complain c => complain c
  | give c go => give c fun b => (go b).andThen f

instance : Monad Routine where
  pure := done
  bind := andThen

/-- The routine of a single command. -/
def ask (c : Command α) : Routine α := give c done

/-- The code is malformed if there is no value. -/
def orMalformed (m : Malformation) : Option α → Routine α
  | some a => done a
  | none => malformed m

/-- Carry out a routine. -/
def run : Routine α → Action α
  | done a => pure a
  | malformed m => Action.fail m
  | complain c => Action.fail c
  | give c go => c.run >>= fun b => (go b).run

@[simp]
theorem run_pure (a : α) : (pure a : Routine α).run = pure a := rfl

@[simp]
theorem run_malformed (m : Malformation) : (malformed m : Routine α).run = Action.fail m := rfl

@[simp]
theorem run_complain (c : Complaint) : (complain c : Routine α).run = Action.fail c := rfl

@[simp]
theorem run_ask (c : Command α) : (ask c).run = c.run := bind_pure c.run

@[simp]
theorem run_bind (x : Routine α) (f : α → Routine β) :
    (x >>= f).run = x.run >>= fun a => (f a).run := by
  induction x with
  | done a => rfl
  | malformed m => rfl
  | complain c => rfl
  | give c go ih =>
    refine Eq.trans ?_ (bind_assoc _ _ _).symm
    exact congrArg (c.run >>= ·) (funext ih)

@[simp]
theorem run_ite (p : Prop) [Decidable p] (x y : Routine α) :
    (if p then x else y).run = if p then x.run else y.run := by
  split <;> rfl

@[simp]
theorem run_orMalformed (m : Malformation) (a? : Option α) :
    (orMalformed m a?).run = Action.orFail m a? := by
  cases a? <;> rfl

/-! ### Parts of instructions -/

def setRegister (r : Nat) (v : Value) : Routine Unit := ask (.setRegisters r [v])

@[simp]
theorem run_setRegister (r : Nat) (v : Value) : (setRegister r v).run = Action.setRegister r v :=
  run_ask _

def constant (i : Nat) : Routine Value := do
  let c ← orMalformed (.constantOutOfRange i) (← ask .control).closure.proto.constants[i]?
  return c.toValue

@[simp]
theorem run_constant (i : Nat) : (constant i).run = Action.constant i := by
  simp only [constant, run_bind, run_ask, run_orMalformed]
  funext e
  change (Action.orFail _ e.frame.proto.constants[i]? >>= _) e = _
  rw [Action.constant]
  cases e.frame.proto.constants[i]? <;> rfl

def rk (x : Nat) : Routine Value :=
  if RK.isConstant x then constant (RK.constantIndex x) else ask (.register x)

@[simp]
theorem run_rk (x : Nat) : (rk x).run = Action.rk x := by
  simp [rk, Action.rk, Command.run]

/-- The cell of an upvalue of the running function. -/
def upvalueCell (m : Malformation) (i : Nat) : Routine CellRef := do
  orMalformed m (← ask .control).closure.upvalues[i]?

@[simp]
theorem run_upvalueCell (m : Malformation) (i : Nat) :
    (upvalueCell m i).run = Action.read (·.frame.upvalue? i) >>= Action.orFail m := by
  simp only [upvalueCell, run_bind, run_ask, run_orMalformed]
  rfl

def upvalue (i : Nat) : Routine Value := do
  ask (.cellValue (← upvalueCell (.upvalueOutOfRange i) i))

@[simp]
theorem run_upvalue (i : Nat) : (upvalue i).run = Action.upvalue i := by
  simp only [upvalue, run_bind, run_ask, run_upvalueCell]
  funext e
  change (Action.orFail _ (e.frame.upvalue? i) >>= _) e = _
  rw [Action.upvalue]
  cases e.frame.upvalue? i <;> rfl

def setUpvalue (i : Nat) (v : Value) : Routine Unit := do
  ask (.setCellValue (← upvalueCell (.upvalueOutOfRange i) i) v)

@[simp]
theorem run_setUpvalue (i : Nat) (v : Value) : (setUpvalue i v).run = Action.setUpvalue i v := by
  simp only [setUpvalue, run_bind, run_ask, run_upvalueCell]
  funext e
  change (Action.orFail _ (e.frame.upvalue? i) >>= _) e = _
  rw [Action.setUpvalue]
  cases e.frame.upvalue? i <;> rfl

def extraArg : Routine Nat := do
  let c ← ask .control
  match c.closure.proto.code[c.pc]? with
  | some i =>
    if i.opcode? = some .extraArg then do
      ask .skip
      return i.extra
    else malformed .missingExtraArg
  | none => malformed .missingExtraArg

@[simp]
theorem run_extraArg : extraArg.run = Action.extraArg := by
  simp only [extraArg, run_bind, run_ask]
  funext e
  change (match e.frame.proto.code[e.frame.pc]? with | some i => _ | none => _ : Routine Nat).run e =
    (match e.frame.proto.code[e.frame.pc]? with | some i => _ | none => _ : Action Nat) e
  cases e.frame.proto.code[e.frame.pc]? with
  | none => rfl
  | some i =>
    simp only [run_ite, run_bind, run_ask, run_pure, run_malformed]
    rfl

def openSlice (first count : Nat) : Routine (List Value) := do
  let c ← ask .control
  ask (.registers first (if count = 0 then c.top else first + count - 1))

@[simp]
theorem run_openSlice (first count : Nat) :
    (openSlice first count).run = Action.openSlice first count := by
  simp only [openSlice, run_bind, run_ask]
  rfl

def storeResults (base want : Nat) (vs : List Value) : Routine Unit := do
  let vs := if want = 0 then vs else Frame.padded (want - 1) vs
  ask (.setRegisters base vs)
  ask (.setTop (base + vs.length))

@[simp]
theorem run_storeResults (base want : Nat) (vs : List Value) :
    (storeResults base want vs).run = Action.storeResults base want vs := by
  simp only [storeResults, run_bind, run_ask]
  funext e
  exact congrArg (Progress.done ()) (Engine.updateFrame_updateFrame _ _ _)

def concatDown (first : Nat) : Nat → Value → Routine Value
  | 0, acc => return acc
  | n + 1, acc => do
    let v ← ask (.register (first + n))
    concatDown first n (← ask (.concat v acc))

@[simp]
theorem run_concatDown (first n : Nat) (acc : Value) :
    (concatDown first n acc).run = Action.concatDown first n acc := by
  induction n generalizing acc with
  | zero => rfl
  | succ n ih =>
    simp only [concatDown, run_bind, run_ask, ih]
    rfl

/-- Store a batch of list items, from the number of the batch on. -/
def storeBatch (a b batch : Nat) : Routine Unit :=
  if batch = 0 then malformed .setListBatchZero
  else do
    let control ← ask .control
    let vs ← ask (.registers (a + 1) (if b = 0 then control.top else a + 1 + b))
    match ← ask (.register a) with
    | .table t => ask (.storeItems t ((batch - 1) * itemsPerBatch + 1) vs)
    | _ => malformed .setListTarget

def setList (a b c : Nat) : Routine Unit := do
  if c = 0 then do
    storeBatch a b (← extraArg)
  else storeBatch a b c

theorem run_storeBatch (a b batch : Nat) : (storeBatch a b batch).run = (do
    if batch = 0 then Action.fail Malformation.setListBatchZero
    let vs ← Action.read fun e =>
      e.frame.slice (a + 1) (if b = 0 then e.frame.top else a + 1 + b)
    match ← Action.register a with
    | .table t => Action.modify (Action.storeItems t ((batch - 1) * itemsPerBatch + 1) vs)
    | _ => Action.fail Malformation.setListTarget) := by
  funext e
  by_cases h : batch = 0
  · rw [storeBatch, if_pos h, if_pos h]
    rfl
  · rw [storeBatch, if_neg h, if_neg h]
    simp only [run_bind, run_ask]
    -- both sides look at the register for a table
    change (match e.frame.get a with | .table t => _ | _ => _ : Routine Unit).run e =
      (match e.frame.get a with | .table t => _ | _ => _ : Action Unit) e
    cases e.frame.get a <;> rfl

@[simp]
theorem run_setList (a b c : Nat) : (setList a b c).run = Action.setList a b c := by
  unfold setList Action.setList
  split
  · rw [run_bind, run_extraArg]
    exact congrArg (Action.extraArg >>= ·) (funext (run_storeBatch a b))
  · exact run_storeBatch a b c

def captureAll : List UpvalueSource → Routine (List CellRef)
  | [] => return []
  | .register r :: us => do
    let c ← ask (.captureRegister r.toNat)
    return c :: (← captureAll us)
  | .enclosing i :: us => do
    let c ← upvalueCell (.enclosingUpvalueOutOfRange i.toNat) i.toNat
    return c :: (← captureAll us)

@[simp]
theorem run_captureAll (us : List UpvalueSource) : (captureAll us).run = Action.captureAll us := by
  induction us with
  | nil => rfl
  | cons u us ih =>
    cases u <;>
      simp only [captureAll, run_bind, run_ask, run_upvalueCell, run_pure, ih, bind_assoc] <;> rfl

def closure (i : Nat) : Routine Value := do
  let p ← orMalformed (.prototypeOutOfRange i) (← ask .control).closure.proto.protos[i]?
  let cells ← captureAll p.upvalues.toList
  return .function (← ask (.newFunction ⟨p, cells.toArray⟩))

@[simp]
theorem run_closure (i : Nat) : (closure i).run = Action.closure i := by
  simp only [closure, run_bind, run_ask, run_orMalformed, run_captureAll, run_pure]
  rfl

def loopSlots (a : Nat) : Routine Loop := do
  let index ← ask (.register a)
  let limit ← ask (.register (a + 1))
  return { index, limit, step := ← ask (.register (a + 2)) }

@[simp]
theorem run_loopSlots (a : Nat) : (loopSlots a).run = Action.loopSlots a := by
  simp only [loopSlots, run_bind, run_ask, run_pure]
  rfl

def setLoopSlots (a : Nat) (l : Loop) : Routine Unit :=
  ask (.setRegisters a [l.index, l.limit, l.step])

@[simp]
theorem run_setLoopSlots (a : Nat) (l : Loop) : (setLoopSlots a l).run = Action.setLoopSlots a l :=
  run_ask _

def storeVarargs (base count : Nat) : Routine Unit := do
  let c ← ask .control
  if count = 0 then do
    ask (.setRegisters base c.varargs)
    ask (.setTop (base + c.varargs.length))
  else ask (.setRegisters base (Frame.padded (count - 1) c.varargs))

@[simp]
theorem run_storeVarargs (base count : Nat) :
    (storeVarargs base count).run = Action.storeVarargs base count := by
  simp only [storeVarargs, run_bind, run_ask, run_ite]
  funext e
  -- the arguments are those of the frame that is written
  have hwrite : Action.storeVarargs base count e = .done () (e.updateFrame fun f =>
      if count = 0 then
        { f.setRange base e.frame.varargs with top := base + e.frame.varargs.length }
      else f.setRange base (Frame.padded (count - 1) e.frame.varargs)) :=
    congrArg (Progress.done ()) (Engine.updateFrame_congr rfl)
  rw [hwrite]
  by_cases h : count = 0
  · simp only [h, if_true]
    exact congrArg (Progress.done ()) (Engine.updateFrame_updateFrame _ _ _)
  · simp only [h, if_false]
    rfl

end Routine

/-! ### Instructions -/

open LuaBytecode.Routine in
/-- The routine of an instruction with the given opcode. -/
def Opcode.routine (op : Opcode) (i : Instruction) : Routine Unit :=
  match op with
  | move => do setRegister i.a (← ask (.register i.b))
  | loadK => do setRegister i.a (← constant i.bx)
  | loadKx => do setRegister i.a (← constant (← Routine.extraArg))
  | loadBool => do
    setRegister i.a (.bool (i.b != 0))
    if i.c ≠ 0 then ask .skip else pure ()
  | loadNil => ask (.setRegisters i.a (List.replicate (i.b + 1) .nil))
  | getUpvalue => do setRegister i.a (← upvalue i.b)
  | setUpvalue => do Routine.setUpvalue i.b (← ask (.register i.a))
  | getTabUp => do
    let object ← upvalue i.b
    setRegister i.a (← ask (.index object (← rk i.c)))
  | setTabUp => do
    let object ← upvalue i.a
    let key ← rk i.b
    ask (.assign object key (← rk i.c))
  | getTable => do
    let object ← ask (.register i.b)
    setRegister i.a (← ask (.index object (← rk i.c)))
  | setTable => do
    let object ← ask (.register i.a)
    let key ← rk i.b
    ask (.assign object key (← rk i.c))
  | newTable => do setRegister i.a (.table (← ask .newTable))
  | self => do
    let object ← ask (.register i.b)
    let key ← rk i.c
    setRegister (i.a + 1) object
    setRegister i.a (← ask (.index object key))
  | setList => Routine.setList i.a i.b i.c
  | arith op =>
    if op.isUnary then do
      let v ← ask (.register i.b)
      setRegister i.a (← ask (.arith op v v))
    else do
      let v ← rk i.b
      setRegister i.a (← ask (.arith op v (← rk i.c)))
  | not => do setRegister i.a (.bool !(← ask (.register i.b)).isTruthy)
  | len => do setRegister i.a (← ask (.length (← ask (.register i.b))))
  | concat => do setRegister i.a (← concatDown i.b (i.c - i.b) (← ask (.register i.c)))
  | compare c => do
    let v ← rk i.b
    let r ← ask (.compare c v (← rk i.c))
    if r != (i.a != 0) then ask .skip else pure ()
  | test => do
    if (← ask (.register i.a)).isTruthy != (i.c != 0) then ask .skip else pure ()
  | testSet => do
    let v ← ask (.register i.b)
    if v.isTruthy = (i.c != 0) then setRegister i.a v else ask .skip
  | jump => do
    ask (.jump i.sbx)
    if i.a ≠ 0 then ask (.closeCells (i.a - 1)) else pure ()
  | forPrep => do
    match (← loopSlots i.a).prepare with
    | .error c => complain c
    | .ok l => do
      setLoopSlots i.a l
      ask (.jump i.sbx)
  | forLoop => do
    match (← loopSlots i.a).advance with
    | .error m => malformed m
    | .ok none => pure ()
    | .ok (some l) => do
      setLoopSlots i.a l
      setRegister (i.a + 3) l.index
      ask (.jump i.sbx)
  | tforCall => do
    let f ← ask (.register i.a)
    let control ← ask (.registers (i.a + 1) (i.a + 3))
    storeResults (i.a + 3) (i.c + 1) (← ask (.call f control))
  | tforLoop => do
    let control ← ask (.register (i.a + 1))
    if !control.isNil then do
      setRegister i.a control
      ask (.jump i.sbx)
    else pure ()
  | call | tailCall => do
    let f ← ask (.register i.a)
    let args ← openSlice (i.a + 1) i.b
    storeResults i.a i.c (← ask (.call f args))
  | ret => do ask (.keepResults (← openSlice i.a i.b))
  | closure => do setRegister i.a (← Routine.closure i.bx)
  | vararg => storeVarargs i.a i.b
  | extraArg => malformed .strayExtraArg

/-- **The routine of an instruction is what the instruction does.** -/
@[simp]
theorem Opcode.run_routine (op : Opcode) (i : Instruction) : (op.routine i).run = op.effect i := by
  cases op with
  | forPrep =>
    simp only [routine, Routine.run_bind, Routine.run_loopSlots]
    refine congrArg (Action.loopSlots i.a >>= ·) (funext fun l => ?_)
    cases l.prepare with
    | error c => rfl
    | ok l => simp only [Routine.run_bind, Routine.run_setLoopSlots, Routine.run_ask]; rfl
  | forLoop =>
    simp only [routine, Routine.run_bind, Routine.run_loopSlots]
    refine congrArg (Action.loopSlots i.a >>= ·) (funext fun l => ?_)
    match l.advance with
    | .error m => rfl
    | .ok none => rfl
    | .ok (some l) =>
      simp only [Routine.run_bind, Routine.run_setLoopSlots, Routine.run_setRegister, Routine.run_ask]
      rfl
  -- elsewhere the parts of the routine run to the parts of the effect
  | _ =>
    simp only [routine, Routine.run_bind, Routine.run_ask, Routine.run_ite, Routine.run_pure,
      Routine.run_malformed, Routine.run_setRegister, Routine.run_constant, Routine.run_rk,
      Routine.run_upvalue, Routine.run_setUpvalue, Routine.run_extraArg, Routine.run_openSlice,
      Routine.run_storeResults, Routine.run_concatDown, Routine.run_setList, Routine.run_closure,
      Routine.run_storeVarargs]
    rfl

end LuaBytecode
