import Mathlib.Logic.Relation
import LuaBytecode.Embedding

/-!
# Runs, step by step

`Engine.perform` and `Engine.execute` tell how a job ends.  What happens on the way is told by a
`Machine`: the work in hand, and the work that waits for its end.  It holds the same actions as
they do, and takes them from one wait to the next.

* `Machine.step` : one step of the machine.  Where the work in hand awaits a job, the work is put
  aside, and when the job has ended it is resumed.
* `Operation` : what an embedding program does with an engine.  A machine with nothing left to do
  may start the next operation.
* `Machine.Reachable` : the states that a new engine can come to, by any operations, with any
  programs and any host functions.

`LuaBytecode.Proofs.Run.Agreement` states that a machine ends a job as `Engine.perform` does.
-/

namespace LuaBytecode

namespace Progress

variable {α : Type}

/-- The state that an action has come to. -/
def engine : Progress α → Engine
  | .done _ e | .fault _ e | .await _ e _ => e

@[simp]
theorem engine_done (a : α) (e : Engine) : (done a e).engine = e := rfl

@[simp]
theorem engine_fault (f : Fault) (e : Engine) : (fault f e : Progress α).engine = e := rfl

@[simp]
theorem engine_await (job : Job) (e : Engine)
    (go : Except Fault (List Value) → Engine → Progress α) : (await job e go).engine = e := rfl

/-- Change the state at the end of an action. -/
def atEnd (g : Engine → Engine) (p : Progress α) : Progress α :=
  p.andFinally fun
    | .ok a, e => .done a (g e)
    | .error f, e => .fault f (g e)

end Progress

/-! ### Machines -/

/-- The work in hand. -/
inductive Activity where
  /-- An instruction of the running function; `base` frames remain when the function is left. -/
  | script (base : Nat) (p : Progress Bool)
  /-- A host function. -/
  | host (p : Progress (List Value))
  /-- A job that has ended. -/
  | ended (r : Except Fault (List Value)) (e : Engine)

/-- Work that goes on when a job has ended. -/
inductive Waiting where
  | script (base : Nat) (go : Except Fault (List Value) → Engine → Progress Bool)
  | host (go : Except Fault (List Value) → Engine → Progress (List Value))

/-- The work in hand, and the work that waits for its end, the latest first. -/
structure Machine where
  activity : Activity
  waiting : List Waiting := []

/-- The state that the work has come to. -/
def Activity.engine : Activity → Engine
  | script _ p => p.engine
  | host p => p.engine
  | ended _ e => e

/-- Begin a job: a call may fail at once, otherwise a function starts. -/
def Engine.begin (e : Engine) : Job → Activity
  | .call f args =>
    match e.callee f args with
    | .error c => .ended (.error c) e
    | .ok (f, args) =>
      if e.isFull then .ended (.error (.ofCause .stackOverflow)) e
      else
        match f with
        | .native _ body => .host (((body args).act e.enterNative).atEnd leaveNative)
        | .closure c => .script e.depth (.done false (e.push c args))
  | .chunk p => .script e.depth (.done false (e.load p))

namespace Machine

def engine (m : Machine) : Engine := m.activity.engine

/-- One step; none if nothing is left to do.  A function that has returned or failed is left, with
the functions above it. -/
def step : Machine → Option Machine
  | ⟨.script base (.done false e), w⟩ => some ⟨.script base e.step, w⟩
  | ⟨.script base (.done true e), w⟩ =>
    some ⟨.ended (.ok (e.unwindTo base).1) (e.unwindTo base).2, w⟩
  | ⟨.script base (.fault f e), w⟩ => some ⟨.ended (.error f) (e.unwindTo base).2, w⟩
  | ⟨.script base (.await job e go), w⟩ => some ⟨e.begin job, .script base go :: w⟩
  | ⟨.host (.done vs e), w⟩ => some ⟨.ended (.ok vs) e, w⟩
  | ⟨.host (.fault f e), w⟩ => some ⟨.ended (.error f) e, w⟩
  | ⟨.host (.await job e go), w⟩ => some ⟨e.begin job, .host go :: w⟩
  | ⟨.ended r e, .script base go :: w⟩ => some ⟨.script base (go r e), w⟩
  | ⟨.ended r e, .host go :: w⟩ => some ⟨.host (go r e), w⟩
  | ⟨.ended _ _, []⟩ => none

/-- The machine after some steps, or at its end if it takes fewer. -/
def after : Nat → Machine → Machine
  | 0, m => m
  | n + 1, m => after n (m.step.getD m)

/-- Any number of steps. -/
def Steps : Machine → Machine → Prop := Relation.ReflTransGen fun m m' => m.step = some m'

end Machine

/-! ### Operations of the embedding program -/

/-- What an embedding program does with an engine.  To call or index a value, and to look at
tables, it serves a host function of its own. -/
inductive Operation where
  | load (p : Prototype)
  | run
  | register (name : String) (body : List Value → Host)
  | setGlobal (name : String) (v : Value)
  | newTable
  | serve (h : Host)

/-- Start an operation. -/
def Operation.start (e : Engine) : Operation → Machine
  | load p => { activity := .ended (.ok []) (e.load p) }
  | run =>
    { activity :=
        if e.depth = 0 then .ended (.error (.ofCause (.misuse .nothingLoaded))) e
        else .script (e.depth - 1) (.done false e) }
  | register name body => { activity := .ended (.ok []) (e.register name body) }
  | setGlobal name v => { activity := .ended (.ok []) (e.setGlobal name v) }
  | newTable => { activity := .ended (.ok [.table e.newTable.1]) e.newTable.2 }
  | serve h => { activity := .host (h.act e) }

namespace Machine

/-- A machine takes a step, or starts an operation when nothing is left to do. -/
inductive Next : Machine → Machine → Prop where
  | step {m m' : Machine} (h : m.step = some m') : Next m m'
  | operation (r : Except Fault (List Value)) (e : Engine) (o : Operation) :
      Next ⟨.ended r e, []⟩ (o.start e)

/-- A machine with a new engine. -/
def new (config : Config) : Machine := { activity := .ended (.ok []) (Engine.new config) }

/-- The machines that come from a new engine. -/
def Reachable (config : Config) : Machine → Prop := Relation.ReflTransGen Next (new config)

theorem steps_after (m : Machine) (n : Nat) : m.Steps (m.after n) := by
  induction n generalizing m with
  | zero => exact .refl
  | succ n ih =>
    rw [Machine.after]
    cases hstep : m.step with
    | none => exact ih m
    | some m' => exact .head hstep (ih m')

theorem Reachable.after {config : Config} {m : Machine} (h : Reachable config m) (n : Nat) :
    Reachable config (m.after n) :=
  h.trans (Relation.ReflTransGen.mono (fun _ _ => Next.step) _ _ (steps_after m n))

/-- The result of a machine with nothing left to do. -/
def result? : Machine → Option (Except Fault (List Value))
  | ⟨.ended r _, []⟩ => some r
  | _ => none

theorem eq_of_result? {m : Machine} {r : Except Fault (List Value)} (h : m.result? = some r) :
    m = { activity := .ended r m.engine } := by
  match m, h with
  | ⟨.ended r _, []⟩, rfl => rfl

theorem steps_of_result? {m : Machine} {n : Nat} {r : Except Fault (List Value)}
    (h : (m.after n).result? = some r) :
    m.Steps { activity := .ended r (m.after n).engine } := by
  rw [← eq_of_result? h]
  exact steps_after m n

/-- Every state has a property that new engines have and that every step and operation keeps. -/
theorem Reachable.invariant {config : Config} {P : Machine → Prop} {m : Machine}
    (h : Reachable config m) (hnew : P (new config)) (hnext : ∀ m m', P m → Next m m' → P m') :
    P m := by
  induction h with
  | refl => exact hnew
  | tail _ hstep ih => exact hnext _ _ ih hstep

end Machine

/-- The instruction at which the running frame stands. -/
def Engine.instruction? (e : Engine) : Option (Opcode × Instruction) := do
  let i ← e.frame.proto.code[e.frame.pc]?
  return (← i.opcode?, i)

/-- The instruction that a machine is about to execute. -/
def Machine.instruction? (m : Machine) : Option (Opcode × Instruction) :=
  match m.activity with
  | .script _ (.done false e) => e.instruction?
  | _ => none

end LuaBytecode
