import LuaBytecode.Proofs.Instruction.Routine
import LuaBytecode.Proofs.Run.Instruction

/-!
# What all instructions walk by

`Engine.Executes` holds of relations that allow what most instructions do.  Two instructions do
more: an assignment to an upvalue may write to any frame, and a jump may close cells.  A relation
that allows these as well is one that every command walks by, and so every instruction.

* `Engine.Instructs` : the relations that allow what commands do.
* `Command.walks_run`, `Routine.walks_run` : commands and routines walk by them.
* `Engine.walks_step_of_instructs` : **so does the execution of an instruction.**
-/

namespace LuaBytecode

variable {α : Type} {R : Engine → Engine → Prop}

/-- The identity of a frame and the function that it belongs to. -/
def Frame.function (f : Frame) : FrameId × Closure := (f.id, f.closure)

theorem Frame.function_set (f : Frame) (r : Nat) (v : Value) : (f.set r v).function = f.function :=
  rfl

theorem Frame.function_setRange (f : Frame) (base : Nat) (vs : List Value) :
    (f.setRange base vs).function = f.function := by
  induction vs generalizing f base with
  | nil => rfl
  | cons v vs ih => exact (ih (f.set base v) (base + 1)).trans (f.function_set base v)

/-- The running frame may go on, as long as it keeps its function and its captures; registers may
be captured, cells be assigned to and closed. -/
class Engine.Instructs (R : Engine → Engine → Prop) : Prop extends Engine.Serves R where
  updateFrame : ∀ {g : Frame → Frame}, (∀ f, (g f).function = f.function) →
    (∀ f, (g f).links = f.links) → ∀ e, R e (e.updateFrame g)
  capture : ∀ e r, R e (e.captureRegister r).2
  setCellValue : ∀ e c v, R e (e.setCellValue c v)
  closeCells : ∀ e first, R e (e.closeCells first)

open Engine (Serves Instructs)

/-- Every command walks by what commands may do. -/
theorem Command.walks_run [Instructs R] (c : Command α) : c.run.Walks R := by
  cases c with
  | register r | registers first last | control | cellValue c => exact .read _
  | setRegisters base vs =>
    exact .modify (Instructs.updateFrame (fun f => f.function_setRange base vs)
      fun f => f.links_setRange base vs)
  | skip | jump offset | setTop n | keepResults vs =>
    exact .modify (Instructs.updateFrame (fun _ => rfl) fun _ => rfl)
  | setCellValue c v => exact .modify fun e => Instructs.setCellValue e c v
  | captureRegister r => exact .update fun e => Instructs.capture e r
  | closeCells first => exact .modify fun e => Instructs.closeCells e first
  | newTable => exact .update (f := (·.newTable)) fun e => Serves.serve e _ e.events rfl
  | newFunction c =>
    exact .update (f := (·.newFunction (.closure c))) fun e => Serves.serve e _ e.events rfl
  | storeItems t n vs => exact .modify fun e => Action.supplies_storeItems t n vs e
  | call f args => exact .call f args
  | arith op a b => exact Action.walks_arith op a b
  | concat a b => exact Action.walks_concat a b
  | compare c a b => exact Action.walks_compare c a b
  | length v => exact Action.walks_length v
  | index object key => exact Action.walks_index object key
  | assign object key v => exact Action.walks_assign object key v

variable [Instructs R]

theorem Routine.walks_run (x : Routine α) : x.run.Walks R := by
  induction x with
  | done a => exact .pure a
  | malformed m => exact .fail _
  | complain c => exact .fail _
  | give c go ih => exact .bind c.walks_run ih

namespace Engine

theorem instructs_fetched (e : Engine) : R e e.fetched :=
  Instructs.updateFrame (g := fun f => { f with pc := e.frame.pc + 1 }) (fun _ => rfl)
    (fun _ => rfl) e

/-- **An instruction walks by what commands may do.** -/
theorem walks_step_of_instructs (e : Engine) : e.step.Walks R e := by
  refine walks_step_of_effect (instructs_fetched e) fun op i _ => ?_
  rw [← op.run_routine i]
  exact (op.routine i).walks_run

end Engine

end LuaBytecode
