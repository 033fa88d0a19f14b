import LuaBytecode.Execution
import LuaBytecode.Service

/-!
# Running scripts

Doing jobs and executing code call each other: an instruction may await a call, and a call
executes code.  Both take an amount of fuel, which bounds the steps; running out of it is apart
from every outcome that a script can have.

* `Engine.perform` does a job.  A call that would nest deeper than the configuration allows
  fails before it starts; and whatever comes of a job, the frames that it pushed are left again.
* `Engine.execute` executes the running function until it returns.
* More fuel never changes an outcome: `Engine.perform_of_le`, `Engine.execute_of_le`.
-/

namespace LuaBytecode

namespace Engine

/-- The function at an address. -/
def functionAt (e : Engine) (r : FunctionRef) : Except Cause Function :=
  match e.heap.function? r with
  | some f => .ok f
  | none => .error (.operand "call" "function")

/-- The function that a call of a value reaches, and its arguments: a value that is no function
may have one as metamethod, which gets the value in front. -/
def callee (e : Engine) (f : Value) (args : List Value) : Except Cause (Function × List Value) :=
  match f with
  | .function r => (e.functionAt r).map (·, args)
  | v =>
    match e.metamethod v "__call" with
    | .function r => (e.functionAt r).map (·, v :: args)
    | _ => .error (.operand "call" v.typeName)

/-- No further call may start. -/
def isFull (e : Engine) : Bool := decide (e.config.maxCallDepth ≤ e.depth + e.nativeDepth)

def enterNative (e : Engine) : Engine := { e with nativeDepth := e.nativeDepth + 1 }

def leaveNative (e : Engine) : Engine := { e with nativeDepth := e.nativeDepth - 1 }

end Engine

namespace Outcome

/-- Change the state. -/
def mapEngine {α : Type} (g : Engine → Engine) : Outcome α → Outcome α
  | .done a e => .done a (g e)
  | .fault f e => .fault f (g e)
  | .outOfFuel => .outOfFuel

/-- Leave functions until `depth` frames remain; the results of the last one left. -/
def unwindTo (depth : Nat) : Outcome Unit → Outcome (List Value)
  | .done _ e =>
    let (vs, e) := e.unwindTo depth
    .done vs e
  | .fault f e => .fault f (e.unwindTo depth).2
  | .outOfFuel => .outOfFuel

end Outcome

namespace Engine

mutual

/-- Do a job. -/
def perform : Nat → Job → Engine → Outcome (List Value)
  | 0, _, _ => .outOfFuel
  | n + 1, .call f args, e =>
    match e.callee f args with
    | .error c => .fault c e
    | .ok (f, args) =>
      if e.isFull then .fault (.ofCause .stackOverflow) e
      else
        match f with
        | .native _ body =>
          (((body args).act e.enterNative).settle (perform n)).mapEngine leaveNative
        | .closure c => (execute n (e.push c args)).unwindTo e.depth
  | n + 1, .chunk p, e => (execute n (e.load p)).unwindTo e.depth

/-- Execute the running function until it returns. -/
def execute : Nat → Engine → Outcome Unit
  | 0, _ => .outOfFuel
  | n + 1, e =>
    match e.step.settle (perform n) with
    | .done true e => .done () e
    | .done false e => execute n e
    | .fault f e => .fault f e
    | .outOfFuel => .outOfFuel

end

/-! ### Fuel -/

theorem perform_execute_succ (n : Nat) :
    (∀ job e, perform n job e ≠ .outOfFuel → perform (n + 1) job e = perform n job e) ∧
    (∀ e, execute n e ≠ .outOfFuel → execute (n + 1) e = execute n e) := by
  induction n with
  | zero => exact ⟨fun _ _ h => absurd rfl h, fun _ h => absurd rfl h⟩
  | succ n ih =>
    obtain ⟨ihp, ihe⟩ := ih
    have unwound {e : Engine} {depth : Nat} (h : (execute n e).unwindTo depth ≠ .outOfFuel) :
        (execute (n + 1) e).unwindTo depth = (execute n e).unwindTo depth := by
      rw [ihe e]
      intro he
      exact h (by rw [he]; rfl)
    refine ⟨fun job e h => ?_, fun e h => ?_⟩
    · match job with
      | .chunk p =>
        rw [perform] at h ⊢
        rw [perform]
        exact unwound h
      | .call f args =>
        rw [perform] at h ⊢
        rw [perform]
        cases hc : e.callee f args with
        | error c => rfl
        | ok r =>
          obtain ⟨g, args'⟩ := r
          simp only [hc] at h ⊢
          by_cases hf : e.isFull
          · simp only [hf, if_true]
          · simp only [hf] at h ⊢
            cases g with
            | closure c => exact unwound h
            | native name body =>
              simp only at h ⊢
              rw [Progress.settle_congr ihp]
              intro hs
              exact h (by simp [hs, Outcome.mapEngine])
    · rw [execute] at h ⊢
      rw [execute]
      have hs : e.step.settle (perform n) ≠ .outOfFuel := by
        intro hs
        exact h (by simp only [hs])
      rw [Progress.settle_congr ihp _ hs]
      cases hr : e.step.settle (perform n) with
      | done returns e' =>
        cases returns with
        | true => rfl
        | false =>
          simp only [hr] at h ⊢
          exact ihe e' h
      | fault f e' => rfl
      | outOfFuel => exact absurd hr hs

/-- More fuel does not change how a job ends. -/
theorem perform_of_le {n m : Nat} (hnm : n ≤ m) {job : Job} {e : Engine}
    (h : perform n job e ≠ .outOfFuel) : perform m job e = perform n job e := by
  induction hnm with
  | refl => rfl
  | step _ ih => rw [(perform_execute_succ _).1 job e (by rwa [ih]), ih]

/-- More fuel does not change how a function ends. -/
theorem execute_of_le {n m : Nat} (hnm : n ≤ m) {e : Engine} (h : execute n e ≠ .outOfFuel) :
    execute m e = execute n e := by
  induction hnm with
  | refl => rfl
  | step _ ih => rw [(perform_execute_succ _).2 e (by rwa [ih]), ih]

end Engine

end LuaBytecode
