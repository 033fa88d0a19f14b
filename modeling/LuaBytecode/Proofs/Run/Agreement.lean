import LuaBytecode.Proofs.Run.Machine

/-!
# Machines end jobs as the engine does

A machine goes through a run in steps, `Engine.perform` and `Engine.execute` tell how it ends.
This file states that the two agree.

* `Machine.steps_begin_iff` : a machine ends a job with a result exactly if `Engine.perform` does,
  given enough fuel.
* `Machine.reachable_outcome` : what the embedding functions leave behind is reachable.

`Activity.finish` carries the work in hand to its end with a given amount of fuel.  That a machine
comes to the same end is by induction on the fuel.  For the way back, `Machine.finish` carries all
that waits to its end, too; a step of the machine spends at most one unit of fuel.
-/

namespace LuaBytecode

variable {α β : Type}

/-- The end of an action. -/
def Progress.of : Except Fault α → Engine → Progress α
  | .ok a, e => .done a e
  | .error f, e => .fault f e

/-- The end of work that runs scripts. -/
def Outcome.of : Except Fault α → Engine → Outcome α
  | .ok a, e => .done a e
  | .error f, e => .fault f e

namespace Outcome

@[simp]
theorem done_eq_of_iff {a : α} {e e' : Engine} {r : Except Fault α} :
    done a e = of r e' ↔ r = .ok a ∧ e' = e := by
  cases r <;> simp [of, eq_comm]

@[simp]
theorem fault_eq_of_iff {f : Fault} {e e' : Engine} {r : Except Fault α} :
    fault f e = of r e' ↔ r = .error f ∧ e' = e := by
  cases r <;> simp [of, eq_comm]

@[simp]
theorem outOfFuel_ne_of {e : Engine} {r : Except Fault α} : outOfFuel ≠ of r e := by
  cases r <;> simp [of]

end Outcome

namespace Progress

theorem settle_andFinally (perform : Job → Engine → Outcome (List Value)) (p : Progress α)
    (f : Except Fault α → Engine → Progress β) :
    (p.andFinally f).settle perform =
      match p.settle perform with
      | .done a e => (f (.ok a) e).settle perform
      | .fault x e => (f (.error x) e).settle perform
      | .outOfFuel => .outOfFuel := by
  induction p with
  | done a e => rfl
  | fault x e => rfl
  | await job e go ih =>
    simp only [andFinally, settle]
    cases perform job e with
    | done vs e => exact ih _ _
    | fault x e => exact ih _ _
    | outOfFuel => rfl

theorem settle_atEnd (perform : Job → Engine → Outcome (List Value)) (g : Engine → Engine)
    (p : Progress α) : (p.atEnd g).settle perform = (p.settle perform).mapEngine g := by
  rw [atEnd, settle_andFinally]
  cases p.settle perform <;> rfl

/-- To hand the end of an action on is to do nothing more. -/
theorem andFinally_of (p : Progress α) : p.andFinally .of = p := by
  induction p with
  | done a e => rfl
  | fault x e => rfl
  | await job e go ih =>
    simp only [andFinally, await.injEq, true_and]
    funext r e
    exact ih r e

end Progress

/-! ### Work in hand -/

/-- Go on from the end of an instruction. -/
def Engine.proceed (n : Nat) : Outcome Bool → Outcome Unit
  | .done true e => .done () e
  | .done false e => execute n e
  | .fault f e => .fault f e
  | .outOfFuel => .outOfFuel

/-- Carry the work in hand to its end. -/
def Activity.finish (n : Nat) : Activity → Outcome (List Value)
  | script base p => (Engine.proceed n (p.settle (Engine.perform n))).unwindTo base
  | host p => p.settle (Engine.perform n)
  | ended r e => .of r e

namespace Machine

/-- To perform a job is to begin it and to carry on. -/
theorem perform_succ (n : Nat) (job : Job) (e : Engine) :
    Engine.perform (n + 1) job e = (e.begin job).finish n := by
  match job with
  | .chunk p => rfl
  | .call f args =>
    rw [Engine.perform, Engine.begin]
    cases e.callee f args with
    | error c => rfl
    | ok g =>
      obtain ⟨g, args'⟩ := g
      by_cases hf : e.isFull
      · simp only [hf, if_true]
        rfl
      · simp only [hf]
        cases g with
        | closure c => rfl
        | native name body => exact (Progress.settle_atEnd _ _ _).symm

theorem execute_succ (n : Nat) (e : Engine) :
    Engine.execute (n + 1) e = Engine.proceed n (e.step.settle (Engine.perform n)) := by
  rw [Engine.execute]
  cases e.step.settle (Engine.perform n) with
  | done returns e₁ => cases returns <;> rfl
  | fault x e₁ => rfl
  | outOfFuel => rfl

/-! ### From outcomes to steps -/

theorem Steps.of_step {m m' : Machine} (h : m.step = some m') : m.Steps m' := .single h

/-- A machine carries an action through like `Progress.settle`, if it ends jobs as `perform` does.
The two kinds of actions are put aside and resumed in the same way. -/
theorem steps_settle {perform : Job → Engine → Outcome (List Value)}
    (hperform : ∀ job e r e' w, perform job e = .of r e' →
      Steps ⟨e.begin job, w⟩ ⟨.ended r e', w⟩)
    (inHand : Progress α → Activity)
    (aside : (Except Fault (List Value) → Engine → Progress α) → Waiting)
    (hawait : ∀ job e go w,
      step ⟨inHand (.await job e go), w⟩ = some ⟨e.begin job, aside go :: w⟩)
    (hresume : ∀ r e go w, step ⟨.ended r e, aside go :: w⟩ = some ⟨inHand (go r e), w⟩)
    (p : Progress α) {r : Except Fault α} {e' : Engine} (h : p.settle perform = .of r e')
    (w : List Waiting) : Steps ⟨inHand p, w⟩ ⟨inHand (.of r e'), w⟩ := by
  induction p with
  | done a e =>
    obtain ⟨rfl, rfl⟩ := Outcome.done_eq_of_iff.1 h
    exact .refl
  | fault x e =>
    obtain ⟨rfl, rfl⟩ := Outcome.fault_eq_of_iff.1 h
    exact .refl
  | await job e go ih =>
    have resumed {s : Except Fault (List Value)} {e₁ : Engine} (hs : perform job e = .of s e₁)
        (hgo : (go s e₁).settle perform = .of r e') :
        Steps ⟨inHand (.await job e go), w⟩ ⟨inHand (.of r e'), w⟩ :=
      (Steps.of_step (hawait job e go w)).trans <|
        (hperform job e s e₁ _ hs).trans <|
          (Steps.of_step (hresume s e₁ go w)).trans (ih s e₁ hgo)
    rw [Progress.settle] at h
    cases hs : perform job e with
    | done vs e₁ => exact resumed (s := .ok vs) hs (by rwa [hs] at h)
    | fault x e₁ => exact resumed (s := .error x) hs (by rwa [hs] at h)
    | outOfFuel =>
      rw [hs] at h
      exact absurd h Outcome.outOfFuel_ne_of

/-- A script that goes on to its end is left there. -/
theorem steps_proceed {n base : Nat}
    (hexecute : ∀ e r e' w, (Engine.execute n e).unwindTo base = .of r e' →
      Steps ⟨.script base (.done false e), w⟩ ⟨.ended r e', w⟩)
    {s : Except Fault Bool} {e e' : Engine} {r : Except Fault (List Value)} {w : List Waiting}
    (h : (Engine.proceed n (.of s e)).unwindTo base = .of r e') :
    Steps ⟨.script base (.of s e), w⟩ ⟨.ended r e', w⟩ := by
  cases s with
  | error x =>
    obtain ⟨rfl, rfl⟩ := Outcome.fault_eq_of_iff.1 h
    exact Steps.of_step rfl
  | ok returns =>
    cases returns with
    | false => exact hexecute e r e' w h
    | true =>
      obtain ⟨rfl, rfl⟩ := Outcome.done_eq_of_iff.1 h
      exact Steps.of_step rfl

theorem steps_finish_of {n : Nat}
    (hperform : ∀ job e r e' w, Engine.perform n job e = .of r e' →
      Steps ⟨e.begin job, w⟩ ⟨.ended r e', w⟩)
    (hexecute : ∀ base e r e' w, (Engine.execute n e).unwindTo base = .of r e' →
      Steps ⟨.script base (.done false e), w⟩ ⟨.ended r e', w⟩)
    (a : Activity) {r : Except Fault (List Value)} {e' : Engine} (h : a.finish n = .of r e')
    (w : List Waiting) : Steps ⟨a, w⟩ ⟨.ended r e', w⟩ := by
  cases a with
  | ended r₁ e₁ =>
    cases r₁ with
    | ok vs =>
      obtain ⟨rfl, rfl⟩ := Outcome.done_eq_of_iff.1 h
      exact .refl
    | error x =>
      obtain ⟨rfl, rfl⟩ := Outcome.fault_eq_of_iff.1 h
      exact .refl
  | host p =>
    refine (steps_settle hperform .host .host (fun _ _ _ _ => rfl) (fun _ _ _ _ => rfl) p h w).trans
      (Steps.of_step ?_)
    cases r <;> rfl
  | script base p =>
    rw [Activity.finish] at h
    have settled {s : Except Fault Bool} {e₁ : Engine}
        (hs : p.settle (Engine.perform n) = .of s e₁) :
        Steps ⟨.script base p, w⟩ ⟨.ended r e', w⟩ := by
      rw [hs] at h
      exact (steps_settle hperform (.script base) (.script base) (fun _ _ _ _ => rfl)
        (fun _ _ _ _ => rfl) p hs w).trans (steps_proceed (hexecute base) h)
    cases hs : p.settle (Engine.perform n) with
    | done returns e₁ => exact settled (s := .ok returns) hs
    | fault x e₁ => exact settled (s := .error x) hs
    | outOfFuel =>
      rw [hs] at h
      exact absurd h Outcome.outOfFuel_ne_of

/-- What the engine carries to its end, the machine does. -/
theorem steps_finish (n : Nat) (a : Activity) {r : Except Fault (List Value)} {e' : Engine}
    (h : a.finish n = .of r e') (w : List Waiting) : Steps ⟨a, w⟩ ⟨.ended r e', w⟩ := by
  induction n generalizing a r e' w with
  | zero =>
    refine steps_finish_of (n := 0) (fun job e r e' w h => ?_) (fun base e r e' w h => ?_) a h w
    · exact absurd h Outcome.outOfFuel_ne_of
    · exact absurd h Outcome.outOfFuel_ne_of
  | succ n ih =>
    -- a unit of fuel pays for the beginning of a job or for an instruction
    refine steps_finish_of (fun job e r e' w h => ?_) (fun base e r e' w h => ?_) a h w
    · rw [perform_succ] at h
      exact ih (e.begin job) h w
    · rw [execute_succ] at h
      exact (Steps.of_step rfl).trans (ih (.script base e.step) h w)

theorem steps_perform {n : Nat} {job : Job} {e e' : Engine} {r : Except Fault (List Value)}
    (h : Engine.perform n job e = .of r e') (w : List Waiting) :
    Steps ⟨e.begin job, w⟩ ⟨.ended r e', w⟩ := by
  cases n with
  | zero => exact absurd h Outcome.outOfFuel_ne_of
  | succ n => exact steps_finish n _ ((perform_succ n job e).symm.trans h) w

end Machine

/-! ### Work that waits -/

/-- Resume work that has waited for a job. -/
def Waiting.resume (r : Except Fault (List Value)) (e : Engine) : Waiting → Activity
  | script base go => .script base (go r e)
  | host go => .host (go r e)

namespace Machine

/-- Carry the work that waits to its end, too. -/
def finishAll (n : Nat) : List Waiting → Outcome (List Value) → Outcome (List Value)
  | [], o => o
  | x :: w, .done vs e => finishAll n w ((x.resume (.ok vs) e).finish n)
  | x :: w, .fault f e => finishAll n w ((x.resume (.error f) e).finish n)
  | _ :: _, .outOfFuel => .outOfFuel

/-- Carry all the work of a machine to its end. -/
def finish (n : Nat) (m : Machine) : Outcome (List Value) :=
  finishAll n m.waiting (m.activity.finish n)

theorem finishAll_outOfFuel (n : Nat) (w : List Waiting) :
    finishAll n w .outOfFuel = .outOfFuel := by
  cases w <;> rfl

theorem finishAll_of (n : Nat) (x : Waiting) (w : List Waiting) (r : Except Fault (List Value))
    (e : Engine) : finishAll n (x :: w) (.of r e) = finishAll n w ((x.resume r e).finish n) := by
  cases r <;> rfl

/-! One more unit of fuel changes no outcome. -/

theorem proceed_succ {n : Nat} {o : Outcome Bool} (h : Engine.proceed n o ≠ .outOfFuel) :
    Engine.proceed (n + 1) o = Engine.proceed n o := by
  match o with
  | .done true e => rfl
  | .done false e => exact Engine.execute_of_le (Nat.le_succ n) h
  | .fault f e => rfl
  | .outOfFuel => rfl

theorem finish_activity_succ {n : Nat} {a : Activity} (h : a.finish n ≠ .outOfFuel) :
    a.finish (n + 1) = a.finish n := by
  have settle_succ {α : Type} {p : Progress α} (hp : p.settle (Engine.perform n) ≠ .outOfFuel) :
      p.settle (Engine.perform (n + 1)) = p.settle (Engine.perform n) :=
    Progress.settle_congr (fun _ _ => Engine.perform_of_le (Nat.le_succ n)) p hp
  match a with
  | .ended r e => rfl
  | .host p => exact settle_succ h
  | .script base p =>
    simp only [Activity.finish] at h ⊢
    have hp : Engine.proceed n (p.settle (Engine.perform n)) ≠ .outOfFuel := by
      intro hp
      exact h (by rw [hp]; rfl)
    rw [settle_succ, proceed_succ hp]
    intro hs
    exact hp (by rw [hs]; rfl)

theorem finishAll_succ {n : Nat} {w : List Waiting} {o : Outcome (List Value)}
    (h : finishAll n w o ≠ .outOfFuel) : finishAll (n + 1) w o = finishAll n w o := by
  induction w generalizing o with
  | nil => rfl
  | cons x w ih =>
    have resumed {r : Except Fault (List Value)} {e : Engine}
        (h : finishAll n w ((x.resume r e).finish n) ≠ .outOfFuel) :
        finishAll (n + 1) w ((x.resume r e).finish (n + 1)) =
          finishAll n w ((x.resume r e).finish n) := by
      rw [finish_activity_succ, ih h]
      intro hx
      exact h (by rw [hx, finishAll_outOfFuel])
    match o with
    | .done vs e => exact resumed h
    | .fault f e => exact resumed h
    | .outOfFuel => rfl

/-- If what a machine does next is to end in some way, so is what it does now. -/
theorem finish_of_activity {n : Nat} {a a' : Activity} {w : List Waiting}
    (ha : a'.finish n ≠ .outOfFuel → a.finish (n + 1) = a'.finish n)
    (h : finish n ⟨a', w⟩ ≠ .outOfFuel) : finish (n + 1) ⟨a, w⟩ = finish n ⟨a', w⟩ := by
  have hne : a'.finish n ≠ .outOfFuel := by
    intro ha'
    exact h (by rw [finish, ha', finishAll_outOfFuel])
  rw [finish, ha hne]
  exact finishAll_succ h

/-- Work that awaits a job is carried on when the job has ended. -/
theorem finish_of_await {n : Nat} {job : Job} {e : Engine} {a : Activity} {x : Waiting}
    {w : List Waiting}
    (ha : ∀ r e', Engine.perform (n + 1) job e = .of r e' →
      a.finish (n + 1) = (x.resume r e').finish (n + 1))
    (h : finish n ⟨e.begin job, x :: w⟩ ≠ .outOfFuel) :
    finish (n + 1) ⟨a, w⟩ = finish n ⟨e.begin job, x :: w⟩ := by
  have ended {r : Except Fault (List Value)} {e' : Engine}
      (hj : Engine.perform (n + 1) job e = .of r e') :
      finish (n + 1) ⟨a, w⟩ = finish n ⟨e.begin job, x :: w⟩ := by
    have heq : finish n ⟨e.begin job, x :: w⟩ = finish n ⟨x.resume r e', w⟩ := by
      rw [finish, ← perform_succ, hj, finishAll_of]
      rfl
    rw [heq] at h ⊢
    exact finish_of_activity (fun hr => by rw [ha r e' hj, finish_activity_succ hr]) h
  cases hj : Engine.perform (n + 1) job e with
  | done vs e' => exact ended (r := .ok vs) hj
  | fault f e' => exact ended (r := .error f) hj
  | outOfFuel =>
    refine absurd ?_ h
    rw [finish, ← perform_succ, hj]
    rfl

theorem finish_of_step {n : Nat} {m m' : Machine} (hstep : m.step = some m')
    (h : m'.finish n ≠ .outOfFuel) : m.finish (n + 1) = m'.finish n := by
  match m with
  | ⟨.script base (.done false e), w⟩ =>
    obtain rfl := Option.some.inj hstep
    refine finish_of_activity (fun _ => ?_) h
    exact congrArg (·.unwindTo base) (execute_succ n e)
  | ⟨.script base (.done true e), w⟩ | ⟨.script base (.fault f e), w⟩ | ⟨.host (.done vs e), w⟩
  | ⟨.host (.fault f e), w⟩ =>
    obtain rfl := Option.some.inj hstep
    exact finish_of_activity (fun _ => rfl) h
  | ⟨.script base (.await job e go), w⟩ =>
    obtain rfl := Option.some.inj hstep
    refine finish_of_await (fun r e' hj => ?_) h
    simp only [Activity.finish, Progress.settle, hj]
    cases r <;> rfl
  | ⟨.host (.await job e go), w⟩ =>
    obtain rfl := Option.some.inj hstep
    refine finish_of_await (fun r e' hj => ?_) h
    simp only [Activity.finish, Progress.settle, hj]
    cases r <;> rfl
  | ⟨.ended r e, x :: w⟩ =>
    -- work that is resumed was part of what is finished already
    have hm' : m' = ⟨x.resume r e, w⟩ := by
      cases x <;> exact (Option.some.inj hstep).symm
    obtain rfl := hm'
    have heq : finish (n + 1) ⟨.ended r e, x :: w⟩ = finish (n + 1) ⟨x.resume r e, w⟩ :=
      finishAll_of _ x w r e
    rw [heq]
    exact finish_of_activity finish_activity_succ h

theorem exists_finish_of_steps {m : Machine} {r : Except Fault (List Value)} {e : Engine}
    (h : m.Steps { activity := .ended r e }) : ∃ n, m.finish n = .of r e := by
  induction h using Relation.ReflTransGen.head_induction_on with
  | refl => exact ⟨0, rfl⟩
  | head hstep _ ih =>
    obtain ⟨n, hn⟩ := ih
    refine ⟨n + 1, (finish_of_step hstep ?_).trans hn⟩
    rw [hn]
    exact Ne.symm Outcome.outOfFuel_ne_of

/-- **A machine ends a job as the engine does**, given enough fuel. -/
theorem steps_begin_iff {job : Job} {e e' : Engine} {r : Except Fault (List Value)} :
    Steps { activity := e.begin job } { activity := .ended r e' } ↔
      ∃ n, Engine.perform n job e = .of r e' := by
  refine ⟨fun h => ?_, fun ⟨n, h⟩ => steps_perform h []⟩
  obtain ⟨n, hn⟩ := exists_finish_of_steps h
  exact ⟨n + 1, (perform_succ n job e).trans hn⟩

end Machine

/-! ### Operations of the embedding program -/

/-- What comes of an operation. -/
def Operation.outcome (e : Engine) : Operation → Outcome (List Value)
  | load p => .done [] (e.load p)
  | run => e.run
  | register name body => .done [] (e.register name body)
  | setGlobal name v => .done [] (e.setGlobal name v)
  | newTable => .done [.table e.newTable.1] e.newTable.2
  | serve h => e.carry h.act

/-- A host function that only asks is the answer. -/
theorem Host.act_ask (r : Request) : (Script.ask r).run.act = Action.answer r := by
  funext e
  refine Eq.trans (congrArg (Action.answer r e).andFinally ?_) (Progress.andFinally_of _)
  funext x e'
  cases x <;> rfl

/-- To call a value is to serve a host function that calls it. -/
theorem Engine.call_eq_outcome (f : Value) (args : List Value) (e : Engine) :
    Engine.call f args e = (Operation.serve (Script.ask (.call f args)).run).outcome e := by
  rw [Operation.outcome, Host.act_ask]
  rfl

theorem Engine.callGlobal_eq_outcome (name : String) (args : List Value) (e : Engine) :
    Engine.callGlobal name args e =
      (Operation.serve (Script.ask (.callGlobal name args)).run).outcome e := by
  rw [Operation.outcome, Host.act_ask]
  rfl

theorem Engine.index_eq_outcome (object key : Value) (e : Engine) :
    (Operation.serve (Script.ask (.index object key)).run).outcome e =
      match Engine.index object key e with
      | .done v e => .done [v] e
      | .fault f e => .fault f e
      | .outOfFuel => .outOfFuel := by
  rw [Operation.outcome, Host.act_ask]
  refine (Progress.settle_andFinally _ (Action.index object key e) _).trans ?_
  rw [Engine.index, carry]
  cases (Action.index object key e).settle (perform fuel) <;> rfl

namespace Operation

/-- Started in `e`, the operation ends with `r` in `e'`. -/
def Ends (o : Operation) (e : Engine) (r : Except Fault (List Value)) (e' : Engine) : Prop :=
  (o.start e).Steps { activity := .ended r e' }

theorem ends_of_outcome {o : Operation} {e e' : Engine} {r : Except Fault (List Value)}
    (h : o.outcome e = .of r e') : o.Ends e r e' := by
  match o with
  | .load p | .register name body | .setGlobal name v | .newTable =>
    obtain ⟨rfl, rfl⟩ := Outcome.done_eq_of_iff.1 h
    exact .refl
  | .run =>
    rw [outcome, Engine.run] at h
    rw [Ends, start]
    split at h
    · rename_i hzero
      obtain ⟨rfl, rfl⟩ := Outcome.fault_eq_of_iff.1 h
      rw [if_pos hzero]
      exact .refl
    · rename_i hzero
      rw [if_neg hzero]
      exact Machine.steps_finish Engine.fuel (.script (e.depth - 1) (.done false e)) h []
  | .serve h' => exact Machine.steps_finish Engine.fuel (.host (h'.act e)) h []

theorem ends_of_call {f : Value} {args : List Value} {e e' : Engine}
    {r : Except Fault (List Value)} (h : Engine.call f args e = .of r e') :
    (serve (Script.ask (.call f args)).run).Ends e r e' :=
  ends_of_outcome ((Engine.call_eq_outcome f args e).symm.trans h)

theorem ends_of_callGlobal {name : String} {args : List Value} {e e' : Engine}
    {r : Except Fault (List Value)} (h : Engine.callGlobal name args e = .of r e') :
    (serve (Script.ask (.callGlobal name args)).run).Ends e r e' :=
  ends_of_outcome ((Engine.callGlobal_eq_outcome name args e).symm.trans h)

/-- The answer of an index is a single value. -/
theorem ends_of_index {object key : Value} {e e' : Engine} {r : Except Fault Value}
    (h : Engine.index object key e = .of r e') :
    (serve (Script.ask (.index object key)).run).Ends e (r.map ([·])) e' := by
  refine ends_of_outcome ((Engine.index_eq_outcome object key e).trans ?_)
  rw [h]
  cases r <;> rfl

end Operation

namespace Machine

theorem Steps.run {m m' : Machine} (h : m.Steps m') : Relation.ReflTransGen Next m m' :=
  Relation.ReflTransGen.mono (fun _ _ => Next.step) _ _ h

/-- **An operation leaves a reachable state behind.** -/
theorem Reachable.ends {config : Config} {r r' : Except Fault (List Value)} {e e' : Engine}
    {o : Operation} (h : Reachable config { activity := .ended r e }) (ho : o.Ends e r' e') :
    Reachable config { activity := .ended r' e' } :=
  (h.tail (.operation r e o)).trans ho.run

/-- What the embedding functions leave behind is reachable. -/
theorem reachable_outcome {config : Config} {r r' : Except Fault (List Value)} {e e' : Engine}
    (h : Reachable config { activity := .ended r e }) (o : Operation)
    (ho : o.outcome e = .of r' e') : Reachable config { activity := .ended r' e' } :=
  h.ends (Operation.ends_of_outcome ho)

end Machine

end LuaBytecode
