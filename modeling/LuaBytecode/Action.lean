import LuaBytecode.Engine

/-!
# Actions

Most of what the engine does may call functions on the way: an instruction whose operand has a
metamethod, a host function that calls back.  An `Action` is such a piece of work.  From a state
of the engine it makes `Progress`: it is done, it has failed, or it awaits the outcome of a
`Job` and says how it goes on then.  So an action itself never runs a script, and what happens
between two calls can be read off it.

* `Action.call` is the action that awaits a call.
* `Progress.settle` carries an action through, given a way to do the jobs.
-/

namespace LuaBytecode

/-- Work that runs scripts. -/
inductive Job where
  /-- Call a value. -/
  | call (f : Value) (args : List Value)
  /-- Load a chunk and run it. -/
  | chunk (p : Prototype)

/-- How far an action has come. -/
inductive Progress (α : Type) where
  | done (a : α) (e : Engine)
  | fault (f : Fault) (e : Engine)
  /-- The action goes on from the outcome of a job and the state that it leaves. -/
  | await (job : Job) (e : Engine) (go : Except Fault (List Value) → Engine → Progress α)

/-- What has come of work that runs scripts, unless it takes more steps than allowed. -/
inductive Outcome (α : Type) where
  | done (a : α) (e : Engine)
  | fault (f : Fault) (e : Engine)
  | outOfFuel

namespace Progress

variable {α β : Type}

/-- Go on from the end of an action, also from a fault. -/
def andFinally (f : Except Fault α → Engine → Progress β) : Progress α → Progress β
  | .done a e => f (.ok a) e
  | .fault x e => f (.error x) e
  | .await job e go => .await job e fun r e => (go r e).andFinally f

/-- Go on from the result of an action. -/
def andThen (p : Progress α) (f : α → Engine → Progress β) : Progress β :=
  p.andFinally fun
    | .ok a => f a
    | .error x => .fault x

/-- Change the fault that an action fails with. -/
def mapFault (g : Fault → Fault) (p : Progress α) : Progress α :=
  p.andFinally fun
    | .ok a => .done a
    | .error x => .fault (g x)

@[simp]
theorem andThen_done (a : α) (e : Engine) (f : α → Engine → Progress β) :
    (done a e).andThen f = f a e := rfl

@[simp]
theorem andThen_fault (x : Fault) (e : Engine) (f : α → Engine → Progress β) :
    (fault x e).andThen f = fault x e := rfl

theorem andFinally_andFinally {γ : Type} (p : Progress α)
    (f : Except Fault α → Engine → Progress β) (g : Except Fault β → Engine → Progress γ) :
    (p.andFinally f).andFinally g = p.andFinally fun r e => (f r e).andFinally g := by
  induction p with
  | done a e => rfl
  | fault x e => rfl
  | await job e go ih =>
    simp only [andFinally, await.injEq, true_and]
    funext r e
    exact ih r e

/-- Carry an action through. -/
def settle (perform : Job → Engine → Outcome (List Value)) : Progress α → Outcome α
  | .done a e => .done a e
  | .fault x e => .fault x e
  | .await job e go =>
    match perform job e with
    | .done vs e => (go (.ok vs) e).settle perform
    | .fault x e => (go (.error x) e).settle perform
    | .outOfFuel => .outOfFuel

/-- An action that ends with `p` ends in the same way with `q`, if the jobs do. -/
theorem settle_congr {p q : Job → Engine → Outcome (List Value)}
    (h : ∀ job e, p job e ≠ .outOfFuel → q job e = p job e) (x : Progress α)
    (hx : x.settle p ≠ .outOfFuel) : x.settle q = x.settle p := by
  induction x with
  | done a e => rfl
  | fault f e => rfl
  | await job e go ih =>
    have hp : p job e ≠ .outOfFuel := by
      intro hp
      exact hx (by simp only [settle, hp])
    simp only [settle, h job e hp] at hx ⊢
    cases hr : p job e with
    | done vs e' => exact ih _ _ (by simpa only [hr] using hx)
    | fault f e' => exact ih _ _ (by simpa only [hr] using hx)
    | outOfFuel => exact absurd hr hp

end Progress

/-- A piece of work of the engine. -/
def Action (α : Type) : Type := Engine → Progress α

namespace Action

instance : Monad Action where
  pure a := fun e => .done a e
  bind x f := fun e => (x e).andThen fun a => f a

@[simp]
theorem pure_apply {α : Type} (a : α) (e : Engine) : (pure a : Action α) e = .done a e := rfl

@[simp]
theorem bind_apply {α β : Type} (x : Action α) (f : α → Action β) (e : Engine) :
    (x >>= f) e = (x e).andThen fun a => f a := rfl

/-- Look at the state. -/
def read {α : Type} (f : Engine → α) : Action α := fun e => .done (f e) e

/-- Change the state. -/
def modify (f : Engine → Engine) : Action Unit := fun e => .done () (f e)

/-- Change the state and keep a value. -/
def update {α : Type} (f : Engine → α × Engine) : Action α := fun e =>
  let (a, e) := f e
  .done a e

/-- Fail. -/
def fail {α : Type} (f : Fault) : Action α := fun e => .fault f e

/-- Fail if there is no value. -/
def orFail {α : Type} (f : Fault) : Option α → Action α
  | some a => pure a
  | none => fail f

/-- Wait for the outcome of a job. -/
def await (job : Job) : Action (List Value) := fun e =>
  .await job e fun
    | .ok vs => .done vs
    | .error f => .fault f

/-- Call a value; its results. -/
def call (f : Value) (args : List Value) : Action (List Value) := await (.call f args)

/-- Call a value; its first result, or nil. -/
def callFirst (f : Value) (args : List Value) : Action Value := do
  return (← call f args).headD .nil

end Action

end LuaBytecode
