import LuaBytecode.Proofs.Fault.Trail
import LuaBytecode.Proofs.Run.Isolation

/-!
# Protected calls

`pcall` calls a function and reports how the call has ended.  A value that is raised in the call
passes functions, which would locate another fault, metamethods, and host functions that do not
look at it, and reaches the protected call as it is.

* `Engine.reported` : what a protected call returns.
* `Engine.perform_pcall` : a protected call ends as its function does.
* `Machine.Steps.unwind` : **a raised value passes all work that relays it.**
* `Machine.pcall_of_reachable` : protected calls never fail, return raised values unchanged, and
  leave the stack as it was.
-/

namespace LuaBytecode

variable {e : Engine} {f g : Value} {args args' : List Value} {v : Value} {x : Fault}

/-! ### What a protected call does -/

namespace Engine

/-- A call of the value starts a function of the base library, with the given arguments. -/
structure Enters (e : Engine) (f : Value) (args : List Value) (body : BaseLibrary.Body)
    (args' : List Value) : Prop where
  callee_eq : ∃ name, e.callee f args = .ok (.native name fun args => (body args).run, args')
  not_full : e.isFull = false

theorem Enters.begin_eq {body : BaseLibrary.Body} (h : e.Enters f args body args') :
    e.begin (.call f args) =
      .host (((body args').run.act e.enterNative).atEnd leaveNative) := by
  obtain ⟨⟨name, hcallee⟩, hfull⟩ := h
  rw [begin, hcallee]
  simp only [hfull, Bool.false_eq_true, if_false]

/-- The results of a protected call. -/
def reported : Except Fault (List Value) → List Value
  | .ok vs => .bool true :: vs
  | .error x => [.bool false, x.toValue]

/-- A protected call awaits the call of its function, and then reports. -/
theorem Enters.begin_pcall (h : e.Enters f args BaseLibrary.pcall (g :: args')) :
    e.begin (.call f args) = .host (.await (.call g args') e.enterNative fun r e =>
      .done (reported r) e.leaveNative) := by
  rw [h.begin_eq]
  refine congrArg (fun go => Activity.host (.await (.call g args') e.enterNative go)) ?_
  funext r e'
  cases r <;> rfl

/-- A protected call ends as its function does. -/
theorem perform_pcall (h : e.Enters f args BaseLibrary.pcall (g :: args')) (n : Nat) :
    perform (n + 1) (.call f args) e =
      match perform n (.call g args') e.enterNative with
      | .done vs e => .done (reported (.ok vs)) e.leaveNative
      | .fault x e => .done (reported (.error x)) e.leaveNative
      | .outOfFuel => .outOfFuel := by
  rw [Machine.perform_succ, h.begin_pcall, Activity.finish, Progress.settle]
  cases perform n (.call g args') e.enterNative <;> rfl

/-- A protected call ends exactly when its function does, and never fails. -/
theorem perform_pcall_iff (h : e.Enters f args BaseLibrary.pcall (g :: args'))
    {r : Except Fault (List Value)} {e' : Engine} :
    (∃ n, perform n (.call f args) e = .of r e') ↔
      ∃ s e₁, (∃ n, perform n (.call g args') e.enterNative = .of s e₁) ∧
        r = .ok (reported s) ∧ e' = e₁.leaveNative := by
  constructor
  · rintro ⟨n, hn⟩
    cases n with
    | zero => exact absurd hn Outcome.outOfFuel_ne_of
    | succ n =>
      rw [perform_pcall h] at hn
      cases hs : perform n (.call g args') e.enterNative with
      | done vs e₁ =>
        rw [hs] at hn
        exact ⟨.ok vs, e₁, ⟨n, hs⟩, Outcome.done_eq_of_iff.1 hn⟩
      | fault x e₁ =>
        rw [hs] at hn
        exact ⟨.error x, e₁, ⟨n, hs⟩, Outcome.done_eq_of_iff.1 hn⟩
      | outOfFuel =>
        rw [hs] at hn
        exact absurd hn Outcome.outOfFuel_ne_of
  · rintro ⟨s, e₁, ⟨n, hn⟩, rfl, rfl⟩
    refine ⟨n + 1, ?_⟩
    rw [perform_pcall h, hn]
    cases s <;> rfl

/-! ### Raised values -/

/-- A call that raises a value: of the function that raises its argument, or of the one that raises
its second argument if the first one does not hold. -/
inductive Raises (e : Engine) (v : Value) : Job → Prop where
  | error {f : Value} {args args' : List Value} (h : e.Enters f args BaseLibrary.error args')
    (hv : BaseLibrary.arg args' 1 = v) : Raises e v (.call f args)
  | assert {f : Value} {args args' : List Value} (h : e.Enters f args BaseLibrary.assert args')
    (hfalse : (BaseLibrary.arg args' 1).isTruthy = false) (hv : args'[1]? = some v) :
    Raises e v (.call f args)

theorem run_assert (hfalse : (BaseLibrary.arg args 1).isTruthy = false) (hv : args[1]? = some v) :
    (BaseLibrary.assert args).run = .fail (.ofCause (.raised v)) := by
  obtain ⟨v₀, rest, rfl⟩ : ∃ v₀ rest, args = v₀ :: v :: rest := by
    match args, hv with
    | v₀ :: _ :: rest, rfl => exact ⟨v₀, rest, rfl⟩
  rw [BaseLibrary.assert, hfalse]
  rfl

/-- The value is raised at once. -/
theorem Raises.begin_eq {job : Job} (h : e.Raises v job) :
    e.begin job = .host (.fault (.ofCause (.raised v)) e) := by
  cases h with
  | error h hv =>
    rw [h.begin_eq, ← hv]
    rfl
  | assert h hfalse hv =>
    rw [h.begin_eq, run_assert hfalse hv]
    rfl

end Engine

/-- The fault passes work that waits for a job. -/
def Waiting.Relays (x : Fault) : Waiting → Prop
  | script _ go => ∀ e, ∃ e', go (.error x) e = .fault x e'
  | host go => ∀ e, ∃ e', go (.error x) e = .fault x e'

/-- A host function that only asks relays all faults of its requests. -/
theorem Progress.Relays.waiting {job : Job} {e : Engine}
    {go : Except Fault (List Value) → Engine → Progress (List Value)}
    (h : (Progress.await job e go).Relays) (x : Fault) : (Waiting.host go).Relays x := h.1 x

namespace Machine

/-- **A fault passes all work that relays it.** -/
theorem Steps.unwind {w : List Waiting} (h : ∀ y ∈ w, y.Relays x) (e : Engine) :
    ∃ e', Steps ⟨.ended (.error x) e, w⟩ { activity := .ended (.error x) e' } := by
  induction w generalizing e with
  | nil => exact ⟨e, .refl⟩
  | cons y w ih =>
    obtain ⟨hy, hw⟩ := List.forall_mem_cons.1 h
    cases y with
    | script base go =>
      obtain ⟨e₁, hgo⟩ := hy e
      obtain ⟨e', hsteps⟩ := ih hw (e₁.unwindTo base).2
      refine ⟨e', (Steps.of_step rfl).trans ?_⟩
      rw [hgo]
      exact (Steps.of_step rfl).trans hsteps
    | host go =>
      obtain ⟨e₁, hgo⟩ := hy e
      obtain ⟨e', hsteps⟩ := ih hw e₁
      refine ⟨e', (Steps.of_step rfl).trans ?_⟩
      rw [hgo]
      exact (Steps.of_step rfl).trans hsteps

/-- Instructions relay raised values. -/
theorem Tracked.relays {pcs : Positions} {m : Machine} (h : m.Tracked pcs) (v : Value) {base : Nat}
    {go : Except Fault (List Value) → Engine → Progress Bool}
    (hmem : .script base go ∈ m.waiting) :
    (Waiting.script base go).Relays (.ofCause (.raised v)) := by
  obtain ⟨f, g, -, ⟨pc, -, rfl⟩, herror, -⟩ := h.waiting _ hmem
  exact fun e => ⟨e, herror _ e⟩

/-- A value that is raised in a call comes out of it, if the host functions on its way relay it. -/
theorem exists_steps_of_raises {e₁ : Engine} {j job : Job} {w : List Waiting} (hl : e.Linked)
    (hsteps : Steps { activity := e.begin j } ⟨e₁.begin job, w⟩) (hraises : e₁.Raises v job)
    (hw : ∀ go, .host go ∈ w → (Waiting.host go).Relays (.ofCause (.raised v))) :
    ∃ e', Steps { activity := e.begin j }
      { activity := .ended (.error (.ofCause (.raised v))) e' } := by
  obtain ⟨pcs, htrail⟩ := hsteps.exists_trail
  have htracked := htrail.tracked (regular_begin hl j) ⟨rfl, exists_of_begin_eq_script⟩
  have hrelays : ∀ y ∈ w, y.Relays (.ofCause (.raised v)) := by
    intro y hy
    cases y with
    | script base go => exact htracked.relays v hy
    | host go => exact hw go hy
  obtain ⟨e', hunwind⟩ := Steps.unwind hrelays e₁
  refine ⟨e', hsteps.trans ?_⟩
  rw [hraises.begin_eq]
  exact (Steps.of_step rfl).trans hunwind

/-- **Raised values reach the nearest protected call unchanged.**  In any state of a run, a
protected call that has started ends exactly if the call of its function does, and it never fails.
It returns true and the results; or false and the message of the fault, with its place if it has
one; or false and the value that was raised.  This is the very value that the function for errors,
or for assertions, was called with, however many functions, metamethods and host functions were in
between, as long as the host functions relay faults.  After all of this the stack is as deep as
before, no further host function is running, and every frame is as it was, the running one with its
place in the code; only captured registers may have been assigned to. -/
theorem pcall_of_reachable {config : Config} {m : Machine} (h : Reachable config m)
    (hpcall : m.engine.Enters f args BaseLibrary.pcall (g :: args')) :
    (∀ r e', (∃ n, Engine.perform n (.call f args) m.engine = .of r e') ↔
      ∃ s e₁, (∃ n, Engine.perform n (.call g args') m.engine.enterNative = .of s e₁) ∧
        r = .ok (Engine.reported s) ∧ e' = e₁.leaveNative) ∧
    (∀ x, x.cause.isRaised = false →
      Engine.reported (.error x) = [.bool false, .string x.message]) ∧
    (∀ v (e₁ : Engine) job w,
      Steps { activity := m.engine.enterNative.begin (.call g args') } ⟨e₁.begin job, w⟩ →
      e₁.Raises v job →
      (∀ go, .host go ∈ w → (Waiting.host go).Relays (.ofCause (.raised v))) →
      ∃ n e', Engine.perform n (.call f args) m.engine = .done [.bool false, v] e') ∧
    ∀ n r e', Engine.perform n (.call f args) m.engine = .of r e' →
      e'.depth = m.engine.depth ∧ e'.nativeDepth = m.engine.nativeDepth ∧
      e'.frame.pc = m.engine.frame.pc ∧
      ∀ (i : Nat) f, m.engine.frames[i]? = some f →
        ∃ f', e'.frames[i]? = some f' ∧ f.Keeps f' := by
  refine ⟨fun r e' => Engine.perform_pcall_iff hpcall, fun x hx => ?_,
    fun v e₁ job w hsteps hraises hw => ?_, fun n r e' hjob => ?_⟩
  · obtain ⟨cause, place⟩ := x
    cases cause with
    | raised v => exact absurd hx (by simp [Cause.isRaised])
    | _ => rfl
  · have hl : m.engine.enterNative.Linked := h.linked.calm ⟨rfl, rfl, rfl⟩
    obtain ⟨e', hraised⟩ := exists_steps_of_raises hl hsteps hraises hw
    obtain ⟨n, hn⟩ := (Engine.perform_pcall_iff hpcall).2
      ⟨_, e', steps_begin_iff.1 hraised, rfl, rfl⟩
    exact ⟨n, _, hn⟩
  · have hspares := (Engine.perform_execute_spares n).1 _ _ _ _ hjob
    exact ⟨hspares.depth_eq, hspares.nativeDepth_eq, (hspares.keeps_frame h.linked).pc_eq,
      fun i f hf => hspares.frame h.linked (Engine.lt_depth_of_getElem? hf) hf⟩

/-- A host function that calls its first argument with the others. -/
def apply : List Value → Host
  | [] => .done []
  | f :: args => (Script.ask (.call f args)).run

theorem relays_apply (args : List Value) : (apply args).Relays := by
  cases args with
  | nil => exact .done []
  | cons f args => exact Host.relays_ask _ .done

/-- A chunk that makes a function, which calls its first argument with the second. -/
def passing : Prototype :=
  { code := #[.abx .closure 0 0, .abc .ret 0 1 0]
    protos := #[{ code := #[.abc .call 0 2 1, .abc .ret 0 1 0], params := 2 }] }

/-- A run of the chunk, up to the return, with a protected call, a function for errors and the host
function. -/
def applying : Machine :=
  let e := (Engine.new .bare).register "pcall" fun args => (BaseLibrary.pcall args).run
  let e := e.register "error" fun args => (BaseLibrary.error args).run
  (Operation.run.start ((e.register "apply" apply).load passing)).after 1

theorem reachable_applying : Reachable .bare applying :=
  Reachable.after (((((Relation.ReflTransGen.refl.tail (.operation _ _ (.register "pcall" _))).tail
    (.operation _ _ (.register "error" _))).tail (.operation _ _ (.register "apply" _))).tail
      (.operation _ _ (.load passing))).tail (.operation _ _ .run)) 1

/-- The work of the host function, which calls the function of the chunk with the function for errors
and a table. -/
def raising : Machine :=
  { activity := applying.engine.enterNative.begin <|
      .call (.function ⟨2⟩) [.function ⟨3⟩, .function ⟨1⟩, .table ⟨0⟩] }

/-- The table passes the function and the host function, and reaches the protected call. -/
theorem pcall_of_reachable_applying :
    let e₁ := (raising.after 2).engine
    let error := Job.call (.function ⟨1⟩) [.table ⟨0⟩]
    raising.after 3 = ⟨e₁.begin error, (raising.after 3).waiting⟩ ∧
    (raising.after 3).waiting.length = 2 ∧ e₁.Raises (.table ⟨0⟩) error ∧
    ∃ n e', Engine.perform n (.call (.function ⟨0⟩)
        [.function ⟨2⟩, .function ⟨3⟩, .function ⟨1⟩, .table ⟨0⟩]) applying.engine =
      .done [.bool false, .table ⟨0⟩] e' := by
  have hpcall : applying.engine.Enters (.function ⟨0⟩)
      [.function ⟨2⟩, .function ⟨3⟩, .function ⟨1⟩, .table ⟨0⟩] BaseLibrary.pcall
      [.function ⟨2⟩, .function ⟨3⟩, .function ⟨1⟩, .table ⟨0⟩] := ⟨⟨"pcall", rfl⟩, rfl⟩
  have hraises : (raising.after 2).engine.Raises (.table ⟨0⟩)
      (.call (.function ⟨1⟩) [.table ⟨0⟩]) := .error ⟨⟨"error", rfl⟩, rfl⟩ rfl
  have hafter : raising.after 3 =
      ⟨(raising.after 2).engine.begin (.call (.function ⟨1⟩) [.table ⟨0⟩]),
        (raising.after 3).waiting⟩ := rfl
  have hrelays : ∀ go, .host go ∈ (raising.after 3).waiting →
      (Waiting.host go).Relays (.ofCause (.raised (.table ⟨0⟩))) := by
    intro go hgo
    have happly := ((relays_apply [.function ⟨3⟩, .function ⟨1⟩, .table ⟨0⟩]).act
      applying.engine.enterNative.enterNative).atEnd Engine.leaveNative
    have hwaiting := (rfl : (raising.after 3).waiting = [.script _ _, .host _])
    rw [hwaiting] at hgo
    obtain ⟨⟩ := List.mem_singleton.1 ((List.mem_cons.1 hgo).resolve_left (by simp))
    exact happly.waiting _
  refine ⟨hafter, rfl, hraises, ?_⟩
  obtain ⟨-, -, hraised, -⟩ := pcall_of_reachable reachable_applying hpcall
  exact hraised _ _ _ _ (hafter ▸ steps_after raising 3) hraises hrelays

end Machine

end LuaBytecode
