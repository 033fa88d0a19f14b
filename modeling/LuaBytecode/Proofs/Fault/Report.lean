import LuaBytecode.Proofs.Instruction.Routine
import LuaBytecode.Proofs.Run.Inherited
import LuaBytecode.Proofs.Run.Machine

/-!
# What work fails with

A fault comes from the work itself, or from a job that the work has awaited.  An instruction treats
both in the same way: the fault is located at the instruction, and nothing else happens to it.  A
host function may do with a fault what it likes; one that does not look at it relays it.

* `Progress.Reports` : a fault of the work is what a given function makes of a failure of the
  engine, or of the fault of a job.
* `Engine.reports_step` : **instructions report faults at their place.**
* `Progress.Relays` : the fault of a job is passed on unchanged.
* `Host.Relays`, `Host.relays_act` : host functions that only ask relay faults.
-/

namespace LuaBytecode

variable {α β : Type} {g : Fault → Fault}

/-- A fault that comes up at a position in the code of a function, with its place. -/
def Prototype.locate (p : Prototype) (pc : Nat) : Fault → Fault :=
  Fault.locate p.source (p.lineAt pc)

namespace Progress

/-! ### Reports -/

/-- The work fails with what `g` makes of a failure of the engine, which is no raised value, or of
the fault of a job; so it does when it goes on from the results of a job. -/
def Reports (g : Fault → Fault) : Progress α → Prop
  | .done _ _ => True
  | .fault x _ => ∃ c : Cause, c.isRaised = false ∧ x = g (.ofCause c)
  | .await _ _ go =>
    (∀ x e, go (.error x) e = .fault (g x) e) ∧ ∀ vs e, (go (.ok vs) e).Reports g

theorem Reports.andThen {p : Progress α} {f : α → Engine → Progress β} (hp : p.Reports g)
    (hf : ∀ a e, (f a e).Reports g) : (p.andThen f).Reports g := by
  induction p with
  | done a e => exact hf a e
  | fault x e => exact hp
  | await job e go ih =>
    refine ⟨fun x e' => ?_, fun vs e' => ih (.ok vs) e' (hp.2 vs e')⟩
    change (go (.error x) e').andThen f = _
    rw [hp.1]
    rfl

theorem Reports.mapFault {p : Progress α} (hp : p.Reports id) (g : Fault → Fault) :
    (p.mapFault g).Reports g := by
  induction p with
  | done a e => exact trivial
  | fault x e =>
    obtain ⟨c, hc, rfl⟩ := hp
    exact ⟨c, hc, rfl⟩
  | await job e go ih =>
    refine ⟨fun x e' => ?_, fun vs e' => ih (.ok vs) e' (hp.2 vs e')⟩
    change (go (.error x) e').mapFault g = _
    rw [hp.1]
    rfl

/-! ### Relays -/

/-- The fault of a job ends the work, and is not changed. -/
def Relays : Progress α → Prop
  | .done _ _ | .fault _ _ => True
  | .await _ _ go =>
    (∀ x e, ∃ e', go (.error x) e = .fault x e') ∧ ∀ vs e, (go (.ok vs) e).Relays

theorem Reports.relays {p : Progress α} (hp : p.Reports id) : p.Relays := by
  induction p with
  | done a e => exact trivial
  | fault x e => exact trivial
  | await job e go ih =>
    exact ⟨fun x e' => ⟨e', hp.1 x e'⟩, fun vs e' => ih (.ok vs) e' (hp.2 vs e')⟩

/-- Work goes on from the results, and does not change a fault. -/
theorem Relays.andFinally {p : Progress α} {f : Except Fault α → Engine → Progress β}
    (hp : p.Relays) (hok : ∀ a e, (f (.ok a) e).Relays)
    (herror : ∀ x e, ∃ e', f (.error x) e = .fault x e') : (p.andFinally f).Relays := by
  induction p with
  | done a e => exact hok a e
  | fault x e =>
    obtain ⟨e', he'⟩ := herror x e
    rw [Progress.andFinally, he']
    exact trivial
  | await job e go ih =>
    refine ⟨fun x e' => ?_, fun vs e' => ih (.ok vs) e' (hp.2 vs e')⟩
    obtain ⟨e₁, he₁⟩ := hp.1 x e'
    change ∃ e₂, (go (.error x) e').andFinally f = _
    rw [he₁]
    exact herror x e₁

theorem Relays.atEnd {p : Progress α} (hp : p.Relays) (g : Engine → Engine) :
    (p.atEnd g).Relays :=
  hp.andFinally (fun _ _ => trivial) fun _ e => ⟨g e, rfl⟩

end Progress

/-! ### Instructions -/

namespace Action

/-- The action fails with failures of the engine, and with the faults of its jobs. -/
def Reports (x : Action α) : Prop := ∀ e, (x e).Reports id

theorem reports_await (job : Job) : (await job).Reports :=
  fun _ => ⟨fun _ _ => rfl, fun _ _ => trivial⟩

theorem reports_setRaw (t : TableRef) (key v : Value) : (setRaw t key v).Reports := by
  intro e
  unfold setRaw
  split
  · exact trivial
  · refine ⟨_, ?_, rfl⟩
    unfold Table.keyFault
    split <;> rfl

theorem inherited_reports : Inherited Reports where
  pure _ _ := trivial
  bind hx hf e := (hx e).andThen fun a => hf a
  read _ _ := trivial
  fail hc _ := ⟨_, hc, rfl⟩
  call _ _ := reports_await _
  setRaw := reports_setRaw

end Action

theorem Command.reports_run (c : Command α) : c.run.Reports := by
  cases c with
  | call f args => exact Action.reports_await (.call f args)
  | arith op a b => exact Action.inherited_reports.arith op a b
  | concat a b => exact Action.inherited_reports.concat a b
  | compare c a b => exact Action.inherited_reports.compare c a b
  | length v => exact Action.inherited_reports.length v
  | index object key => exact Action.inherited_reports.index object key
  | assign object key v => exact Action.inherited_reports.assign object key v
  -- the others read and write, and do not fail
  | _ => exact fun _ => trivial

theorem Routine.reports_run (x : Routine α) : x.run.Reports := by
  induction x with
  | done a => exact Action.inherited_reports.pure a
  | malformed m => exact Action.inherited_reports.fail rfl
  | complain c => exact Action.inherited_reports.fail rfl
  | give c go ih => exact Action.inherited_reports.bind c.reports_run ih

/-- **Instructions report faults at their place**: their own ones, which are no raised values, and
those of all that they call. -/
theorem Engine.reports_step (e : Engine) : e.step.Reports (e.frame.proto.locate e.frame.pc) := by
  rw [step]
  dsimp only
  split
  · exact ⟨_, rfl, rfl⟩
  · split
    · exact ⟨_, rfl, rfl⟩
    · rename_i op _
      rw [← op.run_routine]
      exact ((op.routine _).reports_run _).mapFault _ |>.andThen fun _ _ => trivial

/-! ### Host functions -/

/-- The answer to a request fails as instructions do. -/
theorem Action.reports_answer (r : Request) : (answer r).Reports := by
  cases r with
  | call f args => exact reports_await _
  | runChunk p => exact reports_await _
  | callGlobal name args => exact inherited_reports.callGlobal name args
  | index object key =>
    exact inherited_reports.bind (inherited_reports.index object key) fun _ =>
      inherited_reports.pure _
  | setRaw t key v =>
    exact inherited_reports.bind (reports_setRaw t key v) fun _ => inherited_reports.pure _
  | next t key =>
    intro e
    unfold answer Action.next
    dsimp only
    split
    · exact ⟨_, rfl, rfl⟩
    · exact trivial
    · exact trivial
  | _ => exact fun _ => trivial

/-- A host function that ends with a fault when a request of it fails. -/
inductive Host.Relays : Host → Prop where
  | done (vs : List Value) : Relays (.done vs)
  | fail (x : Fault) : Relays (.fail x)
  | ask (r : Request) {go : Except Fault (List Value) → Host}
    (herror : ∀ x, go (.error x) = .fail x) (hok : ∀ vs, Relays (go (.ok vs))) : Relays (.ask r go)
  | define (name : String) (body : List Value → Host) {go : Value → Host}
    (h : ∀ f, Relays (go f)) : Relays (.define name body go)

/-- A request in the notation of scripts leaves its faults alone. -/
theorem Host.relays_ask (r : Request) {go : List Value → Host} (h : ∀ vs, (go vs).Relays) :
    (Script.ask r go).Relays := .ask r (fun _ => rfl) h

/-- **Host functions that only ask relay faults**, also those that come up in the operations with
metamethods which answer them. -/
theorem Host.Relays.act {h : Host} (hr : h.Relays) (e : Engine) : (h.act e).Relays := by
  induction hr generalizing e with
  | done vs => exact trivial
  | fail x => exact trivial
  | ask r herror _ ih =>
    refine (Action.reports_answer r e).relays.andFinally (fun vs e' => ih vs e') fun x e' => ?_
    refine ⟨e', ?_⟩
    rw [herror]
    rfl
  | define name body _ ih => exact ih _ _

end LuaBytecode
