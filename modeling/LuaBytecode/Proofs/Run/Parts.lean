import LuaBytecode.Proofs.Instruction.Writes
import LuaBytecode.Proofs.Run.Sound

/-!
# The parts of a run

Whatever programs and host functions are run, a few kinds of changes make up the run: operations on
tables, new functions, changes of the running frame, assignments to cells, and the starts and ends
of functions.  A reflexive and transitive relation between states that covers each of these holds
from the new engine to every state of its runs.

* `Engine.Covers` : the relations that cover every part.
* `Opcode.covers_effect`, `Engine.covers_step` : instructions go on by them.
* `Machine.Walks.next` : so does a machine.
* `Machine.Reachable.covers` : **a run has gone on by them from the start.**
-/

namespace LuaBytecode

variable {α : Type} {R : Engine → Engine → Prop} {op : Opcode} {i : Instruction}

/-- The relation covers every part of a run. -/
class Engine.Covers (R : Engine → Engine → Prop) : Prop extends Engine.Supplies R where
  newTable : ∀ e : Engine, R e e.newTable.2
  closure : ∀ n : Nat, (Action.closure n).Walks R
  updateFrame : ∀ {g : Frame → Frame}, (∀ f, (g f).function = f.function) →
    (∀ f, (g f).links = f.links) → ∀ e : Engine, R e (e.updateFrame g)
  setCellValue : ∀ (e : Engine) (c : CellRef) (v : Value), R e (e.setCellValue c v)
  closeCells : ∀ (e : Engine) (first : Nat), R e (e.closeCells first)
  nativeDepth : ∀ (e : Engine) (n : Nat), R e { e with nativeDepth := n }
  /-- The function that starts is one that a call has found. -/
  push : ∀ {e : Engine} {f : Value} {args args' : List Value} {c : Closure},
    e.callee f args = .ok (.closure c, args') → R e (e.push c args')
  load : ∀ (e : Engine) (p : Prototype), R e (e.load p)
  unwindTo : ∀ (e : Engine) (depth : Nat), R e (e.unwindTo depth).2

open Engine (Covers)

/-! ### Instructions -/

theorem Command.covers_run [Covers R] {c : Command α} (h : op.Gives i c) (hop : op ≠ .closure) :
    c.run.Walks R := by
  cases c with
  | register r | registers first last | control | cellValue c => exact .read _
  | setRegisters base vs =>
    exact .modify (Covers.updateFrame (fun f => f.function_setRange base vs)
      fun f => f.links_setRange base vs)
  | skip | jump offset | setTop n | keepResults vs =>
    exact .modify (Covers.updateFrame (fun _ => rfl) fun _ => rfl)
  | setCellValue c v => exact .modify fun e => Covers.setCellValue e c v
  | captureRegister r => exact absurd h hop
  | closeCells first => exact .modify fun e => Covers.closeCells e first
  | newTable => exact .update (f := (·.newTable)) Covers.newTable
  | newFunction c => exact absurd h hop
  | storeItems t n vs => exact .modify (Action.supplies_storeItems t n vs)
  | call f args => exact .call f args
  | arith op a b => exact Action.walks_arith op a b
  | concat a b => exact Action.walks_concat a b
  | compare c a b => exact Action.walks_compare c a b
  | length v => exact Action.walks_length v
  | index object key => exact Action.walks_index object key
  | assign object key v => exact Action.walks_assign object key v

variable [Covers R]

theorem Opcode.covers_effect (op : Opcode) (i : Instruction) : (op.effect i).Walks R := by
  by_cases hop : op = .closure
  · -- the only instruction that makes functions, whose cells the relation may have to know
    subst hop
    exact .bind (Covers.closure i.bx) fun v =>
      .modify (Covers.updateFrame (fun f => f.function_set i.a v) fun f => f.links_set i.a v)
  · rw [← op.run_routine i]
    exact (op.all_routine i).walks_run fun h => Command.covers_run h hop

/-- The execution of an instruction. -/
theorem Engine.covers_step (e : Engine) : e.step.Walks R e :=
  walks_step_of_effect
    (Covers.updateFrame (g := fun f => { f with pc := e.frame.pc + 1 }) (fun _ => rfl)
      (fun _ => rfl) e)
    fun op i _ => op.covers_effect i

/-! ### Machines -/

omit [Covers R]

/-- The work in hand goes on by the relation. -/
def Activity.Walks (R : Engine → Engine → Prop) : Activity → Prop
  | script _ p => p.Walks R p.engine
  | host p => p.Walks R p.engine
  | ended _ _ => True

/-- So does work that waits, when it is resumed. -/
def Waiting.Walks (R : Engine → Engine → Prop) : Waiting → Prop
  | script _ go => ∀ r e, (go r e).Walks R e
  | host go => ∀ r e, (go r e).Walks R e

/-- All work of a machine goes on by the relation. -/
structure Machine.Walks (R : Engine → Engine → Prop) (m : Machine) : Prop where
  activity : m.activity.Walks R
  waiting : ∀ x ∈ m.waiting, x.Walks R

namespace Machine

variable [Covers R]

theorem walks_begin (e : Engine) (job : Job) :
    (e.begin job).Walks R ∧ R e (e.begin job).engine := by
  have hrefl (e : Engine) : R e e := Std.Refl.refl e
  cases job with
  | chunk p => exact ⟨hrefl _, Covers.load e p⟩
  | call f args =>
    rw [Engine.begin]
    cases hcallee : e.callee f args with
    | error c => exact ⟨trivial, hrefl e⟩
    | ok g =>
      obtain ⟨g, args'⟩ := g
      cases e.isFull with
      | true => exact ⟨trivial, hrefl e⟩
      | false =>
        cases g with
        | closure c => exact ⟨hrefl _, Covers.push hcallee⟩
        | native name body =>
          have hwalks := (((body args').walks_act (R := R) e.enterNative).atEnd
            (g := Engine.leaveNative) fun e => Covers.nativeDepth e _).trans_left
              (Covers.nativeDepth e _)
          exact ⟨hwalks.self, hwalks.engine⟩

theorem Walks.step {m m' : Machine} (h : m.Walks R) (hstep : m.step = some m') :
    m'.Walks R ∧ R m.engine m'.engine := by
  match m with
  | ⟨.script base (.done false e), w⟩ =>
    obtain rfl := Option.some.inj hstep
    have hwalks := e.covers_step (R := R)
    exact ⟨⟨hwalks.self, h.waiting⟩, hwalks.engine⟩
  | ⟨.script base (.done true e), w⟩ | ⟨.script base (.fault f e), w⟩ =>
    obtain rfl := Option.some.inj hstep
    exact ⟨⟨trivial, h.waiting⟩, Covers.unwindTo e base⟩
  | ⟨.script base (.await job e go), w⟩ =>
    obtain rfl := Option.some.inj hstep
    obtain ⟨hactivity, hbegin⟩ := walks_begin (R := R) e job
    have hgo : (Waiting.script base go).Walks R := h.activity.2
    exact ⟨⟨hactivity, List.forall_mem_cons.2 ⟨hgo, h.waiting⟩⟩, hbegin⟩
  | ⟨.host (.await job e go), w⟩ =>
    obtain rfl := Option.some.inj hstep
    obtain ⟨hactivity, hbegin⟩ := walks_begin (R := R) e job
    have hgo : (Waiting.host go).Walks R := h.activity.2
    exact ⟨⟨hactivity, List.forall_mem_cons.2 ⟨hgo, h.waiting⟩⟩, hbegin⟩
  | ⟨.host (.done vs e), w⟩ | ⟨.host (.fault f e), w⟩ =>
    obtain rfl := Option.some.inj hstep
    exact ⟨⟨trivial, h.waiting⟩, Std.Refl.refl (r := R) e⟩
  | ⟨.ended r e, .script base go :: w⟩ | ⟨.ended r e, .host go :: w⟩ =>
    obtain rfl := Option.some.inj hstep
    obtain ⟨hgo, hwaiting⟩ := List.forall_mem_cons.1 h.waiting
    have hwalks : (go r e).Walks R e := hgo r e
    exact ⟨⟨hwalks.self, hwaiting⟩, hwalks.engine⟩

theorem walks_start (e : Engine) (o : Operation) :
    (o.start e).Walks R ∧ R e (o.start e).engine := by
  have none : ∀ x ∈ ([] : List Waiting), x.Walks R := by simp
  match o with
  | .load p => exact ⟨⟨trivial, none⟩, Covers.load e p⟩
  | .register name body => exact ⟨⟨trivial, none⟩, e.supplies_register name body⟩
  | .setGlobal name v => exact ⟨⟨trivial, none⟩, e.supplies_setGlobal name v⟩
  | .newTable => exact ⟨⟨trivial, none⟩, Covers.newTable e⟩
  | .serve h =>
    have hwalks := h.walks_act (R := R) e
    exact ⟨⟨hwalks.self, none⟩, hwalks.engine⟩
  | .run =>
    have hrefl := Std.Refl.refl (r := R) e
    rw [Operation.start]
    split
    · exact ⟨⟨trivial, none⟩, hrefl⟩
    · exact ⟨⟨hrefl, none⟩, hrefl⟩

/-- The next state of a machine is related to the one before. -/
theorem Walks.next {m m' : Machine} (h : m.Walks R) (hn : m.Next m') :
    m'.Walks R ∧ R m.engine m'.engine := by
  cases hn with
  | step hstep => exact h.step hstep
  | operation r e o => exact walks_start e o

/-- **A run has gone on by the relation from the start**, whatever programs, host functions and
operations it is made of. -/
theorem Reachable.covers {config : Config} {m : Machine} (h : Reachable config m) :
    R (Engine.empty config) m.engine := by
  have hinvariant := h.invariant (P := fun m => m.Walks R ∧ R (Engine.empty config) m.engine)
    ⟨⟨trivial, by simp [new]⟩, Engine.supplies_new config⟩ fun m m' hm hnext => by
      obtain ⟨hwalks, hstart⟩ := hm
      obtain ⟨hwalks', hrelated⟩ := hwalks.next hnext
      exact ⟨hwalks', IsTrans.trans _ _ _ hstart hrelated⟩
  exact hinvariant.2

end Machine

end LuaBytecode
