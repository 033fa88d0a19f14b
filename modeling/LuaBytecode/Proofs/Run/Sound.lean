import Mathlib.Logic.Basic
import LuaBytecode.Proofs.Run.Instruction
import LuaBytecode.Proofs.Variable.Linked

/-!
# What a step of a run changes

A machine is *sound* if the function in hand is the only one above the frames that remain when it
is left, the work that waits fits this, and all of it goes on as instructions and host functions
do.  For a sound machine there are eight things that a step can do to the engine.

* `Machine.Effect` : these eight.
* `Machine.Sound.next` : a step of a sound machine is one of them, and leaves it sound.
* `Machine.Reachable.sound` : the machines that come from a new engine are sound.

What an invariant of all runs needs is a proof for each of the eight.
-/

namespace LuaBytecode

open Engine (Calm Advances)

/-! ### Sound machines -/

/-- The number of frames when the work in hand has ended. -/
def Activity.floor : Activity → Nat
  | script base _ => base
  | host p => p.engine.depth
  | ended _ e => e.depth

/-- The function in hand is on top, and the work goes on as it should. -/
def Activity.Sound : Activity → Prop
  | script base p => p.engine.depth = base + 1 ∧ p.Walks Advances p.engine
  | host p => p.Walks Calm p.engine
  | ended _ _ => True

/-- Work that waits for a job that ends with `depth` frames. -/
def Waiting.Fits : Nat → List Waiting → Prop
  | _, [] => True
  | depth, .script base go :: w =>
    depth = base + 1 ∧ (∀ r e, (go r e).Walks Advances e) ∧ Fits base w
  | depth, .host go :: w => (∀ r e, (go r e).Walks Calm e) ∧ Fits depth w

/-- The work in hand and the work that waits fit each other and the stack. -/
structure Machine.Sound (m : Machine) : Prop where
  activity : m.activity.Sound
  waiting : Waiting.Fits m.activity.floor m.waiting

theorem Progress.Walks.self {α : Type} {R : Engine → Engine → Prop} [IsPreorder Engine R]
    {p : Progress α} {e₀ : Engine} (h : p.Walks R e₀) : p.Walks R p.engine := by
  cases p with
  | done a e => exact Std.Refl.refl (r := R) e
  | fault f e => exact Std.Refl.refl (r := R) e
  | await job e go => exact ⟨Std.Refl.refl (r := R) e, h.2⟩

/-! ### The effect of a step -/

/-- The function in hand has returned or failed, and is about to be left. -/
def Machine.Leaves (m : Machine) (base : Nat) : Prop :=
  (∃ e, m.activity = .script base (.done true e)) ∨ ∃ f e, m.activity = .script base (.fault f e)

/-- What a step of a machine can do to the engine. -/
inductive Machine.Effect (m m' : Machine) : Prop where
  /-- Neither frames nor cells change. -/
  | calm (h : m.engine.Calm m'.engine)
  /-- The running frame goes on without touching its registers. -/
  | pass (h : m.engine.Passes m'.engine)
  /-- An instruction of the running frame goes on: no assignment to an upvalue, no jump and no
  return. -/
  | advance (base : Nat) (p : Progress Bool) (hp : m'.activity = .script base p)
    (hop : ∀ op i, m.instruction? = some (op, i) → op.isLocal ∧ op ≠ .ret)
    (hpos : 0 < m.engine.depth) (h : m.engine.Advances m'.engine)
  /-- The running function assigns to an upvalue. -/
  | assign (i : Instruction) (hi : m.instruction? = some (.setUpvalue, i)) (c : CellRef)
    (hc : m.engine.frame.upvalue? i.b = some c)
    (h : m'.engine = m.engine.fetched.setCellValue c (m.engine.frame.get i.a))
  /-- A jump closes cells of the running frame. -/
  | close (i : Instruction) (hi : m.instruction? = some (.jump, i)) (ha : i.a ≠ 0)
    (h : m'.engine = (m.engine.jumped i).closeCells (i.a - 1))
  /-- A function starts. -/
  | push (c : Closure) (args : List Value) (h : m'.engine = m.engine.push c args)
  /-- A chunk is loaded. -/
  | load (p : Prototype) (h : m'.engine = m.engine.load p)
  /-- The running function, which has returned or failed, is left. -/
  | leave (base : Nat) (hbase : base ≤ m.engine.depth) (hleave : m.Leaves base)
    (h : m'.engine = (m.engine.unwindTo base).2)

namespace Machine

/-- The beginning of a job leaves the engine as it is or starts a function. -/
theorem sound_begin (e : Engine) (job : Job) :
    (e.begin job).Sound ∧ (e.begin job).floor = e.depth ∧
      (e.Calm (e.begin job).engine ∨ (∃ c args, (e.begin job).engine = e.push c args) ∨
        ∃ p, (e.begin job).engine = e.load p) := by
  match job with
  | .chunk p => exact ⟨⟨Engine.depth_load e p, .refl _⟩, rfl, .inr (.inr ⟨p, rfl⟩)⟩
  | .call f args =>
    rw [Engine.begin]
    split
    · exact ⟨trivial, rfl, .inl (.refl e)⟩
    · split
      · exact ⟨trivial, rfl, .inl (.refl e)⟩
      · split
        · rename_i body _
          -- the count of calls in progress changes on both ends, neither frames nor cells do
          have henter : e.Calm e.enterNative := ⟨rfl, rfl, rfl⟩
          have hwalks (args : List Value) :=
            ((body args).walks_act (R := Calm) e.enterNative).atEnd (g := Engine.leaveNative)
              fun _ => ⟨rfl, rfl, rfl⟩
          have hcalm (args : List Value) := henter.trans (hwalks args).engine
          exact ⟨(hwalks _).self, (hcalm _).depth_eq, .inl (hcalm _)⟩
        · rename_i c _
          exact ⟨⟨Engine.depth_push e c _, .refl _⟩, rfl, .inr (.inl ⟨c, _, rfl⟩)⟩

/-- Work that awaits a job is put aside, and the job begins. -/
theorem Sound.await {a : Activity} {x : Waiting} {w : List Waiting} {e : Engine} {job : Job}
    (he : a.engine = e) (hfits : Waiting.Fits e.depth (x :: w)) :
    Sound ⟨e.begin job, x :: w⟩ ∧ Effect ⟨a, w⟩ ⟨e.begin job, x :: w⟩ := by
  obtain ⟨hsound, hfloor, heffect⟩ := sound_begin e job
  refine ⟨⟨hsound, hfloor ▸ hfits⟩, ?_⟩
  subst he
  obtain hcalm | ⟨c, args, hpush⟩ | ⟨p, hload⟩ := heffect
  · exact .calm hcalm
  · exact .push c args hpush
  · exact .load p hload

/-- An instruction is executed up to its first wait. -/
theorem Sound.execute {base : Nat} {e : Engine} {w : List Waiting}
    (h : Sound ⟨.script base (.done false e), w⟩) :
    Sound ⟨.script base e.step, w⟩ ∧
      Effect ⟨.script base (.done false e), w⟩ ⟨.script base e.step, w⟩ := by
  obtain ⟨⟨hdepth, -⟩, hfits⟩ := h
  have hpos : 0 < e.depth := by
    rw [show e.depth = base + 1 from hdepth]
    exact Nat.succ_pos base
  have sound (hwalks : e.step.Walks Advances e.step.engine) (hd : e.step.engine.depth = e.depth) :
      Sound ⟨.script base e.step, w⟩ := ⟨⟨hd.trans hdepth, hwalks⟩, hfits⟩
  by_cases hlocal : ∀ op i, e.instruction? = some (op, i) → op.isLocal
  · have hwalks := Engine.walks_step (R := Advances) hlocal
    refine ⟨sound hwalks.self hwalks.engine.depth_eq, ?_⟩
    -- a return is local as well, but it writes no register at all
    by_cases hret : ∃ i, e.instruction? = some (.ret, i)
    · obtain ⟨i, hi⟩ := hret
      rw [Engine.step_ret hi]
      exact .pass (Engine.passes_returned e i)
    · refine .advance base _ rfl (fun op i hi => ⟨hlocal op i hi, ?_⟩) hpos hwalks.engine
      rintro rfl
      exact hret ⟨i, hi⟩
  · obtain ⟨op, i, hi, hop⟩ : ∃ op i, e.instruction? = some (op, i) ∧ ¬ op.isLocal := by
      simpa only [not_forall, exists_prop] using hlocal
    -- two opcodes reach further, and each has its own effect
    obtain rfl | rfl : op = .setUpvalue ∨ op = .jump := by
      simpa [Opcode.isLocal, or_iff_not_imp_left] using hop
    · obtain ⟨-, f, hf⟩ | ⟨c, hc, hstep⟩ := Engine.step_setUpvalue hi
      · rw [hf] at sound ⊢
        exact ⟨sound (.refl _) (Engine.depth_updateFrame _ _), .pass (Engine.passes_fetched e)⟩
      · rw [hstep] at sound ⊢
        refine ⟨sound (.refl _) ?_, .assign i hi c hc rfl⟩
        exact (Engine.depth_setCellValue _ _ _).trans (Engine.depth_updateFrame _ _)
    · have hstep := Engine.step_jump hi
      split at hstep
      · rename_i ha
        rw [hstep] at sound ⊢
        refine ⟨sound (.refl _) ?_, .close i hi ha rfl⟩
        exact (Engine.depth_closeCells _ _).trans (Engine.depth_updateFrame _ _)
      · rw [hstep] at sound ⊢
        exact ⟨sound (.refl _) (Engine.depth_updateFrame _ _), .pass (Engine.passes_jumped e i)⟩

/-- A function that has returned or failed is left. -/
theorem Sound.leave {base : Nat} {p : Progress Bool} {w : List Waiting} {e : Engine}
    {r : Except Fault (List Value)} (h : Sound ⟨.script base p, w⟩) (he : p.engine = e)
    (hleave : Leaves ⟨.script base p, w⟩ base) :
    Sound ⟨.ended r (e.unwindTo base).2, w⟩ ∧
      Effect ⟨.script base p, w⟩ ⟨.ended r (e.unwindTo base).2, w⟩ := by
  obtain ⟨⟨hdepth, -⟩, hfits⟩ := h
  subst he
  have hle : base ≤ p.engine.depth := by
    rw [hdepth]
    exact Nat.le_succ base
  have hfloor : (p.engine.unwindTo base).2.depth = base := by
    rw [Engine.depth_unwindTo, Nat.min_eq_right hle]
  refine ⟨⟨trivial, ?_⟩, .leave base hle hleave rfl⟩
  change Waiting.Fits (p.engine.unwindTo base).2.depth w
  rw [hfloor]
  exact hfits

/-- **A step of a sound machine** has one of the eight effects, and leaves it sound. -/
theorem Sound.step {m m' : Machine} (h : m.Sound) (hstep : m.step = some m') :
    m'.Sound ∧ m.Effect m' := by
  match m with
  | ⟨.script base (.done false e), w⟩ =>
    obtain rfl := Option.some.inj hstep
    exact h.execute
  | ⟨.script base (.done true e), w⟩ =>
    obtain rfl := Option.some.inj hstep
    exact h.leave rfl (.inl ⟨e, rfl⟩)
  | ⟨.script base (.fault f e), w⟩ =>
    obtain rfl := Option.some.inj hstep
    exact h.leave rfl (.inr ⟨f, e, rfl⟩)
  | ⟨.script base (.await job e go), w⟩ =>
    obtain rfl := Option.some.inj hstep
    exact Sound.await rfl ⟨h.activity.1, h.activity.2.2, h.waiting⟩
  | ⟨.host (.done vs e), w⟩ | ⟨.host (.fault f e), w⟩ =>
    obtain rfl := Option.some.inj hstep
    exact ⟨⟨trivial, h.waiting⟩, .calm (.refl e)⟩
  | ⟨.host (.await job e go), w⟩ =>
    obtain rfl := Option.some.inj hstep
    exact Sound.await rfl ⟨h.activity.2, h.waiting⟩
  | ⟨.ended r e, .script base go :: w⟩ =>
    obtain rfl := Option.some.inj hstep
    -- the rest of an instruction: its job has left the frames as they were
    obtain ⟨hdepth, hgo, hfits⟩ := h.waiting
    have hwalks := hgo r e
    have hpos : 0 < e.depth := by
      rw [show e.depth = base + 1 from hdepth]
      exact Nat.succ_pos base
    exact ⟨⟨⟨hwalks.engine.depth_eq.trans hdepth, hwalks.self⟩, hfits⟩,
      .advance base _ rfl (fun _ _ hi => absurd hi (by simp [instruction?])) hpos hwalks.engine⟩
  | ⟨.ended r e, .host go :: w⟩ =>
    obtain rfl := Option.some.inj hstep
    obtain ⟨hgo, hfits⟩ := h.waiting
    have hwalks := hgo r e
    refine ⟨⟨hwalks.self, ?_⟩, .calm hwalks.engine⟩
    change Waiting.Fits (go r e).engine.depth w
    rw [hwalks.engine.depth_eq]
    exact hfits

/-- To start an operation leaves the engine as it is, apart from globals, or loads a chunk. -/
theorem sound_start (r : Except Fault (List Value)) (e : Engine) (o : Operation) :
    (o.start e).Sound ∧ Effect ⟨.ended r e, []⟩ (o.start e) := by
  match o with
  | .load p => exact ⟨⟨trivial, trivial⟩, .load p rfl⟩
  | .register name body | .setGlobal name v | .newTable =>
    exact ⟨⟨trivial, trivial⟩, .calm ⟨rfl, rfl, rfl⟩⟩
  | .serve h =>
    have hwalks := h.walks_act (R := Calm) e
    exact ⟨⟨hwalks.self, trivial⟩, .calm hwalks.engine⟩
  | .run =>
    rw [Operation.start]
    split
    · exact ⟨⟨trivial, trivial⟩, .calm (.refl e)⟩
    · refine ⟨⟨⟨?_, .refl e⟩, trivial⟩, .calm (.refl e)⟩
      change e.depth = e.depth - 1 + 1
      omega

theorem Sound.next {m m' : Machine} (h : m.Sound) (hn : m.Next m') : m'.Sound ∧ m.Effect m' := by
  cases hn with
  | step hstep => exact h.step hstep
  | operation r e o => exact sound_start r e o

/-- **Reachable machines are sound.** -/
theorem Reachable.sound {config : Config} {m : Machine} (h : Reachable config m) : m.Sound :=
  h.invariant ⟨trivial, trivial⟩ fun _ _ hm hn => (hm.next hn).1

end Machine

end LuaBytecode
