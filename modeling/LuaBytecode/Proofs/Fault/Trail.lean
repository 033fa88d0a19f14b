import LuaBytecode.Proofs.Fault.Report
import LuaBytecode.Proofs.Run.Move
import LuaBytecode.Proofs.Variable.Invariant

/-!
# Where the frames of a run stand

The program counter of a frame is behind the instruction that the frame executes, and the
instruction may have moved it elsewhere.  Where the instruction stands is known from the run: it is
the latest one that the frame has started.

* `Machine.Trail` : a run with the position of the latest instruction of every frame.
* `Machine.Tracked` : work that goes on in a frame locates faults at that position.
* `Machine.Trail.tracked` : **so it does in every run.**
-/

namespace LuaBytecode

/-- The positions of the latest instructions of frames. -/
abbrev Positions : Type := FrameId → Option Nat

variable {pcs : Positions} {m₀ m m' : Machine} {base i : Nat}

/-- A function that locates faults where the frame stands. -/
def Frame.Locates (pcs : Positions) (f : Frame) (g : Fault → Fault) : Prop :=
  ∃ pc, pcs f.id = some pc ∧ g = f.proto.locate pc

theorem Frame.Locates.congr {f f' : Frame} {g : Fault → Fault} {pcs' : Positions}
    (h : f.Locates pcs g) (hfunction : f'.function = f.function) (hpcs : pcs' f.id = pcs f.id) :
    f'.Locates pcs' g := by
  obtain ⟨hid, hclosure⟩ := Prod.mk.inj hfunction
  obtain ⟨pc, hpc, rfl⟩ := h
  exact ⟨pc, by rw [hid, hpcs, hpc], by rw [proto, proto, hclosure]⟩

namespace Machine

/-- An instruction that starts is the latest one of its frame. -/
def mark (pcs : Positions) (m : Machine) : Positions :=
  match m.activity with
  | .script _ (.done false e) => fun id => if id = e.frame.id then some e.frame.pc else pcs id
  | _ => pcs

/-- A run, and the positions of the latest instructions of its frames. -/
inductive Trail (m₀ : Machine) : Positions → Machine → Prop where
  | start : Trail m₀ (fun _ => none) m₀
  | step {pcs : Positions} {m m' : Machine} (h : Trail m₀ pcs m) (hstep : m.step = some m') :
      Trail m₀ (m.mark pcs) m'

theorem Trail.steps (h : Trail m₀ pcs m) : m₀.Steps m := by
  induction h with
  | start => exact .refl
  | step _ hstep ih => exact ih.tail hstep

theorem Steps.exists_trail (h : m₀.Steps m) : ∃ pcs, Trail m₀ pcs m := by
  induction h with
  | refl => exact ⟨_, .start⟩
  | tail _ hstep ih =>
    obtain ⟨pcs, hm⟩ := ih
    exact ⟨_, hm.step hstep⟩

/-! ### Regular machines -/

/-- The invariants of all runs. -/
structure Regular (m : Machine) : Prop where
  sound : m.Sound
  stays : m.Stays
  linked : m.engine.Linked

theorem Reachable.regular {config : Config} (h : Reachable config m) : m.Regular :=
  ⟨h.sound, h.stays, h.linked⟩

theorem regular_begin {e : Engine} (hl : e.Linked) (job : Job) :
    Regular { activity := e.begin job } := by
  obtain ⟨hsound, -, heffect⟩ := sound_begin e job
  refine ⟨⟨hsound, trivial⟩, ⟨(stays_begin e job).1, by simp⟩, ?_⟩
  change (e.begin job).engine.Linked
  obtain hcalm | ⟨c, args, hpush⟩ | ⟨p, hload⟩ := heffect
  · exact hl.calm hcalm
  · exact hpush ▸ hl.push c args
  · exact hload ▸ hl.load p

theorem Regular.step (h : m.Regular) (hstep : m.step = some m') : m'.Regular := by
  obtain ⟨hsound, heffect⟩ := h.sound.step hstep
  exact ⟨hsound, (h.stays.step hstep).1, heffect.linked h.linked⟩

theorem Regular.steps (h : m.Regular) (hsteps : m.Steps m') : m'.Regular := by
  induction hsteps with
  | refl => exact h
  | tail _ hstep ih => exact ih.step hstep

theorem Sound.floor_le (h : m.Sound) : m.activity.floor ≤ m.engine.depth := by
  obtain ⟨a, w⟩ := m
  cases a with
  | script base p =>
    have hdepth : p.engine.depth = base + 1 := h.activity.1
    exact Nat.le_of_lt (hdepth ▸ Nat.lt_succ_self base)
  | host p | ended r e => exact Nat.le_refl _

/-- Frames that wait are below those of the work in hand. -/
theorem base_lt_of_mem_waiting {depth : Nat} {w : List Waiting}
    {go : Except Fault (List Value) → Engine → Progress Bool} (h : Waiting.Fits depth w)
    (hmem : .script base go ∈ w) : base < depth := by
  induction w generalizing depth with
  | nil => exact absurd hmem (by simp)
  | cons x w ih =>
    cases x with
    | script base' go' =>
      obtain ⟨hdepth, -, hfits⟩ := h
      obtain heq | hmem := List.mem_cons.1 hmem
      · cases heq
        omega
      · have hlt := ih hfits hmem
        omega
    | host go' => exact ih h.2 ((List.mem_cons.1 hmem).resolve_left (by simp))

/-- A frame that a step neither leaves nor pushes belongs to the same function. -/
theorem Move.function_eq (h : m.Move m') (hs : m.Sound) (hi : i < m.engine.depth)
    (hi' : i < m'.engine.depth) :
    m'.engine.frames[i]?.map Frame.function = m.engine.frames[i]?.map Frame.function := by
  have hne : i ≠ m.engine.depth := Nat.ne_of_lt hi
  cases h with
  | stay h => exact h.getElem?_eq i
  | enter _ h => exact h.getElem?_eq i
  | push c args _ h => rw [h, Engine.getElem?_push, if_neg hne]
  | load p _ h =>
    rw [h, Engine.load, Engine.getElem?_push, if_neg]
    exact hne
  | leave base p hp h =>
    have hle : base ≤ m.engine.depth := by
      have hfloor := hs.floor_le
      rwa [hp] at hfloor
    rw [h, Engine.depth_unwindTo] at hi'
    rw [h, Engine.getElem?_unwindTo hle, if_pos (by omega)]

/-! ### Faults that pass -/

/-- The fault in flight. -/
def fault? (m : Machine) : Option Fault :=
  match m.activity with
  | .script _ (.fault x _) => some x
  | .host (.fault x _) => some x
  | .ended (.error x) _ => some x
  | _ => none

/-- A fault in flight goes on.  Where a function is left, or a host function goes on, it is the same
fault if nothing in it has changed; an instruction that is resumed with a fault goes on with it,
but it may give it a place. -/
inductive Passes : Machine → Machine → Prop where
  | same {m m' : Machine} {x : Fault} (hstep : m.step = some m') (hx : m.fault? = some x)
      (hx' : m'.fault? = some x) : Passes m m'
  | script {x y : Fault} {e e' : Engine} {base : Nat}
      {go : Except Fault (List Value) → Engine → Progress Bool} {w : List Waiting}
      (hgo : go (.error x) e = .fault y e') :
      Passes ⟨.ended (.error x) e, .script base go :: w⟩ ⟨.script base (.fault y e'), w⟩

theorem Passes.step (h : m.Passes m') : m.step = some m' := by
  cases h with
  | same hstep _ _ => exact hstep
  | script hgo => rw [Machine.step, hgo]

end Machine

/-! ### Tracked work -/

/-- An instruction that awaits a job locates faults where its frame stands. -/
def Activity.Tracked (pcs : Positions) : Activity → Prop
  | script _ (.await job e go) => ∃ g, e.frame.Locates pcs g ∧ (Progress.await job e go).Reports g
  | _ => True

/-- So does an instruction that waits, in one of the given frames. -/
def Waiting.Tracked (pcs : Positions) (frames : Array Frame) : Waiting → Prop
  | script base go =>
    ∃ f g, frames[base]? = some f ∧ f.Locates pcs g ∧
      (∀ x e, go (.error x) e = .fault (g x) e) ∧ ∀ vs e, (go (.ok vs) e).Reports g
  | host _ => True

namespace Machine

/-- All instructions in progress locate faults where their frames stand. -/
structure Tracked (pcs : Positions) (m : Machine) : Prop where
  activity : m.activity.Tracked pcs
  waiting : ∀ x ∈ m.waiting, x.Tracked pcs m.engine.frames

/-- Only the position of the running frame changes. -/
theorem Regular.mark_eq (h : m.Regular) {f : Frame} (hi : i < m.activity.floor)
    (hf : m.engine.frames[i]? = some f) (pcs : Positions) : m.mark pcs f.id = pcs f.id := by
  obtain ⟨a, w⟩ := m
  match a with
  | .script base (.done false e) =>
    have hdepth : e.depth = base + 1 := h.sound.activity.1
    have hlt : i < base := hi
    -- a frame has the identity of the place where it stands, and the running one stands above
    have htop : e.frame.id.depth = e.depth - 1 := h.linked.depth_frame (e := e) (by omega)
    refine if_neg fun hid => ?_
    rw [← hid, h.linked.depth_eq hf] at htop
    omega
  | .script _ (.done true _) | .script _ (.fault _ _) | .script _ (.await _ _ _) | .host _
  | .ended _ _ => rfl

/-- A function that a job starts has not executed anything. -/
theorem exists_of_begin_eq_script {e : Engine} {job : Job} {p : Progress Bool}
    (h : e.begin job = .script base p) : ∃ e', p = .done false e' := by
  cases job with
  | chunk c =>
    obtain ⟨⟩ := h
    exact ⟨_, rfl⟩
  | call f args =>
    rw [Engine.begin] at h
    split at h
    · exact absurd h (by simp)
    · split at h
      · exact absurd h (by simp)
      · split at h
        · exact absurd h (by simp)
        · obtain ⟨⟩ := h
          exact ⟨_, rfl⟩

/-- **What an instruction comes to**: it is yet to start, it passes a fault on, or it locates
faults where its frame stands. -/
theorem Tracked.reports {p : Progress Bool} {w : List Waiting} (h : m.Tracked pcs)
    (hm : m.Regular) (hstep : m.step = some ⟨.script base p, w⟩) :
    (∃ e, p = .done false e) ∨ m.Passes ⟨.script base p, w⟩ ∨
      ∃ g, p.engine.frame.Locates (m.mark pcs) g ∧ p.Reports g := by
  match m with
  | ⟨.script b (.done false e), w'⟩ =>
    obtain ⟨⟩ := Option.some.inj hstep
    refine .inr (.inr ⟨_, ?_, e.reports_step⟩)
    have hstays := (e.walks_step_of_instructs (R := Engine.Stays)).engine
    have hframe : e.frame.Locates (mark pcs ⟨.script base (.done false e), w⟩)
        (e.frame.proto.locate e.frame.pc) := ⟨_, if_pos rfl, rfl⟩
    exact hframe.congr hstays.function_frame_eq rfl
  | ⟨.script b (.await job e go), w'⟩ | ⟨.host (.await job e go), w'⟩ =>
    exact .inl (exists_of_begin_eq_script (congrArg Machine.activity (Option.some.inj hstep)))
  | ⟨.ended (.error x) e, .script b go :: w'⟩ =>
    obtain ⟨f, g, -, -, herror, -⟩ := h.waiting _ List.mem_cons_self
    obtain ⟨⟩ := Option.some.inj hstep
    refine .inr (.inl ?_)
    rw [herror]
    exact .script (herror x e)
  | ⟨.ended (.ok vs) e, .script b go :: w'⟩ =>
    obtain ⟨f, g, hf, hlocates, -, hok⟩ := h.waiting _ List.mem_cons_self
    obtain ⟨⟩ := Option.some.inj hstep
    have hdepth : e.depth = base + 1 := hm.sound.waiting.1
    have hframe : e.frame = f := Engine.frame_eq_of_getElem? (by rwa [hdepth])
    have hwalks : (go (.ok vs) e).Walks Engine.Stays e :=
      hm.stays.waiting _ List.mem_cons_self (.ok vs) e
    refine .inr (.inr ⟨g, ?_, hok vs e⟩)
    exact hlocates.congr (hframe ▸ hwalks.engine.function_frame_eq) rfl
  | ⟨.script b (.done true e), w'⟩ | ⟨.script b (.fault x e), w'⟩ | ⟨.host (.done vs e), w'⟩
  | ⟨.host (.fault x e), w'⟩ | ⟨.ended r e, .host go :: w'⟩ =>
    exact absurd (congrArg Machine.activity (Option.some.inj hstep)) (by simp)

/-- What waits behind a step waited before, or is the work that the step has put aside. -/
theorem mem_waiting_of_step {x : Waiting} (hstep : m.step = some m') (hx : x ∈ m'.waiting) :
    x ∈ m.waiting ∨ (∃ go, x = .host go) ∨
      ∃ base job e go, m.activity = .script base (.await job e go) ∧ x = .script base go := by
  match m with
  | ⟨.script b (.await job e go), w⟩ =>
    obtain rfl := Option.some.inj hstep
    obtain rfl | hmem := List.mem_cons.1 hx
    · exact .inr (.inr ⟨b, job, e, go, rfl, rfl⟩)
    · exact .inl hmem
  | ⟨.host (.await job e go), w⟩ =>
    obtain rfl := Option.some.inj hstep
    exact (List.mem_cons.1 hx).elim (fun heq => .inr (.inl ⟨go, heq⟩)) .inl
  | ⟨.ended r e, .script b go :: w⟩ | ⟨.ended r e, .host go :: w⟩ =>
    obtain rfl := Option.some.inj hstep
    exact .inl (List.mem_cons_of_mem _ hx)
  | ⟨.script b (.done false e), w⟩ | ⟨.script b (.done true e), w⟩ | ⟨.script b (.fault x e), w⟩
  | ⟨.host (.done vs e), w⟩ | ⟨.host (.fault x e), w⟩ =>
    obtain rfl := Option.some.inj hstep
    exact .inl hx

/-- A frame that a step neither leaves nor pushes still locates faults where it stands. -/
theorem Regular.exists_locates {f : Frame} {g : Fault → Fault} (hm : m.Regular)
    (hstep : m.step = some m') (hf : m.engine.frames[i]? = some f) (hi : i < m'.activity.floor)
    (hlocates : f.Locates pcs g) (hmark : m.mark pcs f.id = pcs f.id) :
    ∃ f', m'.engine.frames[i]? = some f' ∧ f'.Locates (m.mark pcs) g := by
  have hi' : i < m'.engine.depth := Nat.lt_of_lt_of_le hi (hm.step hstep).sound.floor_le
  have hfunction := (hm.stays.step hstep).2.function_eq hm.sound (Engine.lt_depth_of_getElem? hf) hi'
  rw [hf] at hfunction
  obtain ⟨f', hf', heq⟩ := Option.map_eq_some_iff.1 hfunction
  exact ⟨f', hf', hlocates.congr heq hmark⟩

/-- **A step keeps track of all instructions in progress.** -/
theorem Tracked.step (h : m.Tracked pcs) (hm : m.Regular) (hstep : m.step = some m') :
    m'.Tracked (m.mark pcs) := by
  constructor
  · obtain ⟨a, w⟩ := m'
    match a with
    | .script base (.await job e go) =>
      obtain ⟨_, hdone⟩ | hpasses | hreports := h.reports hm hstep
      · exact absurd hdone (by simp)
      · cases hpasses with
        | same _ _ hx => exact absurd hx (by simp [fault?])
      · exact hreports
    | .script _ (.done _ _) | .script _ (.fault _ _) | .host _ | .ended _ _ => exact trivial
  · intro x hx
    cases x with
    | host go => exact trivial
    | script base go =>
      have hlt := base_lt_of_mem_waiting (hm.step hstep).sound.waiting hx
      obtain hold | ⟨go', heq⟩ | ⟨base', job, e, go', ha, heq⟩ := mem_waiting_of_step hstep hx
      -- an instruction that has waited before belongs to a frame below the work in hand
      · obtain ⟨f, g, hf, hlocates, hgo⟩ := h.waiting _ hold
        have hmark := hm.mark_eq (base_lt_of_mem_waiting hm.sound.waiting hold) hf pcs
        obtain ⟨f', hf', hlocates'⟩ := hm.exists_locates hstep hf hlt hlocates hmark
        exact ⟨f', g, hf', hlocates', hgo⟩
      · exact absurd heq (by simp)
      · -- the instruction that is put aside belongs to the running frame
        obtain ⟨rfl, rfl⟩ := Waiting.script.inj heq
        have hactivity := h.activity
        have hsound := hm.sound.activity
        rw [ha] at hactivity hsound
        obtain ⟨g, hlocates, hgo⟩ := hactivity
        have hengine : m.engine = e := by rw [engine, ha]; rfl
        have hdepth : e.depth = base + 1 := hsound.1
        have hf : m.engine.frames[base]? = some e.frame := by
          rw [hengine, ← Engine.getElem?_depth (by omega), hdepth]
          rfl
        have hmark : m.mark pcs e.frame.id = pcs e.frame.id := by rw [mark, ha]
        obtain ⟨f', hf', hlocates'⟩ := hm.exists_locates hstep hf hlt hlocates hmark
        exact ⟨f', g, hf', hlocates', hgo⟩

/-- No instruction is in progress. -/
structure Idle (m : Machine) : Prop where
  waiting_eq : m.waiting = []
  eq_done : ∀ {base p}, m.activity = .script base p → ∃ e, p = .done false e

theorem Idle.tracked (h : m.Idle) : m.Tracked pcs := by
  refine ⟨?_, by simp [h.waiting_eq]⟩
  cases ha : m.activity with
  | script base p =>
    obtain ⟨e, rfl⟩ := h.eq_done ha
    exact trivial
  | host p | ended r e => exact trivial

/-- **In every run the instructions in progress locate faults where their frames stand.** -/
theorem Trail.tracked (h : Trail m₀ pcs m) (h₀ : m₀.Regular) (hidle : m₀.Idle) :
    m.Tracked pcs := by
  induction h with
  | start => exact hidle.tracked
  | step hm hstep ih => exact ih.step (h₀.steps hm.steps) hstep

end Machine

end LuaBytecode
