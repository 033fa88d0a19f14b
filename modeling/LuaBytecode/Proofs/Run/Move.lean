import LuaBytecode.Proofs.Instruction.Walk
import LuaBytecode.Proofs.Run.Sound

/-!
# What a step of a run does to the call stack

Between two jobs no function starts and none is left: the frames on the stack may change, but they
are frames of the same functions.

* `Engine.Stays` : the same functions are on the stack, and no further host function runs.
* `Machine.Move` : the ways in which a step can move the call stack.  A function starts only if the
  stack is not full, and the only other way to a new frame is to load a chunk.
* `Machine.Reachable.move` : every step of a run is one of them.
-/

namespace LuaBytecode

variable {e e' e₁ : Engine}

theorem Frame.function_capture (f : Frame) (h : Heap) (r : Nat) :
    (f.capture h r).2.1.function = f.function := by
  unfold capture
  split <;> rfl

namespace Engine

/-! ### The same functions -/

/-- The same functions are on the stack, and no further host function runs. -/
structure Stays (e e' : Engine) : Prop where
  config_eq : e'.config = e.config
  serial_eq : e'.serial = e.serial
  function_eq : e'.frames.map Frame.function = e.frames.map Frame.function
  nativeDepth_le : e'.nativeDepth ≤ e.nativeDepth

namespace Stays

theorem refl (e : Engine) : e.Stays e := ⟨rfl, rfl, rfl, Nat.le_refl _⟩

theorem trans (h₁ : e.Stays e₁) (h₂ : e₁.Stays e') : e.Stays e' :=
  ⟨h₂.config_eq.trans h₁.config_eq, h₂.serial_eq.trans h₁.serial_eq,
    h₂.function_eq.trans h₁.function_eq, Nat.le_trans h₂.nativeDepth_le h₁.nativeDepth_le⟩

theorem depth_eq (h : e.Stays e') : e'.depth = e.depth := by
  simpa only [Array.size_map, depth] using congrArg Array.size h.function_eq

theorem getElem?_eq (h : e.Stays e') (i : Nat) :
    e'.frames[i]?.map Frame.function = e.frames[i]?.map Frame.function := by
  simpa only [Array.getElem?_map] using congrArg (·[i]?) h.function_eq

/-- The running function is the same. -/
theorem function_frame_eq (h : e.Stays e') : e'.frame.function = e.frame.function := by
  rcases Nat.eq_zero_or_pos e.depth with hzero | hpos
  · rw [frame_of_depth_eq_zero hzero, frame_of_depth_eq_zero (h.depth_eq.trans hzero)]
  · have htop := h.getElem?_eq (e.depth - 1)
    rw [getElem?_depth hpos, ← h.depth_eq, getElem?_depth (h.depth_eq ▸ hpos)] at htop
    exact Option.some.inj htop

end Stays

instance : Serves Stays where
  refl := .refl
  trans _ _ _ := .trans
  serve _ _ _ _ := ⟨rfl, rfl, rfl, Nat.le_refl _⟩

theorem stays_modify (e : Engine) (i : Nat) {g : Frame → Frame}
    (hg : ∀ f, e.frames[i]? = some f → (g f).function = f.function) :
    e.Stays { e with frames := e.frames.modify i g } := by
  refine ⟨rfl, rfl, Array.ext_getElem? fun j => ?_, Nat.le_refl _⟩
  simp only [Array.getElem?_map, Array.getElem?_modify]
  split
  · rename_i hij
    subst hij
    cases hf : e.frames[i]? with
    | none => rfl
    | some f => exact congrArg some (hg f hf)
  · rfl

theorem stays_updateFrame {g : Frame → Frame} (hg : ∀ f, (g f).function = f.function)
    (e : Engine) : e.Stays (e.updateFrame g) := stays_modify e _ fun f _ => hg f

/-- The running frame may be replaced by one of the same function. -/
theorem stays_replaceFrame (e : Engine) (heap : Heap) {f : Frame}
    (hf : f.function = e.frame.function) :
    e.Stays ({ e with heap }.updateFrame fun _ => f) := by
  have hmodify : e.Stays { e with frames := e.frames.modify (e.frames.size - 1) fun _ => f } := by
    refine stays_modify e _ fun g hg => ?_
    rw [hf, frame, Array.back?_eq_getElem?, hg, Option.getD_some]
  exact ⟨rfl, rfl, hmodify.function_eq, Nat.le_refl _⟩

theorem stays_setCellValue (e : Engine) (c : CellRef) (v : Value) :
    e.Stays (e.setCellValue c v) := by
  rw [setCellValue]
  split
  · exact stays_modify e _ fun f _ => f.function_set _ v
  · exact ⟨rfl, rfl, rfl, Nat.le_refl _⟩

instance : Instructs Stays where
  updateFrame hg _ := stays_updateFrame hg
  capture e r := e.stays_replaceFrame _ (e.frame.function_capture e.heap r)
  setCellValue := stays_setCellValue
  closeCells e _ := e.stays_replaceFrame _ rfl

theorem config_new (config : Config) : (new config).config = config :=
  (supplies_new (R := Stays) config).config_eq

end Engine

/-! ### Work that stays on the stack -/

/-- The work in hand leaves the functions on the stack as they are. -/
def Activity.Stays : Activity → Prop
  | script _ p => p.Walks Engine.Stays p.engine
  | host p => p.Walks Engine.Stays p.engine
  | ended _ _ => True

/-- So does work that waits, when it goes on. -/
def Waiting.Stays : Waiting → Prop
  | script _ go => ∀ r e, (go r e).Walks Engine.Stays e
  | host go => ∀ r e, (go r e).Walks Engine.Stays e

/-- All work of a machine leaves the functions on the stack as they are. -/
structure Machine.Stays (m : Machine) : Prop where
  activity : m.activity.Stays
  waiting : ∀ x ∈ m.waiting, x.Stays

/-! ### Steps -/

/-- The job that the work in hand awaits. -/
def Activity.job? : Activity → Option Job
  | script _ (.await job _ _) => some job
  | host (.await job _ _) => some job
  | _ => none

namespace Machine

/-- Work that awaits a job is put aside, and the job begins. -/
theorem step_of_job? {m : Machine} {job : Job} (h : m.activity.job? = some job) :
    ∃ x, m.step = some ⟨m.engine.begin job, x :: m.waiting⟩ := by
  obtain ⟨a, w⟩ := m
  cases a with
  | ended r e => exact absurd h (by simp [Activity.job?])
  | script base p =>
    cases p with
    | await job' e go =>
      obtain rfl := Option.some.inj h
      exact ⟨.script base go, rfl⟩
    | _ => exact absurd h (by simp [Activity.job?])
  | host p =>
    cases p with
    | await job' e go =>
      obtain rfl := Option.some.inj h
      exact ⟨.host go, rfl⟩
    | _ => exact absurd h (by simp [Activity.job?])

/-- A chunk is loaded: by an operation, or because the work in hand awaits it. -/
inductive Loads : Machine → Machine → Prop where
  | operation (r : Except Fault (List Value)) (e : Engine) (p : Prototype) :
      Loads ⟨.ended r e, []⟩ ((Operation.load p).start e)
  | job {m m' : Machine} (p : Prototype) (hjob : m.activity.job? = some (.chunk p))
      (h : m.step = some m') : Loads m m'

theorem Loads.next {m m' : Machine} (h : m.Loads m') : m.Next m' := by
  cases h with
  | operation r e p => exact .operation r e _
  | job p hjob h => exact .step h

/-- How a step moves the call stack. -/
inductive Move (m m' : Machine) : Prop where
  /-- The same functions are on the stack. -/
  | stay (h : m.engine.Stays m'.engine)
  /-- A host function starts, and works up to its first wait. -/
  | enter (hfull : m.engine.isFull = false) (h : m.engine.enterNative.Stays m'.engine)
  /-- A function starts. -/
  | push (c : Closure) (args : List Value) (hfull : m.engine.isFull = false)
    (h : m'.engine = m.engine.push c args)
  /-- A chunk is loaded. -/
  | load (p : Prototype) (hload : m.Loads m') (h : m'.engine = m.engine.load p)
  /-- The function in hand is left. -/
  | leave (base : Nat) (p : Progress Bool) (hp : m.activity = .script base p)
    (h : m'.engine = (m.engine.unwindTo base).2)

/-- The beginning of a job is refused, or it starts a function or loads a chunk. -/
theorem stays_begin (e : Engine) (job : Job) :
    (e.begin job).Stays ∧
      (e.Stays (e.begin job).engine ∨
        e.isFull = false ∧ e.enterNative.Stays (e.begin job).engine ∨
        (e.isFull = false ∧ ∃ c args, (e.begin job).engine = e.push c args) ∨
        ∃ p, job = .chunk p ∧ (e.begin job).engine = e.load p) := by
  cases job with
  | chunk p => exact ⟨.refl _, .inr (.inr (.inr ⟨p, rfl, rfl⟩))⟩
  | call f args =>
    rw [Engine.begin]
    cases e.callee f args with
    | error c => exact ⟨trivial, .inl (.refl e)⟩
    | ok g =>
      obtain ⟨g, args⟩ := g
      cases hfull : e.isFull with
      | true => exact ⟨trivial, .inl (.refl e)⟩
      | false =>
        cases g with
        | closure c => exact ⟨.refl _, .inr (.inr (.inl ⟨rfl, c, args, rfl⟩))⟩
        | native name body =>
          have hwalks := ((body args).walks_act (R := Engine.Stays) e.enterNative).atEnd
            (g := Engine.leaveNative) fun e => ⟨rfl, rfl, rfl, Nat.sub_le _ _⟩
          exact ⟨hwalks.self, .inr (.inl ⟨rfl, hwalks.engine⟩)⟩

theorem Stays.await {a : Activity} {x : Waiting} {w : List Waiting} {job : Job}
    (hjob : a.job? = some job) (hstep : step ⟨a, w⟩ = some ⟨a.engine.begin job, x :: w⟩)
    (hwaiting : ∀ y ∈ x :: w, y.Stays) :
    Stays ⟨a.engine.begin job, x :: w⟩ ∧ Move ⟨a, w⟩ ⟨a.engine.begin job, x :: w⟩ := by
  obtain ⟨hstays, hmove⟩ := stays_begin a.engine job
  refine ⟨⟨hstays, hwaiting⟩, ?_⟩
  obtain hsame | ⟨hfull, henter⟩ | ⟨hfull, c, args, hpush⟩ | ⟨p, rfl, hload⟩ := hmove
  · exact .stay hsame
  · exact .enter hfull henter
  · exact .push c args hfull hpush
  · exact .load p (.job p hjob hstep) hload

theorem Stays.step {m m' : Machine} (h : m.Stays) (hstep : m.step = some m') :
    m'.Stays ∧ m.Move m' := by
  match m with
  | ⟨.script base (.done false e), w⟩ =>
    obtain rfl := Option.some.inj hstep
    have hwalks := e.walks_step_of_instructs (R := Engine.Stays)
    exact ⟨⟨hwalks.self, h.waiting⟩, .stay hwalks.engine⟩
  | ⟨.script base (.done true e), w⟩ | ⟨.script base (.fault f e), w⟩ =>
    obtain rfl := Option.some.inj hstep
    exact ⟨⟨trivial, h.waiting⟩, .leave base _ rfl rfl⟩
  | ⟨.script base (.await job e go), w⟩ =>
    obtain rfl := Option.some.inj hstep
    exact Stays.await (a := .script base (.await job e go)) (x := .script base go) rfl rfl
      (List.forall_mem_cons.2 ⟨h.activity.2, h.waiting⟩)
  | ⟨.host (.await job e go), w⟩ =>
    obtain rfl := Option.some.inj hstep
    exact Stays.await (a := .host (.await job e go)) (x := .host go) rfl rfl
      (List.forall_mem_cons.2 ⟨h.activity.2, h.waiting⟩)
  | ⟨.host (.done vs e), w⟩ | ⟨.host (.fault f e), w⟩ =>
    obtain rfl := Option.some.inj hstep
    exact ⟨⟨trivial, h.waiting⟩, .stay (.refl e)⟩
  | ⟨.ended r e, .script base go :: w⟩ | ⟨.ended r e, .host go :: w⟩ =>
    obtain rfl := Option.some.inj hstep
    obtain ⟨hgo, hwaiting⟩ := List.forall_mem_cons.1 h.waiting
    have hwalks : (go r e).Walks Engine.Stays e := hgo r e
    exact ⟨⟨hwalks.self, hwaiting⟩, .stay hwalks.engine⟩

theorem stays_start (r : Except Fault (List Value)) (e : Engine) (o : Operation) :
    (o.start e).Stays ∧ Move ⟨.ended r e, []⟩ (o.start e) := by
  have none : ∀ x ∈ ([] : List Waiting), x.Stays := by simp
  match o with
  | .load p => exact ⟨⟨trivial, none⟩, .load p (.operation r e p) rfl⟩
  | .register name body | .setGlobal name v | .newTable =>
    exact ⟨⟨trivial, none⟩, .stay ⟨rfl, rfl, rfl, Nat.le_refl _⟩⟩
  | .serve h =>
    have hwalks := h.walks_act (R := Engine.Stays) e
    exact ⟨⟨hwalks.self, none⟩, .stay hwalks.engine⟩
  | .run =>
    rw [Operation.start]
    split
    · exact ⟨⟨trivial, none⟩, .stay (.refl e)⟩
    · exact ⟨⟨.refl e, none⟩, .stay (.refl e)⟩

theorem Stays.next {m m' : Machine} (h : m.Stays) (hn : m.Next m') : m'.Stays ∧ m.Move m' := by
  cases hn with
  | step hstep => exact h.step hstep
  | operation r e o => exact stays_start r e o

theorem Reachable.stays {config : Config} {m : Machine} (h : Reachable config m) : m.Stays :=
  h.invariant ⟨trivial, by simp [new]⟩ fun _ _ hm hn => (hm.next hn).1

/-- **The moves of a run.**  Functions start only below the limit, and are left; chunks are loaded;
all else leaves the functions on the stack as they are. -/
theorem Reachable.move {config : Config} {m m' : Machine} (h : Reachable config m)
    (hn : m.Next m') : m.Move m' := (h.stays.next hn).2

end Machine

end LuaBytecode
