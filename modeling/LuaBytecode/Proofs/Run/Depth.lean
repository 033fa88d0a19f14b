import LuaBytecode.Proofs.Run.Isolation
import LuaBytecode.Proofs.Run.Move

/-!
# The depth of calls is bounded

A call may nest in five ways: by an instruction, by a metamethod, by a loop, by a host function,
and by a chunk that a host function runs.  All of them count, and all but loading a chunk are
refused at the limit.

* `Machine.History` : a run with the serial numbers of the frames that were loaded in it.
* `Machine.History.depth_le` : **frames and host functions are at most as many as the limit allows,
  and one more for each loaded frame.**
* `Engine.begin_eq_overflow_iff` : a call of a function is refused exactly at the limit.
* `Machine.depth_bounded` : both, and that calls leave the counters as they found them.
-/

namespace LuaBytecode

variable {config : Config} {m m' : Machine} {loaded : List Nat} {e e' : Engine}

/-! ### Loaded frames -/

namespace Machine

/-- A run from a new engine to a machine, with the serial numbers of the frames that were pushed
by loading a chunk. -/
inductive History (config : Config) : List Nat → Machine → Prop where
  | new : History config [] (new config)
  | next {loaded : List Nat} {m m' : Machine} (h : History config loaded m) (hn : m.Next m')
      (hload : ¬ m.Loads m') : History config loaded m'
  | load {loaded : List Nat} {m m' : Machine} (h : History config loaded m) (hload : m.Loads m') :
      History config (m'.engine.frame.id.serial :: loaded) m'

theorem Reachable.exists_history (h : Reachable config m) : ∃ loaded, History config loaded m := by
  induction h with
  | refl => exact ⟨[], .new⟩
  | @tail m m' _ hn ih =>
    obtain ⟨loaded, hm⟩ := ih
    by_cases hload : m.Loads m'
    · exact ⟨_, hm.load hload⟩
    · exact ⟨loaded, hm.next hn hload⟩

end Machine

namespace Engine

/-- The number of frames on the stack whose serial numbers are given. -/
def countLoaded (loaded : List Nat) (e : Engine) : Nat :=
  e.frames.countP fun f => f.id.serial ∈ loaded

/-- There are no more frames and host functions than the limit allows, apart from loaded frames. -/
def Bounded (loaded : List Nat) (e : Engine) : Prop :=
  e.depth + e.nativeDepth ≤ e.config.maxCallDepth + e.countLoaded loaded

theorem isFull_eq_false_iff :
    e.isFull = false ↔ e.depth + e.nativeDepth < e.config.maxCallDepth := by
  rw [isFull, decide_eq_false_iff_not, Nat.not_le]

theorem Stays.countLoaded_eq (h : e.Stays e') (loaded : List Nat) :
    e'.countLoaded loaded = e.countLoaded loaded := by
  have hmap (e : Engine) : e.countLoaded loaded =
      (e.frames.map Frame.function).countP fun f => f.1.serial ∈ loaded := by
    rw [countLoaded, Array.countP_map]
    rfl
  rw [hmap, hmap, h.function_eq]

theorem countLoaded_le_cons (loaded : List Nat) (serial : Nat) (e : Engine) :
    e.countLoaded loaded ≤ e.countLoaded (serial :: loaded) :=
  Array.countP_mono_left fun f _ hf => by
    simpa using Or.inr (by simpa using hf)

/-- A loaded frame counts. -/
theorem countLoaded_load (e : Engine) (p : Prototype) (loaded : List Nat) :
    e.countLoaded loaded + 1 ≤
      (e.load p).countLoaded ((e.load p).frame.id.serial :: loaded) := by
  have hframes : (e.load p).frames = e.frames.push (e.load p).frame := frames_push _ _ _
  rw [countLoaded, countLoaded, hframes, Array.countP_push, if_pos (by simp)]
  exact Nat.succ_le_succ (e.countLoaded_le_cons loaded _)

/-- With a frame at most one loaded frame goes. -/
theorem countLoaded_pop (e : Engine) (loaded : List Nat) :
    e.countLoaded loaded + e.pop.2.depth ≤ e.pop.2.countLoaded loaded + e.depth := by
  have hpop : e.pop.2.frames = e.frames.pop := rfl
  rw [countLoaded, countLoaded, depth, depth, hpop]
  by_cases hzero : e.frames.size = 0
  · rw [Array.eq_empty_of_size_eq_zero hzero]
    exact Nat.le_refl _
  · obtain ⟨fs, f, hfs⟩ := Array.eq_push_of_size_ne_zero hzero
    rw [hfs, Array.pop_push, Array.countP_push, Array.size_push]
    split <;> omega

theorem countLoaded_popMany (n : Nat) (r : List Value × Engine) (loaded : List Nat) :
    r.2.countLoaded loaded + (popMany n r).2.depth ≤
      (popMany n r).2.countLoaded loaded + r.2.depth := by
  induction n generalizing r with
  | zero => exact Nat.le_refl _
  | succ n ih =>
    have hrest := ih r.2.pop
    have hpop := countLoaded_pop r.2 loaded
    rw [popMany]
    omega

theorem config_popMany (n : Nat) (r : List Value × Engine) :
    (popMany n r).2.config = r.2.config := by
  induction n generalizing r with
  | zero => rfl
  | succ n ih => exact ih _

/-! ### The bound -/

namespace Bounded

theorem stays (hb : e.Bounded loaded) (h : e.Stays e') : e'.Bounded loaded := by
  have hnative := h.nativeDepth_le
  rw [Bounded] at hb ⊢
  rw [h.depth_eq, h.config_eq, h.countLoaded_eq]
  omega

theorem enterNative (loaded : List Nat) (hfull : e.isFull = false) :
    e.enterNative.Bounded loaded :=
  Nat.le_add_right_of_le (isFull_eq_false_iff.1 hfull)

theorem push (loaded : List Nat) (hfull : e.isFull = false) (c : Closure) (args : List Value) :
    (e.push c args).Bounded loaded := by
  have hlt := isFull_eq_false_iff.1 hfull
  rw [Bounded, depth_push]
  change e.depth + 1 + e.nativeDepth ≤ e.config.maxCallDepth + _
  omega

theorem load (hb : e.Bounded loaded) (p : Prototype) :
    (e.load p).Bounded ((e.load p).frame.id.serial :: loaded) := by
  have hcount := e.countLoaded_load p loaded
  rw [Bounded, depth_load] at *
  change e.depth + 1 + e.nativeDepth ≤ e.config.maxCallDepth + _
  omega

theorem unwindTo (hb : e.Bounded loaded) (depth : Nat) : (e.unwindTo depth).2.Bounded loaded := by
  have hcount := countLoaded_popMany (e.frames.size - depth) ([], e) loaded
  have hnative := nativeDepth_popMany (e.frames.size - depth) ([], e)
  have hconfig := config_popMany (e.frames.size - depth) ([], e)
  rw [Bounded] at hb ⊢
  rw [Engine.unwindTo, hnative, hconfig]
  dsimp only at hcount ⊢
  omega

end Bounded

end Engine

namespace Machine

/-- Every move keeps the options of the engine. -/
theorem Move.config_eq (h : m.Move m') : m'.engine.config = m.engine.config := by
  cases h with
  | stay h => exact h.config_eq
  | enter _ h => exact h.config_eq
  | push c args _ h => rw [h]; rfl
  | load p _ h => rw [h]; rfl
  | leave base _ _ h => rw [h]; exact Engine.config_popMany _ _

theorem Reachable.config_eq (h : Reachable config m) : m.engine.config = config := by
  induction h with
  | refl => exact Engine.config_new config
  | tail hm hn ih => exact (Reachable.move hm hn).config_eq.trans ih

/-- A move that loads no chunk keeps the bound. -/
theorem Move.bounded (h : m.Move m') (hb : m.engine.Bounded loaded) (hload : ¬ m.Loads m') :
    m'.engine.Bounded loaded := by
  cases h with
  | stay h => exact hb.stays h
  | enter hfull h => exact (Engine.Bounded.enterNative loaded hfull).stays h
  | push c args hfull h => exact h ▸ .push loaded hfull c args
  | load p hl h => exact absurd hl hload
  | leave base _ _ h => exact h ▸ hb.unwindTo base

theorem Loads.exists_load (h : m.Loads m') : ∃ p, m'.engine = m.engine.load p := by
  cases h with
  | operation r e p => exact ⟨p, rfl⟩
  | job p hjob h =>
    obtain ⟨x, hx⟩ := step_of_job? hjob
    obtain rfl := Option.some.inj (hx.symm.trans h)
    exact ⟨p, rfl⟩

namespace History

theorem reachable (h : History config loaded m) : Reachable config m := by
  induction h with
  | new => exact .refl
  | next _ hn _ ih => exact ih.tail hn
  | load _ hload ih => exact ih.tail hload.next

/-- **The depth of calls is bounded**, by induction on the run: a function starts only below the
limit, and a loaded frame counts on both sides. -/
theorem bounded (h : History config loaded m) : m.engine.Bounded loaded := by
  induction h with
  | new =>
    have hstays := Engine.supplies_new (R := Engine.Stays) config
    exact Engine.Bounded.stays (Nat.zero_le _) hstays
  | next hm hn hload ih => exact (hm.reachable.move hn).bounded ih hload
  | load _ hload ih =>
    obtain ⟨p, hp⟩ := hload.exists_load
    rw [hp]
    exact ih.load p

end History

end Machine

/-! ### Refused calls -/

namespace Engine

/-- The value is a function, or it has one as metamethod for calls. -/
def IsCallable (e : Engine) (f : Value) : Prop :=
  ∃ r g, e.heap.function? r = some g ∧
    (f = .function r ∨ (∀ r', f ≠ .function r') ∧ e.metamethod f "__call" = .function r)

theorem IsCallable.exists_callee {f : Value} (h : e.IsCallable f) (args : List Value) :
    ∃ g args', e.callee f args = .ok (g, args') := by
  obtain ⟨r, g, hg, rfl | ⟨hf, hm⟩⟩ := h
  · exact ⟨g, args, by simp only [callee, functionAt, hg]; rfl⟩
  · refine ⟨g, f :: args, ?_⟩
    have hcallee : e.callee f args = (e.functionAt r).map (·, f :: args) := by
      cases f with
      | function r' => exact absurd rfl (hf r')
      | _ => simp only [callee, hm]
    rw [hcallee, functionAt, hg]
    rfl

/-- **A call of a function is refused exactly at the limit**; it leaves the engine as it was. -/
theorem begin_eq_overflow_iff {f : Value} (h : e.IsCallable f) (args : List Value) :
    e.begin (.call f args) = .ended (.error (.ofCause .stackOverflow)) e ↔ e.isFull = true := by
  obtain ⟨g, args', hg⟩ := h.exists_callee args
  rw [begin, hg]
  cases e.isFull with
  | true => simp
  | false => cases g <;> simp

end Engine

namespace Machine

/-- A job keeps the options of the engine. -/
theorem config_of_perform {n : Nat} {job : Job} {r : Except Fault (List Value)}
    (h : Engine.perform n job e = .of r e') : e'.config = e.config := by
  have hbegin : (e.begin job).engine.config = e.config := by
    obtain hsame | ⟨-, henter⟩ | ⟨-, c, args, hpush⟩ | ⟨p, -, hload⟩ := (stays_begin e job).2
    · exact hsame.config_eq
    · exact henter.config_eq
    · rw [hpush]
      rfl
    · rw [hload]
      rfl
  have hsteps : ∀ {m : Machine}, Steps { activity := e.begin job } m →
      m.Stays ∧ m.engine.config = e.config := by
    intro m hm
    induction hm with
    | refl => exact ⟨⟨(stays_begin e job).1, by simp⟩, hbegin⟩
    | tail _ hstep ih =>
      obtain ⟨hstays, hmove⟩ := ih.1.step hstep
      exact ⟨hstays, hmove.config_eq.trans ih.2⟩
  exact (hsteps (steps_perform h [])).2

/-- **Call depth is bounded for every program.**  In every state of every run, frames and running
host functions are no more than the limit, and one more for each frame on the stack that was
pushed by loading a chunk.  At the limit, and only there, a call of a function fails with a stack
overflow: nothing of the function runs, and the engine stays as it was.  When a call has ended, well
or not, both counters are back, and later calls are refused if they would have been before. -/
theorem depth_bounded (h : Reachable config m) :
    (∃ loaded, History config loaded m) ∧
    (∀ loaded, History config loaded m →
      m.engine.depth + m.engine.nativeDepth ≤
        config.maxCallDepth + m.engine.countLoaded loaded) ∧
    (∀ f args, m.engine.IsCallable f →
      (m.engine.begin (.call f args) = .ended (.error (.ofCause .stackOverflow)) m.engine ↔
        config.maxCallDepth ≤ m.engine.depth + m.engine.nativeDepth) ∧
      (config.maxCallDepth ≤ m.engine.depth + m.engine.nativeDepth → ∀ n,
        Engine.perform (n + 1) (.call f args) m.engine =
          .fault (.ofCause .stackOverflow) m.engine)) ∧
    ∀ n job r e', Engine.perform n job m.engine = .of r e' →
      e'.depth = m.engine.depth ∧ e'.nativeDepth = m.engine.nativeDepth ∧
      ∀ f args, e'.IsCallable f →
        (e'.begin (.call f args) = .ended (.error (.ofCause .stackOverflow)) e' ↔
          config.maxCallDepth ≤ m.engine.depth + m.engine.nativeDepth) := by
  have hconfig := h.config_eq
  have isFull_iff (e : Engine) (he : e.config = config) :
      e.isFull = true ↔ config.maxCallDepth ≤ e.depth + e.nativeDepth := by
    rw [Engine.isFull, decide_eq_true_iff, he]
  refine ⟨h.exists_history, fun loaded hm => ?_, fun f args hf => ?_, fun n job r e' hjob => ?_⟩
  · have hbounded := hm.bounded
    rwa [Engine.Bounded, hconfig] at hbounded
  · have hrefused := (Engine.begin_eq_overflow_iff hf args).trans (isFull_iff _ hconfig)
    refine ⟨hrefused, fun hfull n => ?_⟩
    rw [perform_succ, hrefused.2 hfull]
    rfl
  · have hspares := (Engine.perform_execute_spares n).1 job _ r e' hjob
    refine ⟨hspares.depth_eq, hspares.nativeDepth_eq, fun f args hf => ?_⟩
    rw [Engine.begin_eq_overflow_iff hf, isFull_iff _ ((config_of_perform hjob).trans hconfig),
      hspares.depth_eq, hspares.nativeDepth_eq]

/-- A chunk with a function that calls itself. -/
def recursing : Prototype :=
  { code := #[.abx .closure 0 0, .abc .call 0 1 1, .abc .ret 0 1 0]
    protos := #[{
      code := #[.abc .getUpvalue 0 0 0, .abc .call 0 1 1, .abc .ret 0 1 0]
      upvalues := #[.register 0] }] }

/-- An engine in which two calls may be nested, with the chunk loaded. -/
def shallow : Engine := (Engine.new { maxCallDepth := 2, openBaseLibrary := false }).load recursing

theorem reachable_shallow :
    Reachable { maxCallDepth := 2, openBaseLibrary := false } (Operation.run.start shallow) :=
  (Relation.ReflTransGen.refl.tail (.operation _ _ (.load recursing))).tail (.operation _ _ .run)

/-- The function that the chunk calls cannot call itself. -/
theorem depth_bounded_recursing :
    let m := (Operation.run.start shallow).after 5
    m.activity.job? = some (.call (.function ⟨0⟩) []) ∧
    m.engine.depth + m.engine.nativeDepth = 2 ∧
    (∃ loaded, 2 ≤ 2 + m.engine.countLoaded loaded) ∧
    ∀ n, Engine.perform (n + 1) (.call (.function ⟨0⟩) []) m.engine =
      .fault (.ofCause .stackOverflow) m.engine := by
  have hjob : ((Operation.run.start shallow).after 5).activity.job? =
      some (.call (.function ⟨0⟩) []) := rfl
  have hdepth : ((Operation.run.start shallow).after 5).engine.depth +
      ((Operation.run.start shallow).after 5).engine.nativeDepth = 2 := rfl
  obtain ⟨⟨loaded, hloaded⟩, hbound, hcall, -⟩ := depth_bounded (reachable_shallow.after 5)
  have hbound := hbound loaded hloaded
  rw [hdepth] at hbound hcall
  exact ⟨hjob, hdepth, ⟨loaded, hbound⟩,
    (hcall (.function ⟨0⟩) [] ⟨⟨0⟩, _, rfl, .inl rfl⟩).2 (Nat.le_refl 2)⟩

end Machine

end LuaBytecode
