import LuaBytecode.Proofs.Run.Isolation

/-!
# The call stack is balanced between operations

An embedding program loads chunks, runs them, and calls into the engine in between, in any order.
Scripts and host functions may fail at any depth.  Whatever has happened, when the program has its
turn again no host function is counted as running, and the stack holds the chunks that still wait
to be run.

* `Session` : an engine after any operations, and the frames of the chunks that wait.
* `Engine.Rests` : the stack holds those frames, untouched, and no host function is running.
* `Operation.Ends.rests` : an operation that ends leaves an engine at rest.
* `Engine.Balanced` : what each operation does to the stack.
* `Session.balanced_of_session` : **the stack is balanced after any operations.**

A frame that waits has captured nothing yet, so `Frame.Keeps` says that it is just as it was.
-/

namespace LuaBytecode

variable {config : Config} {fs : List Frame} {e e' e₁ : Engine} {o : Operation}
  {r : Except Fault (List Value)}

namespace Engine

/-! ### Frames that wait -/

/-- A frame without captures that is spared is just as it was. -/
theorem Spares.getElem?_eq {k i : Nat} (h : e.Spares k e₁) (hl : e.Linked) (hi : i + k < e.depth)
    (hopen : ∀ f ∈ e.frames, f.openCells = []) : e₁.frames[i]? = e.frames[i]? := by
  obtain ⟨f, hf⟩ : ∃ f, e.frames[i]? = some f :=
    ⟨_, Array.getElem?_eq_getElem (Nat.lt_of_le_of_lt (Nat.le_add_right i k) hi)⟩
  obtain ⟨f', hf', hkeeps⟩ := h.frame hl hi hf
  rw [hf', hf, hkeeps.eq_of_openCells (hopen f (Array.mem_of_getElem? hf))]

/-- Work that spares all frames leaves the stack as it is, if nothing is captured. -/
theorem Spares.frames_eq (h : e.Spares 0 e₁) (hl : e.Linked)
    (hopen : ∀ f ∈ e.frames, f.openCells = []) : e₁.frames = e.frames := by
  refine Array.ext_getElem? fun i => ?_
  by_cases hi : i < e.depth
  · exact h.getElem?_eq hl hi hopen
  · have hsize : e₁.frames.size = e.frames.size := h.depth_eq
    rw [Array.getElem?_eq_none (Nat.le_of_not_lt hi),
      Array.getElem?_eq_none (hsize ▸ Nat.le_of_not_lt hi)]

/-- A function that spares the frames below it takes its own frame away when it is left. -/
theorem Spares.frames_unwindTo (h : e.Spares 1 e₁) (hl : e.Linked)
    (hopen : ∀ f ∈ e.frames, f.openCells = []) :
    (e₁.unwindTo (e.depth - 1)).2.frames = e.frames.pop := by
  have hle : e.depth - 1 ≤ e₁.depth := h.depth_eq ▸ Nat.sub_le _ _
  refine Array.ext_getElem? fun i => ?_
  rw [getElem?_unwindTo hle, Array.getElem?_pop]
  change _ = if i < e.depth - 1 then _ else _
  split
  · exact h.getElem?_eq hl (by omega) hopen
  · rfl

/-! ### Engines at rest -/

/-- The frames `fs` are on the stack, the latest first, and have captured nothing.  No host
function is running. -/
structure Rests (fs : List Frame) (e : Engine) : Prop where
  frames_eq : e.frames.toList = fs.reverse
  nativeDepth_eq : e.nativeDepth = 0
  openCells_eq : ∀ f ∈ fs, f.openCells = []

namespace Rests

theorem new (config : Config) : (Engine.new config).Rests [] := by
  have hspares : Spares 0 (empty config) (Engine.new config) := supplies_new config
  have hframes : (Engine.new config).frames = #[] := Array.eq_empty_of_size_eq_zero hspares.depth_eq
  exact ⟨by rw [hframes]; rfl, hspares.nativeDepth_eq, by simp⟩

theorem depth_eq (h : e.Rests fs) : e.depth = fs.length := by
  rw [depth, ← Array.length_toList, h.frames_eq, List.length_reverse]

/-- The running frame is the one that was loaded last. -/
theorem frame_eq {f : Frame} (h : e.Rests (f :: fs)) : e.frame = f := by
  rw [frame, ← Array.getLast?_toList, h.frames_eq, List.getLast?_reverse]
  rfl

/-- No frame has captured anything. -/
theorem openCells (h : e.Rests fs) : ∀ f ∈ e.frames, f.openCells = [] := by
  intro f hf
  refine h.openCells_eq f ?_
  rwa [← List.mem_reverse, ← h.frames_eq, Array.mem_toList_iff]

theorem spares (h : e.Rests fs) (hl : e.Linked) (hspares : e.Spares 0 e') : e'.Rests fs :=
  ⟨(hspares.frames_eq hl h.openCells).symm ▸ h.frames_eq,
    hspares.nativeDepth_eq.trans h.nativeDepth_eq, h.openCells_eq⟩

theorem load (h : e.Rests fs) (p : Prototype) : (e.load p).Rests ((e.load p).frame :: fs) := by
  refine ⟨?_, h.nativeDepth_eq, ?_⟩
  · rw [Engine.load, frames_push, Array.toList_push, h.frames_eq, List.reverse_cons]
  · exact List.forall_mem_cons.2 ⟨openCells_push _ _ _, h.openCells_eq⟩

theorem pop (h : e.Rests fs) (hframes : e'.frames = e.frames.pop)
    (hnative : e'.nativeDepth = e.nativeDepth) : e'.Rests fs.tail := by
  refine ⟨?_, hnative.trans h.nativeDepth_eq, fun f hf => ?_⟩
  · rw [hframes, Array.toList_pop, h.frames_eq, List.dropLast_reverse]
  · exact h.openCells_eq f (List.mem_of_mem_tail hf)

end Rests

end Engine

/-! ### Operations -/

namespace Operation

/-- The frames that are pending after an operation, if it starts in `e` with `fs`. -/
def pending (e : Engine) (fs : List Frame) : Operation → List Frame
  | load p => (e.load p).frame :: fs
  | run => fs.tail
  | _ => fs

/-- An operation with nothing to run has ended when it starts. -/
theorem ends_iff_of_start {r₀ : Except Fault (List Value)} {e₀ : Engine}
    (h : o.start e = { activity := .ended r₀ e₀ }) : o.Ends e r e' ↔ r = r₀ ∧ e' = e₀ := by
  rw [Ends, h]
  constructor
  · intro hsteps
    obtain hsame | ⟨m, hstep, -⟩ := hsteps.cases_head
    · cases hsame
      exact ⟨rfl, rfl⟩
    · exact absurd hstep (by simp [Machine.step])
  · rintro ⟨rfl, rfl⟩
    exact .refl

theorem load_ends_iff {p : Prototype} : (load p).Ends e r e' ↔ r = .ok [] ∧ e' = e.load p :=
  ends_iff_of_start rfl

/-- Without a chunk there is nothing to run. -/
theorem run_ends_iff_of_depth_eq_zero (h : e.depth = 0) :
    run.Ends e r e' ↔ r = .error (.ofCause (.misuse .nothingLoaded)) ∧ e' = e :=
  ends_iff_of_start (by rw [start, if_pos h])

/-- To run a chunk is to execute the frame that was loaded last, and to leave it. -/
theorem run_ends_iff (hpos : 0 < e.depth) :
    run.Ends e r e' ↔ ∃ n, (Engine.execute n e).unwindTo (e.depth - 1) = .of r e' := by
  rw [Ends, start, if_neg (Nat.pos_iff_ne_zero.1 hpos)]
  refine ⟨Machine.exists_finish_of_steps, ?_⟩
  rintro ⟨n, h⟩
  exact Machine.steps_finish n (.script (e.depth - 1) (.done false e)) h []

/-- A run takes one frame away, whatever comes of it. -/
theorem Ends.frames_run (hpos : 0 < e.depth) (hl : e.Linked)
    (hopen : ∀ f ∈ e.frames, f.openCells = []) (h : run.Ends e r e') :
    e'.frames = e.frames.pop ∧ e'.nativeDepth = e.nativeDepth := by
  obtain ⟨n, hn⟩ := (run_ends_iff hpos).1 h
  obtain ⟨s, e₁, hs, rfl⟩ := Outcome.exists_of_unwindTo hn
  have hspares : e.Spares 1 e₁ := (Engine.perform_execute_spares n).2 e s e₁ hs
  exact ⟨hspares.frames_unwindTo hl hopen,
    (Engine.nativeDepth_popMany _ _).trans hspares.nativeDepth_eq⟩

/-- All other operations spare all frames. -/
theorem Ends.spares (hload : ∀ p, o ≠ load p) (hrun : o ≠ run) (h : o.Ends e r e') :
    e.Spares 0 e' := by
  match o with
  | load p => exact absurd rfl (hload p)
  | run => exact absurd rfl hrun
  | register name body | setGlobal name v | newTable =>
    obtain ⟨-, rfl⟩ := (ends_iff_of_start rfl).1 h
    exact Engine.Serves.serve e _ _ rfl
  | serve h' =>
    obtain ⟨n, hn⟩ := Machine.exists_finish_of_steps h
    exact (h'.walks_act e).settle (Engine.perform_execute_spares n).1 hn

/-- **An operation that ends leaves an engine at rest.** -/
theorem Ends.rests (h : o.Ends e r e') (hl : e.Linked) (hrests : e.Rests fs) :
    e'.Rests (o.pending e fs) := by
  match o with
  | load p =>
    obtain ⟨-, rfl⟩ := load_ends_iff.1 h
    exact hrests.load p
  | run =>
    obtain hzero | hpos := Nat.eq_zero_or_pos e.depth
    · -- nothing is pending, and the tail of no frames is no frames
      obtain ⟨-, rfl⟩ := (run_ends_iff_of_depth_eq_zero hzero).1 h
      obtain rfl : fs = [] := List.eq_nil_of_length_eq_zero (hrests.depth_eq.symm.trans hzero)
      exact hrests
    · obtain ⟨hframes, hnative⟩ := h.frames_run hpos hl hrests.openCells
      exact hrests.pop hframes hnative
  | register name body | setGlobal name v | newTable | serve h' =>
    exact hrests.spares hl (h.spares (by simp) (by simp))

end Operation

/-! ### Sessions -/

/-- An engine after any operations, and the frames of the chunks that were loaded and are still to
be run, the latest first, as they were when they were loaded. -/
inductive Session (config : Config) : List Frame → Engine → Prop where
  | new : Session config [] (.new config)
  | operation {fs : List Frame} {e e' : Engine} {r : Except Fault (List Value)} (o : Operation)
      (h : Session config fs e) (ho : o.Ends e r e') : Session config (o.pending e fs) e'

/-- What operations do to the call stack, which holds the frames `fs`, the latest first. -/
structure Engine.Balanced (fs : List Frame) (e : Engine) : Prop where
  /-- The pending frames are on the stack, as they were loaded, and no others. -/
  frames_eq : e.frames.toList = fs.reverse
  /-- No host function is running. -/
  nativeDepth_eq : e.nativeDepth = 0
  /-- To load a chunk puts one frame on the stack. -/
  load : ∀ p r e', (Operation.load p).Ends e r e' ↔ r = .ok [] ∧ e' = e.load p ∧
    e'.depth = e.depth + 1 ∧ e'.frames = e.frames.push e'.frame
  /-- On an empty stack there is nothing to run, and nothing changes. -/
  run_nil : fs = [] → ∀ r e', Operation.run.Ends e r e' ↔
    r = .error (.ofCause (.misuse .nothingLoaded)) ∧ e' = e
  /-- Otherwise the frame that was loaded last is executed and taken off the stack, whether or not
  it fails. -/
  run_cons : ∀ f fs', fs = f :: fs' → e.frame = f ∧ ∀ r e', Operation.run.Ends e r e' →
    (∃ n, (Engine.execute n e).unwindTo (e.depth - 1) = .of r e') ∧
      e'.depth + 1 = e.depth ∧ e'.frames = e.frames.pop
  /-- All other operations leave the stack as it is. -/
  other : ∀ o : Operation, (∀ p, o ≠ .load p) → o ≠ .run → ∀ r e', o.Ends e r e' →
    e'.depth = e.depth ∧ e'.frames = e.frames
  /-- In particular, calls and indexing do so. -/
  call : ∀ f args r e', Engine.call f args e = .of r e' → e'.frames = e.frames
  callGlobal : ∀ name args r e', Engine.callGlobal name args e = .of r e' → e'.frames = e.frames
  index : ∀ object key r e', Engine.index object key e = .of r e' → e'.frames = e.frames
  /-- After an operation no host function is running. -/
  idle : ∀ (o : Operation) r e', o.Ends e r e' → e'.nativeDepth = 0

theorem Engine.Rests.frames_of_ends_serve {h' : Host} (h : e.Rests fs) (hl : e.Linked)
    (ho : (Operation.serve h').Ends e r e') : e'.frames = e.frames :=
  (ho.spares (by simp) (by simp)).frames_eq hl h.openCells

/-- At rest, operations do as described. -/
theorem Engine.Rests.balanced (h : e.Rests fs) (hl : e.Linked) : e.Balanced fs where
  frames_eq := h.frames_eq
  nativeDepth_eq := h.nativeDepth_eq
  load p r e' := by
    rw [Operation.load_ends_iff]
    refine ⟨?_, fun ⟨hr, he, _⟩ => ⟨hr, he⟩⟩
    rintro ⟨rfl, rfl⟩
    exact ⟨rfl, rfl, depth_load e p, frames_push _ _ _⟩
  run_nil hfs r e' := by
    refine Operation.run_ends_iff_of_depth_eq_zero ?_
    rw [h.depth_eq, hfs, List.length_nil]
  run_cons f fs' hfs := by
    subst hfs
    have hdepth : e.depth = fs'.length + 1 := h.depth_eq
    have hpos : 0 < e.depth := by omega
    refine ⟨h.frame_eq, fun r e' ho => ?_⟩
    obtain ⟨hframes, -⟩ := ho.frames_run hpos hl h.openCells
    refine ⟨(Operation.run_ends_iff hpos).1 ho, ?_, hframes⟩
    rw [depth, hframes, Array.size_pop]
    exact Nat.sub_add_cancel hpos
  other o hload hrun r e' ho := by
    have hspares := ho.spares hload hrun
    exact ⟨hspares.depth_eq, hspares.frames_eq hl h.openCells⟩
  call f args r e' hcall := h.frames_of_ends_serve hl (Operation.ends_of_call hcall)
  callGlobal name args r e' hcall := h.frames_of_ends_serve hl (Operation.ends_of_callGlobal hcall)
  index object key r e' hindex := h.frames_of_ends_serve hl (Operation.ends_of_index hindex)
  idle o r e' ho := (ho.rests hl h).nativeDepth_eq

namespace Session

theorem reachable (h : Session config fs e) :
    ∃ r, Machine.Reachable config { activity := .ended r e } := by
  induction h with
  | new => exact ⟨.ok [], .refl⟩
  | operation o h ho ih =>
    obtain ⟨r, hr⟩ := ih
    exact ⟨_, hr.ends ho⟩

theorem linked (h : Session config fs e) : e.Linked := by
  obtain ⟨r, hr⟩ := h.reachable
  exact hr.linked

theorem rests (h : Session config fs e) : e.Rests fs := by
  induction h with
  | new => exact .new config
  | operation o h ho ih => exact ho.rests h.linked ih

/-- **The call stack is balanced after any operations**, whatever chunks and host functions ran and
however they ended. -/
theorem balanced_of_session (h : Session config fs e) : e.Balanced fs := h.rests.balanced h.linked

/-- A chunk that calls a function that calls nil. -/
def failing : Prototype :=
  { code := #[.abx .closure 0 0, .abc .call 0 1 1, .abc .ret 0 1 0]
    protos := #[{ code := #[.abc .call 0 1 1, .abc .ret 0 1 0] }] }

/-- After the second of two chunks has failed, the first one is still to be run. -/
theorem balanced_of_session_failing :
    let e := (Engine.new .bare).load Machine.counting
    let m := (Operation.run.start (e.load failing)).after 9
    (∃ f, m.result? = some (.error f)) ∧ m.engine.Balanced [e.frame] := by
  have hfails : ∃ f, ((Operation.run.start (((Engine.new .bare).load Machine.counting).load
      failing)).after 9).result? = some (.error f) := ⟨_, rfl⟩
  refine ⟨hfails, ?_⟩
  obtain ⟨f, hf⟩ := hfails
  have hloaded : Session .bare _ (((Engine.new .bare).load Machine.counting).load failing) :=
    (Session.new.operation (.load Machine.counting) .refl).operation (.load failing) .refl
  exact balanced_of_session (hloaded.operation .run (Machine.steps_of_result? hf))

end Session

end LuaBytecode
