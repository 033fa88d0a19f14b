import LuaBytecode.Proofs.Instruction.Walk
import LuaBytecode.Proofs.Run.Agreement
import LuaBytecode.Proofs.Variable.Invariant

/-!
# Calls leave the frames of their callers alone

A call may run any script and any host function, to any depth, and it may fail at any of them.
When it is over, the frames that were on the stack are there again, with the same frame on top.
All that can have happened to them is that a captured register was assigned to.

* `Frame.Keeps` : a frame is as it was, up to assignments to captured registers.
* `Engine.Spares` : some work keeps all frames but the topmost ones.
* `Engine.walks_step_spares` : an instruction spares the frames below the running one.
* `Engine.perform_execute_spares` : so does the execution of a function, and a job spares all
  frames; by induction on the fuel.
* `Machine.keeps_of_perform` : what a caller finds after a call.

The frame that an open cell names is known from `Engine.Linked`: an assignment through a cell hits
a register that its frame has captured, wherever the frame stands.
-/

namespace LuaBytecode

/-! ### Frames that do not run -/

/-- The frame is as it was, but captured registers may have been assigned to. -/
structure Frame.Keeps (f f' : Frame) : Prop where
  id_eq : f'.id = f.id
  closure_eq : f'.closure = f.closure
  pc_eq : f'.pc = f.pc
  top_eq : f'.top = f.top
  varargs_eq : f'.varargs = f.varargs
  results_eq : f'.results = f.results
  openCells_eq : f'.openCells = f.openCells
  get_eq : ∀ r, f.openCells.lookup r = none → f'.get r = f.get r
  registers_eq : f.openCells = [] → f'.registers = f.registers

namespace Frame.Keeps

variable {f g h : Frame}

theorem refl (f : Frame) : f.Keeps f :=
  ⟨rfl, rfl, rfl, rfl, rfl, rfl, rfl, fun _ _ => rfl, fun _ => rfl⟩

theorem trans (hfg : f.Keeps g) (hgh : g.Keeps h) : f.Keeps h where
  id_eq := hgh.id_eq.trans hfg.id_eq
  closure_eq := hgh.closure_eq.trans hfg.closure_eq
  pc_eq := hgh.pc_eq.trans hfg.pc_eq
  top_eq := hgh.top_eq.trans hfg.top_eq
  varargs_eq := hgh.varargs_eq.trans hfg.varargs_eq
  results_eq := hgh.results_eq.trans hfg.results_eq
  openCells_eq := hgh.openCells_eq.trans hfg.openCells_eq
  get_eq r hr := (hgh.get_eq r (by rw [hfg.openCells_eq, hr])).trans (hfg.get_eq r hr)
  registers_eq hf := (hgh.registers_eq (by rw [hfg.openCells_eq, hf])).trans (hfg.registers_eq hf)

/-- A captured register is assigned to. -/
theorem set {r : Nat} {c : CellRef} (hr : f.openCells.lookup r = some c) (v : Value) :
    f.Keeps (f.set r v) where
  id_eq := rfl
  closure_eq := rfl
  pc_eq := rfl
  top_eq := rfl
  varargs_eq := rfl
  results_eq := rfl
  openCells_eq := rfl
  get_eq r' hr' := by
    rw [Frame.get_set, if_neg]
    rintro rfl
    exact absurd (hr.symm.trans hr') (by simp)
  registers_eq hf := absurd (hf ▸ hr) (by simp)

/-- A frame without captures is just as it was. -/
theorem eq_of_openCells (hfg : f.Keeps g) (hf : f.openCells = []) : g = f := by
  obtain ⟨hid, hclosure, hpc, htop, hvarargs, hresults, hopen, -, hregisters⟩ := hfg
  cases f
  cases g
  simp_all

end Frame.Keeps

namespace Engine

variable {e e₀ e₁ e₂ : Engine} {k n : Nat}

/-! ### Work that spares frames -/

/-- Work from `e` to `e'` keeps all frames but the topmost `k`, the depth of the stack and the
number of host functions that are running. -/
structure Spares (k : Nat) (e e' : Engine) : Prop where
  depth_eq : e'.depth = e.depth
  nativeDepth_eq : e'.nativeDepth = e.nativeDepth
  linked : k ≤ e.depth → e.Linked → e'.Linked
  frame : e.Linked → ∀ {i f}, i + k < e.depth → e.frames[i]? = some f →
    ∃ f', e'.frames[i]? = some f' ∧ f.Keeps f'

namespace Spares

theorem refl (k : Nat) (e : Engine) : e.Spares k e :=
  ⟨rfl, rfl, fun _ h => h, fun _ {_ f} _ hf => ⟨f, hf, .refl f⟩⟩

theorem trans (h₁ : e.Spares k e₁) (h₂ : e₁.Spares k e₂) : e.Spares k e₂ where
  depth_eq := h₂.depth_eq.trans h₁.depth_eq
  nativeDepth_eq := h₂.nativeDepth_eq.trans h₁.nativeDepth_eq
  linked hk hl := h₂.linked (h₁.depth_eq ▸ hk) (h₁.linked hk hl)
  frame hl {i f} hi hf := by
    obtain ⟨g, hg, hfg⟩ := h₁.frame hl hi hf
    obtain ⟨f', hf', hgf'⟩ := h₂.frame (h₁.linked (by omega) hl) (h₁.depth_eq ▸ hi) hg
    exact ⟨f', hf', hfg.trans hgf'⟩

theorem below (h : e.Spares 0 e₁) : e.Spares 1 e₁ :=
  ⟨h.depth_eq, h.nativeDepth_eq, fun _ => h.linked (Nat.zero_le _),
    fun hl {_ _} hi => h.frame hl (by omega)⟩

/-- Work that spares all frames spares the running one. -/
theorem keeps_frame (h : e.Spares 0 e₁) (hl : e.Linked) : e.frame.Keeps e₁.frame := by
  rcases Nat.eq_zero_or_pos e.depth with hzero | hpos
  · rw [frame_of_depth_eq_zero hzero, frame_of_depth_eq_zero (h.depth_eq.trans hzero)]
    exact .refl _
  · obtain ⟨f', hf', hkeeps⟩ := h.frame hl (Nat.sub_one_lt_of_lt hpos) (getElem?_depth hpos)
    rw [← h.depth_eq] at hf'
    rwa [frame_eq_of_getElem? hf']

/-- Work that leaves the frames below the topmost ones as they are. -/
theorem of_getElem?_eq (hdepth : e₁.depth = e.depth) (hnative : e₁.nativeDepth = e.nativeDepth)
    (hlinked : k ≤ e.depth → e.Linked → e₁.Linked)
    (hframes : ∀ i, i + k < e.depth → e₁.frames[i]? = e.frames[i]?) : e.Spares k e₁ :=
  ⟨hdepth, hnative, hlinked, fun _ {i f} hi hf => ⟨f, (hframes i hi).trans hf, .refl f⟩⟩

theorem of_calm (h : e.Calm e₁) (hnative : e₁.nativeDepth = e.nativeDepth) : e.Spares k e₁ :=
  of_getElem?_eq h.depth_eq hnative (fun _ hl => hl.calm h) fun _ _ => by rw [h.frames_eq]

theorem of_advances (h : e.Advances e₁) (hnative : e₁.nativeDepth = e.nativeDepth) :
    e.Spares 1 e₁ :=
  of_getElem?_eq h.depth_eq hnative (fun hpos hl => hl.advances hpos h) h.getElem?_below

end Spares

instance : Serves (Spares 0) where
  refl := .refl 0
  trans _ _ _ := .trans
  serve _ _ _ hcells := .of_calm ⟨rfl, hcells, rfl⟩ rfl

/-- An assignment through a cell may hit any frame, but only a captured register. -/
theorem spares_setCellValue (e : Engine) (c : CellRef) (v : Value) :
    e.Spares 0 (e.setCellValue c v) where
  depth_eq := depth_setCellValue e c v
  nativeDepth_eq := by
    rw [setCellValue]
    split <;> rfl
  linked _ hl := hl.setCellValue c v
  frame hl {i f} _ hf := by
    rw [setCellValue]
    cases hc : e.heap.cell c with
    | closed w => exact ⟨f, hf, .refl f⟩
    | opened id r =>
      -- the frame that the cell names is on the stack, and has captured the register
      obtain ⟨g, hg, rfl, hr⟩ := hl.frame_of_open hc
      dsimp only
      rw [Array.getElem?_modify, hf]
      split
      · rename_i hi
        obtain rfl : g = f := Option.some.inj (hg.symm.trans (hi ▸ hf))
        exact ⟨_, rfl, .set hr v⟩
      · exact ⟨f, rfl, .refl f⟩

theorem spares_closeCells (e : Engine) (first : Nat) : e.Spares 1 (e.closeCells first) := by
  refine .of_getElem?_eq (depth_closeCells e first) rfl (fun _ hl => hl.closeCells first)
    fun i hi => ?_
  refine (getElem?_updateFrame _ _ i).trans (if_neg ?_)
  exact Nat.ne_of_lt hi

instance : Instructs (Spares 1) where
  refl := .refl 1
  trans _ _ _ := .trans
  serve _ _ _ hcells := .of_calm ⟨rfl, hcells, rfl⟩ rfl
  updateFrame _ hlinks e := .of_advances (advances_updateFrame hlinks e) rfl
  capture e r := .of_advances (advances_captureRegister e r) rfl
  setCellValue e c v := (spares_setCellValue e c v).below
  closeCells := spares_closeCells

/-- **An instruction spares the frames below the running one**, up to its calls. -/
theorem walks_step_spares (e : Engine) : e.step.Walks (Spares 1) e := e.walks_step_of_instructs

/-! ### Jobs -/

/-- A function that starts above the frames, spares them, and is left again. -/
theorem Spares.unwindTo (hstart : e₀.depth = e.depth + 1) (hnative : e₀.nativeDepth = e.nativeDepth)
    (hlinked : e.Linked → e₀.Linked) (hframes : ∀ i < e.depth, e₀.frames[i]? = e.frames[i]?)
    (h : e₀.Spares 1 e₁) : e.Spares 0 (e₁.unwindTo e.depth).2 := by
  have hdepth : e₁.depth = e.depth + 1 := h.depth_eq.trans hstart
  refine ⟨?_, ?_, fun _ hl => ?_, fun hl {i f} hi hf => ?_⟩
  · rw [depth_unwindTo]
    omega
  · exact (nativeDepth_popMany _ _).trans (h.nativeDepth_eq.trans hnative)
  · exact (h.linked (by omega) (hlinked hl)).unwindTo _
  · have hi' : i < e.depth := hi
    obtain ⟨f', hf', hkeeps⟩ := h.frame (hlinked hl) (by omega) ((hframes i hi').trans hf)
    exact ⟨f', by rw [getElem?_unwindTo (by omega), if_pos hi', hf'], hkeeps⟩

theorem Spares.push {c : Closure} {args : List Value} (h : (e.push c args).Spares 1 e₁) :
    e.Spares 0 (e₁.unwindTo e.depth).2 :=
  .unwindTo (depth_push e c args) rfl (fun hl => hl.push c args)
    (fun i hi => (getElem?_push e c args i).trans (if_neg (Nat.ne_of_lt hi))) h

theorem Spares.load {p : Prototype} (h : (e.load p).Spares 1 e₁) :
    e.Spares 0 (e₁.unwindTo e.depth).2 :=
  .unwindTo (depth_load e p) rfl (fun hl => hl.load p)
    (fun i hi => (getElem?_push _ _ _ i).trans (if_neg (Nat.ne_of_lt hi))) h

/-- A host function that spares the frames is counted while it runs. -/
theorem Spares.leaveNative (h : e.enterNative.Spares 0 e₁) : e.Spares 0 e₁.leaveNative where
  depth_eq := h.depth_eq
  nativeDepth_eq := by
    rw [Engine.leaveNative, h.nativeDepth_eq]
    rfl
  linked hk hl := (h.linked hk (hl.calm ⟨rfl, rfl, rfl⟩)).calm ⟨rfl, rfl, rfl⟩
  frame hl _ _ hi hf := h.frame (hl.calm ⟨rfl, rfl, rfl⟩) hi hf

end Engine

/-- An action that walks by a relation gets to its end by it, if its jobs do. -/
theorem Progress.Walks.settle {α : Type} {R : Engine → Engine → Prop} [IsTrans Engine R]
    {perform : Job → Engine → Outcome (List Value)} {p : Progress α} {e₀ e' : Engine}
    {r : Except Fault α} (hp : p.Walks R e₀)
    (hperform : ∀ job e r e', perform job e = .of r e' → R e e')
    (h : p.settle perform = .of r e') : R e₀ e' := by
  induction p generalizing e₀ with
  | done a e =>
    obtain ⟨-, rfl⟩ := Outcome.done_eq_of_iff.1 h
    exact hp
  | fault f e =>
    obtain ⟨-, rfl⟩ := Outcome.fault_eq_of_iff.1 h
    exact hp
  | await job e go ih =>
    have resumed {s : Except Fault (List Value)} {e₁ : Engine} (hs : perform job e = .of s e₁)
        (hgo : (go s e₁).settle perform = .of r e') : R e₀ e' :=
      IsTrans.trans _ _ _ hp.1
        (IsTrans.trans _ _ _ (hperform job e s e₁ hs) (ih s e₁ (hp.2 s e₁) hgo))
    rw [Progress.settle] at h
    cases hs : perform job e with
    | done vs e₁ => exact resumed (s := .ok vs) hs (by rwa [hs] at h)
    | fault f e₁ => exact resumed (s := .error f) hs (by rwa [hs] at h)
    | outOfFuel =>
      rw [hs] at h
      exact absurd h Outcome.outOfFuel_ne_of

namespace Outcome

theorem exists_of_unwindTo {o : Outcome Unit} {depth : Nat} {r : Except Fault (List Value)}
    {e' : Engine} (h : o.unwindTo depth = .of r e') :
    ∃ s e, o = .of s e ∧ e' = (e.unwindTo depth).2 := by
  cases o with
  | done a e =>
    obtain ⟨-, rfl⟩ := Outcome.done_eq_of_iff.1 h
    exact ⟨.ok a, e, rfl, rfl⟩
  | fault f e =>
    obtain ⟨-, rfl⟩ := Outcome.fault_eq_of_iff.1 h
    exact ⟨.error f, e, rfl, rfl⟩
  | outOfFuel => exact absurd h Outcome.outOfFuel_ne_of

theorem exists_of_mapEngine {α : Type} {o : Outcome α} {g : Engine → Engine} {r : Except Fault α}
    {e' : Engine} (h : o.mapEngine g = .of r e') : ∃ e, o = .of r e ∧ e' = g e := by
  cases o with
  | done a e =>
    obtain ⟨rfl, rfl⟩ := Outcome.done_eq_of_iff.1 h
    exact ⟨e, rfl, rfl⟩
  | fault f e =>
    obtain ⟨rfl, rfl⟩ := Outcome.fault_eq_of_iff.1 h
    exact ⟨e, rfl, rfl⟩
  | outOfFuel => exact absurd h Outcome.outOfFuel_ne_of

/-- Behind an instruction the function has come to its end, or is executed further. -/
theorem exists_of_proceed {n : Nat} {o : Outcome Bool} {r : Except Fault Unit} {e' : Engine}
    (h : Engine.proceed n o = .of r e') :
    ∃ s e, o = .of s e ∧ (e' = e ∨ Engine.execute n e = .of r e') := by
  cases o with
  | done returns e =>
    cases returns with
    | true => exact ⟨.ok true, e, rfl, .inl (Outcome.done_eq_of_iff.1 h).2⟩
    | false => exact ⟨.ok false, e, rfl, .inr h⟩
  | fault f e => exact ⟨.error f, e, rfl, .inl (Outcome.fault_eq_of_iff.1 h).2⟩
  | outOfFuel => exact absurd h Outcome.outOfFuel_ne_of

end Outcome

namespace Engine

variable {e e' : Engine} {n : Nat}

/-- A job spares all frames, if jobs do and functions that are executed spare those below. -/
theorem spares_of_perform_succ
    (ihp : ∀ job e r e', perform n job e = .of r e' → e.Spares 0 e')
    (ihe : ∀ e r e', execute n e = .of r e' → e.Spares 1 e')
    {job : Job} {r : Except Fault (List Value)} (h : perform (n + 1) job e = .of r e') :
    e.Spares 0 e' := by
  cases job with
  | chunk p =>
    obtain ⟨s, e₁, hs, rfl⟩ := Outcome.exists_of_unwindTo h
    exact .load (ihe _ _ _ hs)
  | call f args =>
    rw [perform] at h
    cases hc : e.callee f args with
    | error c =>
      rw [hc] at h
      obtain ⟨-, rfl⟩ := Outcome.fault_eq_of_iff.1 h
      exact .refl 0 _
    | ok g =>
      obtain ⟨g, args'⟩ := g
      simp only [hc] at h
      split at h
      · obtain ⟨-, rfl⟩ := Outcome.fault_eq_of_iff.1 h
        exact .refl 0 _
      · cases g with
        | native name body =>
          obtain ⟨e₁, hs, rfl⟩ := Outcome.exists_of_mapEngine h
          exact .leaveNative (((body args').walks_act _).settle ihp hs)
        | closure c =>
          obtain ⟨s, e₁, hs, rfl⟩ := Outcome.exists_of_unwindTo h
          exact .push (ihe _ _ _ hs)

/-- Every instruction spares the frames below the running one, and so do all together. -/
theorem spares_of_execute_succ
    (ihp : ∀ job e r e', perform n job e = .of r e' → e.Spares 0 e')
    (ihe : ∀ e r e', execute n e = .of r e' → e.Spares 1 e') {r : Except Fault Unit}
    (h : execute (n + 1) e = .of r e') : e.Spares 1 e' := by
  rw [Machine.execute_succ] at h
  obtain ⟨s, e₁, hs, hrest⟩ := Outcome.exists_of_proceed h
  have hstep : e.Spares 1 e₁ :=
    (walks_step_spares e).settle (fun job e r e' hp => (ihp job e r e' hp).below) hs
  obtain rfl | hrest := hrest
  · exact hstep
  · exact hstep.trans (ihe _ _ _ hrest)

/-- **A call spares the frames on the stack**, and the execution of a function spares those below
it, whatever they run. -/
theorem perform_execute_spares (n : Nat) :
    (∀ job e r e', perform n job e = .of r e' → e.Spares 0 e') ∧
      ∀ e r e', execute n e = .of r e' → e.Spares 1 e' := by
  induction n with
  | zero =>
    exact ⟨fun _ _ _ _ h => absurd h Outcome.outOfFuel_ne_of,
      fun _ _ _ h => absurd h Outcome.outOfFuel_ne_of⟩
  | succ n ih =>
    obtain ⟨ihp, ihe⟩ := ih
    exact ⟨fun _ _ _ _ => spares_of_perform_succ ihp ihe,
      fun _ _ _ => spares_of_execute_succ ihp ihe⟩

end Engine

namespace Machine

/-- **A call leaves the frames of its callers alone.**  When an instruction of a running function
has called something, successfully or not, the instruction goes on with the stack as deep as it
was and as many host functions running.  Every frame is there again, with its identity, its code,
its place in it and all else, the running one on top; a register can have changed only if it is
captured. -/
theorem keeps_of_perform {config : Config} {base : Nat} {job : Job} {e e' : Engine}
    {go : Except Fault (List Value) → Engine → Progress Bool} {w : List Waiting} {n : Nat}
    {r : Except Fault (List Value)} (h : Reachable config ⟨.script base (.await job e go), w⟩)
    (hcall : Engine.perform n job e = .of r e') :
    Steps ⟨.script base (.await job e go), w⟩ ⟨.script base (go r e'), w⟩ ∧
      e'.depth = e.depth ∧ e'.nativeDepth = e.nativeDepth ∧ e.frame.Keeps e'.frame ∧
      ∀ (i : Nat) f, e.frames[i]? = some f → ∃ f', e'.frames[i]? = some f' ∧ f.Keeps f' := by
  have hspares := (Engine.perform_execute_spares n).1 job e r e' hcall
  have hdepth : e.depth = base + 1 := h.sound.activity.1
  have hframe {i : Nat} {f : Frame} (hf : e.frames[i]? = some f) :
      ∃ f', e'.frames[i]? = some f' ∧ f.Keeps f' :=
    hspares.frame h.linked (Engine.lt_depth_of_getElem? hf) hf
  -- the frame on top is one of those on the stack, and the stack is as deep as it was
  refine ⟨?_, hspares.depth_eq, hspares.nativeDepth_eq, ?_, fun i f => hframe⟩
  · exact (Steps.of_step rfl).trans ((steps_perform hcall _).trans (Steps.of_step rfl))
  · obtain ⟨f', hf', hkeeps⟩ := hframe (Engine.getElem?_depth (by omega))
    rw [← hspares.depth_eq] at hf'
    rwa [Engine.frame_eq_of_getElem? hf']

/-- A chunk that makes a counter over its register 1, which holds 5, and calls it. -/
def countingFrom5 : Prototype :=
  { code := #[.abx .loadK 1 0, .abx .closure 0 0, .abc .call 0 1 1, .abc .ret 0 1 0]
    constants := #[.number (.int 5)]
    protos := #[counter] }

/-- In the call the captured register 1 is counted up; all else is as before. -/
theorem keeps_of_perform_countingFrom5 :
    let e := ((running countingFrom5).after 3).engine
    let e' := (after 5 { activity := e.begin (.call (.function ⟨0⟩) []) }).engine
    (∃ n, Engine.perform n (.call (.function ⟨0⟩) []) e = .done [.number (.int 6)] e') ∧
      e.frame.Keeps e'.frame ∧ e.frame.get 1 = .int 5 ∧ e'.frame.get 1 = .int 6 := by
  have h : Reachable .bare ⟨.script 0 (.await (.call (.function ⟨0⟩) [])
      ((running countingFrom5).after 3).engine _), []⟩ :=
    (reachable_running countingFrom5).after 3
  have hcall := steps_begin_iff.1 (steps_of_result? (n := 5) (r := .ok [.number (.int 6)])
    (m := { activity := ((running countingFrom5).after 3).engine.begin (.call (.function ⟨0⟩) []) })
    rfl)
  have hkeeps := hcall.elim fun _ hn => (keeps_of_perform h hn).2.2.2.1
  exact ⟨hcall, hkeeps, rfl, rfl⟩

end Machine

end LuaBytecode
