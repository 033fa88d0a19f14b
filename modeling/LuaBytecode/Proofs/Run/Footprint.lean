import LuaBytecode.Proofs.Variable.Foreign

/-!
# The footprint of an instruction

The table of opcodes and the code that executes them are apart, and nothing keeps them in step.  In
every state of a run they agree: an instruction that is executed without a call writes only
registers of its frame that the table tells, and of other frames at most one register, through an
upvalue.

* `Opcode.Aliases` : the register of another frame that an assignment to an upvalue reaches.
* `Opcode.Footprint` : what has changed in the frames, and what has not.
* `Opcode.footprint_of_done` : the effect of an instruction has this footprint.
* `Machine.footprint_of_reachable` : **so has every instruction in every state of a run.**
-/

namespace LuaBytecode

variable {e e' : Engine} {op : Opcode} {i : Instruction} {c : CellRef}

namespace Opcode

/-- The instruction assigns to an upvalue whose cell is open on the register of the frame. -/
def Aliases (op : Opcode) (i : Instruction) (e : Engine) (f : Frame) (r : Nat) : Prop :=
  op = .setUpvalue ∧ ∃ c, e.frame.upvalue? i.b = some c ∧ e.heap.cell c = .opened f.id r

/-- The changes of frames that an instruction may make. -/
structure Footprint (op : Opcode) (i : Instruction) (e e' : Engine) : Prop where
  depth_eq : e'.depth = e.depth
  id_eq : e'.frame.id = e.frame.id
  /-- Registers of the running frame change only if the table tells it. -/
  running : ∀ r, e'.frame.get r ≠ e.frame.get r → op.Writes i e.frame.varargs.length r
  /-- Of another frame nothing changes but a register, through an upvalue. -/
  others : ∀ j f, j + 1 < e.depth → e.frames[j]? = some f →
    ∃ f', e'.frames[j]? = some f' ∧ f' = { f with registers := f'.registers } ∧
      ∀ r, f'.get r ≠ f.get r → op.Aliases i e f r

theorem footprint_of_confines (h : e.Confines (op.Writes i e.frame.varargs.length) e') :
    op.Footprint i e e' where
  depth_eq := h.depth_eq
  id_eq := h.id_eq
  running r := not_imp_comm.1 (h.get_eq r)
  others j f hj hf := ⟨f, (h.getElem?_below j hj).trans hf, rfl, fun _ hr => absurd rfl hr⟩

end Opcode

namespace Engine

/-- To fetch an instruction changes the program counter only. -/
theorem exists_frame_fetched (e : Engine) : ∃ pc, e.fetched.frame = { e.frame with pc } := by
  rcases Nat.eq_zero_or_pos e.depth with hzero | hpos
  · have hfetched : e.fetched.depth = 0 := (depth_updateFrame e _).trans hzero
    rw [frame_of_depth_eq_zero hfetched, frame_of_depth_eq_zero hzero]
    exact ⟨0, rfl⟩
  · exact ⟨_, frame_fetched hpos⟩

theorem depth_pos_of_upvalue? {n : Nat} (h : e.frame.upvalue? n = some c) : 0 < e.depth := by
  refine Nat.pos_of_ne_zero fun hzero => ?_
  rw [frame_of_depth_eq_zero hzero] at h
  exact nomatch h

/-- An assignment to an upvalue that is open on another frame leaves the running one alone. -/
theorem Linked.footprint_setCellValue (hl : e.Linked) (hc : e.frame.upvalue? i.b = some c)
    (hforeign : ∀ r, e.heap.cell c ≠ .opened e.frame.id r) (v : Value) :
    Opcode.setUpvalue.Footprint i e (e.setCellValue c v) := by
  cases ho : e.heap.cell c with
  | closed w =>
    rw [Engine.setCellValue, ho]
    exact Opcode.footprint_of_confines (.of_frames_eq rfl)
  | opened id r =>
    obtain ⟨g, hg, rfl, -⟩ := hl.frame_of_open ho
    have hother : g.id.depth ≠ e.depth - 1 := by
      intro hdepth
      rw [hdepth] at hg
      obtain rfl := frame_eq_of_getElem? hg
      exact hforeign r ho
    have hframes (j : Nat) : (e.setCellValue c v).frames[j]? =
        if g.id.depth = j then e.frames[j]?.map (·.set r v) else e.frames[j]? := by
      rw [Engine.setCellValue, ho]
      exact Array.getElem?_modify
    have hframe : (e.setCellValue c v).frame = e.frame := by
      apply frame_eq_of_getElem?
      rw [depth_setCellValue, hframes, if_neg hother]
      exact getElem?_depth (depth_pos_of_upvalue? hc)
    refine ⟨depth_setCellValue e c v, congrArg Frame.id hframe, fun s hs => ?_, fun j f _ hf => ?_⟩
    · rw [hframe] at hs
      exact absurd rfl hs
    · rw [hframes, hf]
      split
      · rename_i hj
        rw [hj, hf] at hg
        obtain rfl := Option.some.inj hg
        refine ⟨f.set r v, rfl, rfl, fun s hs => ⟨rfl, c, hc, ?_⟩⟩
        have hrs : r = s := by
          by_contra hne
          exact hs ((Frame.get_set f r s v).trans (if_neg hne))
        rw [ho, hrs]
      · exact ⟨f, rfl, rfl, fun _ hs => absurd rfl hs⟩

end Engine

namespace Opcode

theorem Footprint.of_fetched (h : op.Footprint i e.fetched e') : op.Footprint i e e' := by
  obtain ⟨pc, hpc⟩ := e.exists_frame_fetched
  have hfetched : e.Confines (fun _ => False) e.fetched := .updateFrame e rfl fun _ _ => rfl
  refine ⟨h.depth_eq.trans hfetched.depth_eq, h.id_eq.trans hfetched.id_eq, fun r hr => ?_,
    fun j f hj hf => ?_⟩
  · have hwrites := h.running r
    rw [hpc] at hwrites
    exact hwrites hr
  · obtain ⟨f', hf', heq, hget⟩ := h.others j f (hfetched.depth_eq ▸ hj)
      ((hfetched.getElem?_below j hj).trans hf)
    refine ⟨f', hf', heq, fun r hr => ?_⟩
    obtain ⟨hop, c, hc, ho⟩ := hget r hr
    rw [hpc] at hc
    exact ⟨hop, c, hc, ho⟩

/-- **The effect of an instruction has its footprint**, where upvalues are not open on the running
frame. -/
theorem footprint_of_done (hl : e.Linked)
    (hforeign : ∀ n c r, e.frame.upvalue? n = some c → e.heap.cell c ≠ .opened e.frame.id r)
    (h : op.effect i e.fetched = .done () e') : op.Footprint i e e' := by
  refine .of_fetched ?_
  by_cases hop : op = .setUpvalue
  · subst hop
    obtain ⟨c, hc, rfl⟩ := setCellValue_of_done h
    refine (hl.passes (Engine.passes_fetched e)).footprint_setCellValue hc (fun r => ?_) _
    obtain ⟨pc, hpc⟩ := e.exists_frame_fetched
    rw [hpc] at hc ⊢
    exact hforeign i.b c r hc
  · exact footprint_of_confines (confines_of_done hop h)

end Opcode

/-- An instruction that is executed without a call has taken effect without one. -/
theorem Engine.effect_of_step_done {b : Bool} (h : e.step = .done b e') :
    ∃ op i, e.instruction? = some (op, i) ∧ op.effect i e.fetched = .done () e' := by
  cases hx : e.instruction? with
  | none =>
    obtain ⟨f, hf | hf⟩ := step_of_instruction?_eq_none hx
    · exact nomatch hf.symm.trans h
    · exact nomatch hf.symm.trans h
  | some x =>
    obtain ⟨op, i⟩ := x
    refine ⟨op, i, rfl, ?_⟩
    rw [step_of_instruction? hx] at h
    cases heffect : op.effect i e.fetched with
    | done a e₁ =>
      rw [heffect] at h
      obtain ⟨-, rfl⟩ := Progress.done.inj h
      rfl
    | fault f e₁ =>
      rw [heffect] at h
      exact nomatch h
    | await job e₁ go =>
      rw [heffect] at h
      exact nomatch h

namespace Machine

variable {config : Config} {m : Machine}

/-- **An instruction has its footprint in every state of a run**: any instruction whose effect is
there without a call, and so the one at which the running function stands. -/
theorem footprint_of_reachable (h : Reachable config m) :
    (∀ (op : Opcode) i e', op.effect i m.engine.fetched = .done () e' →
      op.Footprint i m.engine e') ∧
    ∀ b e', m.engine.step = .done b e' →
      ∃ op i, m.engine.instruction? = some (op, i) ∧ op.Footprint i m.engine e' := by
  have hforeign (n : Nat) (c : CellRef) (r : Nat) (hc : m.engine.frame.upvalue? n = some c) :
      m.engine.heap.cell c ≠ .opened m.engine.frame.id r :=
    h.foreign _ _ c r (Engine.getElem?_depth (Engine.depth_pos_of_upvalue? hc))
      (Array.mem_of_getElem? hc)
  have hfootprint (op : Opcode) (i : Instruction) (e' : Engine)
      (heffect : op.effect i m.engine.fetched = .done () e') : op.Footprint i m.engine e' :=
    Opcode.footprint_of_done h.linked hforeign heffect
  refine ⟨hfootprint, fun b e' hstep => ?_⟩
  obtain ⟨op, i, hi, heffect⟩ := Engine.effect_of_step_done hstep
  exact ⟨op, i, hi, hfootprint op i e' heffect⟩

/-- A function that assigns to its upvalue. -/
def setter : Prototype :=
  { code := #[.abc .loadBool 0 1 0, .abc .setUpvalue 0 0 0, .abc .ret 0 1 0]
    upvalues := #[.register 1] }

/-- A chunk that makes a setter of its register 1 and calls it. -/
def setting : Prototype :=
  { code := #[.abx .closure 0 0, .abc .call 0 1 1, .abc .ret 0 1 0], protos := #[setter] }

/-- The setter writes a register of the chunk, which is the variable of its upvalue. -/
theorem footprint_of_reachable_setting :
    let e := ((running setting).after 4).engine
    ∃ i e', e.depth = 2 ∧ e.instruction? = some (.setUpvalue, i) ∧ e.step = .done false e' ∧
      e.frames[0]?.map (·.get 1) = some .nil ∧ e'.frames[0]?.map (·.get 1) = some (.bool true) ∧
      Opcode.setUpvalue.Footprint i e e' := by
  have h := footprint_of_reachable ((reachable_running setting).after 4)
  exact ⟨_, _, rfl, rfl, rfl, rfl, rfl, h.1 _ _ _ rfl⟩

end Machine

end LuaBytecode
