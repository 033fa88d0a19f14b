import LuaBytecode.Proofs.Frame.Register
import LuaBytecode.Proofs.Instruction.Walk

/-!
# Which registers an instruction writes

The table of opcodes says whether an instruction writes its register A.  Some instructions write
registers next to it.  What an instruction writes beyond that is read off the commands of its
routine.

* `Routine.All` : what holds of all commands that a routine may give.
* `Opcode.Gives`, `Opcode.all_routine` : which commands an instruction may give.
* `Engine.Confines` : only some registers of the running frame have changed.
* `Opcode.Writes` : the registers that an instruction may write, by the table.
* `Opcode.confines_of_done` : **an instruction that is carried out without a call writes only
  these**, unless it assigns to an upvalue.
-/

namespace LuaBytecode

variable {α β : Type} {e e₁ e' : Engine} {op : Opcode} {i : Instruction}

/-! ### The commands of a routine -/

namespace Routine

/-- All commands that the routine may give have the property, whatever the answers are. -/
def All (P : ∀ {γ : Type}, Command γ → Prop) : Routine α → Prop
  | done _ | malformed _ | complain _ => True
  | give c go => P c ∧ ∀ b, (go b).All P

section All

variable {P : ∀ {γ : Type}, Command γ → Prop}

theorem All.ask {c : Command α} (h : P c) : (ask c).All P := ⟨h, fun _ => trivial⟩

theorem All.bind {x : Routine α} {f : α → Routine β} (hx : x.All P) (hf : ∀ a, (f a).All P) :
    (x >>= f).All P := by
  induction x with
  | done a => exact hf a
  | malformed m => exact trivial
  | complain c => exact trivial
  | give c go ih => exact ⟨hx.1, fun b => ih b (hx.2 b)⟩

theorem All.ite {p : Prop} [Decidable p] {x y : Routine α} (hx : x.All P) (hy : y.All P) :
    (if p then x else y).All P := by
  split
  · exact hx
  · exact hy

theorem all_orMalformed (m : Malformation) (a? : Option α) : (orMalformed m a?).All P := by
  cases a? <;> exact trivial

/-- If each command that a routine gives walks by `R`, then the routine does. -/
theorem All.walks_run {R : Engine → Engine → Prop} [IsPreorder Engine R] {x : Routine α}
    (hx : x.All P) (hP : ∀ {γ : Type} {c : Command γ}, P c → c.run.Walks R) : x.run.Walks R := by
  induction x with
  | done a => exact .pure a
  | malformed m => exact .fail _
  | complain c => exact .fail _
  | give c go ih => exact .bind (hP hx.1) fun b => ih b (hx.2 b)

end All

end Routine

/-! ### The commands of an instruction -/

namespace Opcode

/-- The registers that the commands of an instruction write, also those that follow a call. -/
def Targets (op : Opcode) (i : Instruction) (r : Nat) : Prop :=
  match op with
  | self => r = i.a ∨ r = i.a + 1
  | loadNil => i.a ≤ r ∧ r ≤ i.a + i.b
  | forPrep => i.a ≤ r ∧ r ≤ i.a + 2
  | forLoop => i.a ≤ r ∧ r ≤ i.a + 3
  | vararg | call | tailCall => i.a ≤ r
  | tforCall => i.a + 3 ≤ r
  | op => op.info.setsA = true ∧ r = i.a

/-- Commands that an instruction may give: it writes its registers only, one instruction assigns to
cells, and one makes functions with their cells. -/
def Gives (op : Opcode) (i : Instruction) : ∀ {γ : Type}, Command γ → Prop
  | _, .setRegisters base vs => ∀ r, base ≤ r → r < base + vs.length → op.Targets i r
  | _, .setCellValue _ _ => op = .setUpvalue
  | _, .captureRegister _ | _, .newFunction _ => op = .closure
  | _, _ => True

open LuaBytecode.Routine

theorem all_setRegister {r : Nat} (h : op.Targets i r) (v : Value) :
    (setRegister r v).All (op.Gives i) := by
  refine .ask fun r' hle hlt => ?_
  rw [List.length_singleton] at hlt
  obtain rfl : r' = r := by omega
  exact h

/-- The table counts register A among those that are written. -/
theorem targets_a (h : op.info.setsA = true) (i : Instruction) : op.Targets i i.a := by
  cases op with
  | self => exact .inl rfl
  | loadNil | forPrep | forLoop => exact ⟨Nat.le_refl _, Nat.le_add_right _ _⟩
  | vararg | call | tailCall => exact Nat.le_refl _
  | tforCall => exact absurd h Bool.false_ne_true
  | _ => exact ⟨h, rfl⟩

theorem all_setA (h : op.info.setsA = true) (v : Value) :
    (setRegister i.a v).All (op.Gives i) := all_setRegister (targets_a h i) v

theorem all_constant (n : Nat) : (constant n).All (op.Gives i) :=
  .bind (.ask trivial) fun _ => .bind (all_orMalformed _ _) fun _ => trivial

theorem all_rk (x : Nat) : (rk x).All (op.Gives i) := .ite (all_constant _) (.ask trivial)

theorem all_upvalueCell (m : Malformation) (n : Nat) : (upvalueCell m n).All (op.Gives i) :=
  .bind (.ask trivial) fun _ => all_orMalformed _ _

theorem all_upvalue (n : Nat) : (upvalue n).All (op.Gives i) :=
  .bind (all_upvalueCell _ _) fun _ => .ask trivial

theorem all_extraArg : Routine.extraArg.All (op.Gives i) := by
  refine .bind (.ask trivial) fun c => ?_
  split
  · exact .ite (.bind (.ask trivial) fun _ => trivial) trivial
  · exact trivial

theorem all_openSlice (first count : Nat) : (openSlice first count).All (op.Gives i) :=
  .bind (.ask trivial) fun _ => .ask trivial

theorem all_storeResults {base : Nat} (h : ∀ r, base ≤ r → op.Targets i r) (want : Nat)
    (vs : List Value) : (storeResults base want vs).All (op.Gives i) :=
  .bind (.ask fun r hle _ => h r hle) fun _ => .ask trivial

theorem all_concatDown (first n : Nat) (acc : Value) :
    (concatDown first n acc).All (op.Gives i) := by
  induction n generalizing acc with
  | zero => exact trivial
  | succ n ih => exact .bind (.ask trivial) fun _ => .bind (.ask trivial) ih

theorem all_storeBatch (a b batch : Nat) : (storeBatch a b batch).All (op.Gives i) := by
  refine .ite trivial (.bind (.ask trivial) fun _ => .bind (.ask trivial) fun _ =>
    .bind (.ask trivial) fun v => ?_)
  cases v <;> first | exact .ask trivial | exact trivial

theorem all_captureAll (us : List UpvalueSource) :
    (captureAll us).All (Opcode.closure.Gives i) := by
  induction us with
  | nil => exact trivial
  | cons u us ih =>
    cases u with
    | register r => exact .bind (.ask rfl) fun _ => .bind ih fun _ => trivial
    | enclosing n => exact .bind (all_upvalueCell _ _) fun _ => .bind ih fun _ => trivial

theorem all_loopSlots (a : Nat) : (loopSlots a).All (op.Gives i) :=
  .bind (.ask trivial) fun _ => .bind (.ask trivial) fun _ => .bind (.ask trivial) fun _ => trivial

/-- **An instruction gives only its own commands.** -/
theorem all_routine (op : Opcode) (i : Instruction) : (op.routine i).All (op.Gives i) := by
  cases op with
  | move | not => exact .bind (.ask trivial) fun _ => all_setA rfl _
  | loadK => exact .bind (all_constant _) fun _ => all_setA rfl _
  | loadKx =>
    exact .bind all_extraArg fun _ => .bind (all_constant _) fun _ => all_setA rfl _
  | loadBool =>
    exact .bind (all_setA rfl _) fun _ => .ite (.ask trivial) trivial
  | loadNil =>
    refine .ask fun r hle hlt => ⟨hle, ?_⟩
    rw [List.length_replicate] at hlt
    omega
  | getUpvalue => exact .bind (all_upvalue _) fun _ => all_setA rfl _
  | setUpvalue =>
    exact .bind (.ask trivial) fun _ => .bind (all_upvalueCell _ _) fun _ => .ask rfl
  | getTabUp =>
    exact .bind (all_upvalue _) fun _ => .bind (all_rk _) fun _ => .bind (.ask trivial) fun _ =>
      all_setA rfl _
  | getTable =>
    exact .bind (.ask trivial) fun _ => .bind (all_rk _) fun _ => .bind (.ask trivial) fun _ =>
      all_setA rfl _
  | setTabUp =>
    exact .bind (all_upvalue _) fun _ => .bind (all_rk _) fun _ => .bind (all_rk _) fun _ =>
      .ask trivial
  | setTable =>
    exact .bind (.ask trivial) fun _ => .bind (all_rk _) fun _ => .bind (all_rk _) fun _ =>
      .ask trivial
  | newTable => exact .bind (.ask trivial) fun _ => all_setA rfl _
  | self =>
    have hnext : Opcode.self.Targets i (i.a + 1) := .inr rfl
    exact .bind (.ask trivial) fun _ => .bind (all_rk _) fun _ =>
      .bind (all_setRegister hnext _) fun _ => .bind (.ask trivial) fun _ =>
        all_setA rfl _
  | setList => exact .ite (.bind all_extraArg fun _ => all_storeBatch _ _ _) (all_storeBatch _ _ _)
  | arith op =>
    have hset (v : Value) : (setRegister i.a v).All ((Opcode.arith op).Gives i) :=
      all_setA (by cases op <;> rfl) v
    exact .ite (.bind (.ask trivial) fun _ => .bind (.ask trivial) hset)
      (.bind (all_rk _) fun _ => .bind (all_rk _) fun _ => .bind (.ask trivial) hset)
  | len =>
    exact .bind (.ask trivial) fun _ => .bind (.ask trivial) fun _ => all_setA rfl _
  | concat =>
    exact .bind (.ask trivial) fun _ => .bind (all_concatDown _ _ _) fun _ =>
      all_setA rfl _
  | compare c =>
    exact .bind (all_rk _) fun _ => .bind (all_rk _) fun _ => .bind (.ask trivial) fun _ =>
      .ite (.ask trivial) trivial
  | test => exact .bind (.ask trivial) fun _ => .ite (.ask trivial) trivial
  | testSet =>
    exact .bind (.ask trivial) fun _ => .ite (all_setA rfl _) (.ask trivial)
  | jump => exact .bind (.ask trivial) fun _ => .ite (.ask trivial) trivial
  | forPrep =>
    refine .bind (all_loopSlots _) fun l => ?_
    split
    · exact trivial
    · exact .bind (.ask fun r hle hlt => ⟨hle, Nat.le_of_lt_succ hlt⟩) fun _ => .ask trivial
  | forLoop =>
    have hvisible : Opcode.forLoop.Targets i (i.a + 3) := ⟨Nat.le_add_right _ _, Nat.le_refl _⟩
    refine .bind (all_loopSlots _) fun l => ?_
    split
    · exact trivial
    · exact trivial
    · exact .bind (.ask fun r hle hlt => ⟨hle, Nat.le_of_lt hlt⟩) fun _ =>
        .bind (all_setRegister hvisible _) fun _ => .ask trivial
  | tforCall =>
    exact .bind (.ask trivial) fun _ => .bind (.ask trivial) fun _ => .bind (.ask trivial) fun _ =>
      all_storeResults (fun _ => id) _ _
  | tforLoop =>
    exact .bind (.ask trivial) fun _ =>
      .ite (.bind (all_setA rfl _) fun _ => .ask trivial) trivial
  | call | tailCall =>
    exact .bind (.ask trivial) fun _ => .bind (all_openSlice _ _) fun _ =>
      .bind (.ask trivial) fun _ => all_storeResults (fun _ => id) _ _
  | ret => exact .bind (all_openSlice _ _) fun _ => .ask trivial
  | closure =>
    refine .bind ?_ fun _ => all_setA rfl _
    exact .bind (.ask trivial) fun _ => .bind (all_orMalformed _ _) fun _ =>
      .bind (all_captureAll _) fun _ => .bind (.ask rfl) fun _ => trivial
  | vararg =>
    exact .bind (.ask trivial) fun _ =>
      .ite (.bind (.ask fun _ hle _ => hle) fun _ => .ask trivial) (.ask fun _ hle _ => hle)
  | extraArg => exact trivial

end Opcode

/-! ### Registers of the running frame -/

namespace Engine

variable {S : Nat → Prop}

/-- The frames below the running one are the same, and of its registers only some have changed. -/
structure Confines (S : Nat → Prop) (e e' : Engine) : Prop where
  depth_eq : e'.depth = e.depth
  getElem?_below : ∀ j, j + 1 < e.depth → e'.frames[j]? = e.frames[j]?
  id_eq : e'.frame.id = e.frame.id
  get_eq : ∀ r, ¬ S r → e'.frame.get r = e.frame.get r

namespace Confines

theorem of_frames_eq (h : e'.frames = e.frames) : e.Confines S e' := by
  have hframe : e'.frame = e.frame := by rw [frame, frame, h]
  exact ⟨congrArg Array.size h, fun j _ => congrArg (·[j]?) h, by rw [hframe],
    fun r _ => by rw [hframe]⟩

theorem trans (h₁ : e.Confines S e₁) (h₂ : e₁.Confines S e') : e.Confines S e' where
  depth_eq := h₂.depth_eq.trans h₁.depth_eq
  getElem?_below j hj :=
    (h₂.getElem?_below j (h₁.depth_eq.symm ▸ hj)).trans (h₁.getElem?_below j hj)
  id_eq := h₂.id_eq.trans h₁.id_eq
  get_eq r hr := (h₂.get_eq r hr).trans (h₁.get_eq r hr)

theorem mono {T : Nat → Prop} (h : e.Confines S e') (hST : ∀ r, S r → T r) : e.Confines T e' :=
  { h with get_eq := fun r hr => h.get_eq r (mt (hST r) hr) }

instance : Serves (Confines S) where
  refl _ := of_frames_eq rfl
  trans _ _ _ := trans
  serve _ _ _ _ := of_frames_eq rfl

/-- The running frame is changed. -/
theorem updateFrame (e : Engine) {g : Frame → Frame} (hid : (g e.frame).id = e.frame.id)
    (hget : ∀ r, ¬ S r → (g e.frame).get r = e.frame.get r) : e.Confines S (e.updateFrame g) := by
  rcases Nat.eq_zero_or_pos e.depth with hzero | hpos
  · rw [updateFrame_eq_self fun hpos => absurd hzero (by omega)]
    exact of_frames_eq rfl
  · refine ⟨depth_updateFrame e g, fun j hj => ?_, ?_, fun r hr => ?_⟩
    · rw [getElem?_updateFrame, if_neg (by omega)]
    · rw [frame_updateFrame hpos, hid]
    · rw [frame_updateFrame hpos, hget r hr]

/-- The running frame is replaced by one with the same registers. -/
theorem replaceFrame (e : Engine) (heap : Heap) {f : Frame} (hid : f.id = e.frame.id)
    (hregisters : f.registers = e.frame.registers) :
    e.Confines S ({ e with heap }.updateFrame fun _ => f) := by
  have hheap : e.Confines S { e with heap } := of_frames_eq rfl
  have hget (r : Nat) : f.get r = e.frame.get r := congrArg (·.getD r Value.nil) hregisters
  exact hheap.trans (updateFrame (g := fun _ => f) _ hid fun r _ => hget r)

end Confines

end Engine

open Engine (Confines)

theorem Frame.id_setRange (f : Frame) (base : Nat) (vs : List Value) :
    (f.setRange base vs).id = f.id := congrArg Prod.fst (f.function_setRange base vs)

theorem Frame.id_capture (f : Frame) (h : Heap) (r : Nat) : (f.capture h r).2.1.id = f.id := by
  unfold capture
  split <;> rfl

theorem Frame.registers_capture (f : Frame) (h : Heap) (r : Nat) :
    (f.capture h r).2.1.registers = f.registers := by
  unfold capture
  split <;> rfl

/-- A command of an instruction writes the registers of the instruction. -/
theorem Command.confines_run {c : Command α} (h : op.Gives i c) (hop : op ≠ .setUpvalue) :
    c.run.Walks (Confines (op.Targets i)) := by
  cases c with
  | register r | registers first last | control | cellValue c => exact .read _
  | setRegisters base vs =>
    refine .modify fun e => .updateFrame e (e.frame.id_setRange base vs) fun r hr => ?_
    rw [Frame.get_setRange, if_neg]
    exact fun hrange => hr (h r hrange.1 hrange.2)
  | skip | jump offset | setTop n | keepResults vs =>
    exact .modify fun e => .updateFrame e rfl fun _ _ => rfl
  | setCellValue c v => exact absurd h hop
  | captureRegister r =>
    exact .update (f := (·.captureRegister r)) fun e =>
      .replaceFrame e _ (e.frame.id_capture e.heap r) (e.frame.registers_capture e.heap r)
  | closeCells first => exact .modify fun e => .replaceFrame e _ rfl rfl
  | newTable => exact .update (f := (·.newTable)) fun e => .of_frames_eq rfl
  | newFunction c => exact .update (f := (·.newFunction (.closure c))) fun e => .of_frames_eq rfl
  | storeItems t n vs => exact .modify fun e => Action.supplies_storeItems t n vs e
  | call f args => exact .call f args
  | arith op a b => exact Action.walks_arith op a b
  | concat a b => exact Action.walks_concat a b
  | compare c a b => exact Action.walks_compare c a b
  | length v => exact Action.walks_length v
  | index object key => exact Action.walks_index object key
  | assign object key v => exact Action.walks_assign object key v

namespace Opcode

/-- **An instruction writes its own registers** up to each wait, if it assigns to no upvalue. -/
theorem confines_effect (hop : op ≠ .setUpvalue) (i : Instruction) :
    (op.effect i).Walks (Confines (op.Targets i)) := by
  rw [← op.run_routine i]
  exact (op.all_routine i).walks_run fun h => Command.confines_run h hop

/-! ### The registers that the table tells -/

/-- The registers of the running frame that an instruction may write, for a function with the given
number of varargs: none unless the table says so, and then register A with some of the next. -/
def Writes (op : Opcode) (i : Instruction) (varargs r : Nat) : Prop :=
  op.info.setsA = true ∧
    match op with
    | self => r = i.a ∨ r = i.a + 1
    | loadNil => i.a ≤ r ∧ r ≤ i.a + i.b
    | forPrep => i.a ≤ r ∧ r ≤ i.a + 2
    | forLoop => r = i.a ∨ r = i.a + 1 ∨ r = i.a + 3
    | vararg => i.a ≤ r ∧ r < i.a + (if i.b = 0 then varargs else i.b - 1)
    | _ => r = i.a

/-- The step of a loop stays. -/
theorem step_of_advance {l l' : Loop} (h : l.advance = .ok (some l')) : l'.step = l.step := by
  unfold Loop.advance at h
  split at h
  · split at h
    · exact nomatch h
    · obtain rfl := Option.some.inj (Except.ok.inj h)
      rfl
  · obtain ⟨-, hnext⟩ := Option.ite_none_right_eq_some.1 (Except.ok.inj h)
    obtain rfl := Option.some.inj hnext
    rfl
  · exact nomatch h

theorem confines_forLoop (h : forLoop.effect i e = .done () e') :
    e.Confines (fun r => r = i.a ∨ r = i.a + 1 ∨ r = i.a + 3) e' := by
  unfold effect at h
  dsimp only at h
  rw [Action.loopSlots, Action.read_bind] at h
  dsimp only at h
  cases hl : Loop.advance ⟨e.frame.get i.a, e.frame.get (i.a + 1), e.frame.get (i.a + 2)⟩ with
  | error m =>
    rw [hl] at h
    exact nomatch h
  | ok l? =>
    cases l? with
    | none =>
      rw [hl] at h
      obtain ⟨-, rfl⟩ := Progress.done.inj h
      exact .of_frames_eq rfl
    | some l =>
      rw [hl] at h
      obtain ⟨-, rfl⟩ := Progress.done.inj h
      -- the third slot is written with the step that it holds
      have hslots : e.Confines (fun r => r = i.a ∨ r = i.a + 1 ∨ r = i.a + 3)
          (e.updateFrame (·.setRange i.a [l.index, l.limit, l.step])) := by
        refine .updateFrame e (e.frame.id_setRange _ _) fun r hr => ?_
        rw [Frame.get_setRange]
        split
        case isTrue hrange =>
          obtain rfl : r = i.a + 2 := by
            simp only [List.length_cons, List.length_nil] at hrange
            omega
          rw [Nat.add_sub_cancel_left]
          exact step_of_advance hl
        case isFalse => rfl
      have hvisible (e₁ : Engine) : e₁.Confines (fun r => r = i.a ∨ r = i.a + 1 ∨ r = i.a + 3)
          (e₁.updateFrame (·.set (i.a + 3) l.index)) := by
        refine .updateFrame e₁ rfl fun r hr => ?_
        rw [Frame.get_set, if_neg]
        omega
      exact (hslots.trans (hvisible _)).trans (.updateFrame _ rfl fun _ _ => rfl)

theorem confines_vararg (h : vararg.effect i e = .done () e') :
    e.Confines (fun r => i.a ≤ r ∧
      r < i.a + (if i.b = 0 then e.frame.varargs.length else i.b - 1)) e' := by
  obtain ⟨-, rfl⟩ := Progress.done.inj h
  by_cases hb : i.b = 0
  · refine .updateFrame e ?_ fun r hr => ?_
    · rw [if_pos hb]
      exact e.frame.id_setRange _ _
    · rw [if_pos hb] at hr ⊢
      exact (e.frame.get_setRange _ _ r).trans (if_neg hr)
  · refine .updateFrame e ?_ fun r hr => ?_
    · rw [if_neg hb]
      exact e.frame.id_setRange _ _
    · rw [if_neg hb] at hr ⊢
      rw [Frame.get_setRange, Frame.length_padded, if_neg hr]

/-- **What an instruction writes without a call**: registers that the table tells, and no other
frame, unless it assigns to an upvalue. -/
theorem confines_of_done (hop : op ≠ .setUpvalue) (h : op.effect i e = .done () e') :
    e.Confines (op.Writes i e.frame.varargs.length) e' := by
  have hconfines : e.Confines (op.Targets i) e' := by
    have hwalks := confines_effect hop i e
    rwa [h] at hwalks
  cases op with
  | setUpvalue => exact absurd rfl hop
  | forLoop => exact (confines_forLoop h).mono fun _ hr => ⟨rfl, hr⟩
  | vararg => exact (confines_vararg h).mono fun _ hr => ⟨rfl, hr⟩
  | call | tailCall | tforCall => exact nomatch h
  | self | loadNil | forPrep => exact hconfines.mono fun _ hr => ⟨rfl, hr⟩
  | _ => exact hconfines

/-- An assignment to an upvalue goes through its cell. -/
theorem setCellValue_of_done (h : setUpvalue.effect i e = .done () e') :
    ∃ c, e.frame.upvalue? i.b = some c ∧ e' = e.setCellValue c (e.frame.get i.a) := by
  have heffect : setUpvalue.effect i e = Action.setUpvalue i.b (e.frame.get i.a) e := rfl
  rw [heffect, Action.setUpvalue] at h
  cases hc : e.frame.upvalue? i.b with
  | none =>
    rw [hc] at h
    cases h
  | some c =>
    rw [hc] at h
    exact ⟨c, rfl, (Progress.done.inj h).2.symm⟩

end Opcode

end LuaBytecode
