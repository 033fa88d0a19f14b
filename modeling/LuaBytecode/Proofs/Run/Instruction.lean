import LuaBytecode.Proofs.Run.Walk

/-!
# Executing one instruction

What `Engine.step` does, by the instruction at which the running frame stands.  All but three kinds
of instructions are only known to make the running frame go on; of those three the state behind
them is given.

* `Engine.walks_step_of_effect` : an instruction is fetched and takes effect.
* `Engine.walks_step` : the running frame goes on.
* `Engine.step_setUpvalue` : an assignment through the cell of an upvalue.
* `Engine.step_jump` : a jump, which may close cells.
* `Engine.step_ret` : a return, which only keeps results.
-/

namespace LuaBytecode

/-- What follows a look at the state goes on with what was seen. -/
theorem Action.read_bind {α β : Type} (f : Engine → α) (g : α → Action β) (e : Engine) :
    (Action.read f >>= g) e = g (f e) e := rfl

namespace Engine

variable {e : Engine} {i : Instruction} {op : Opcode}

/-- The state in which an instruction takes effect. -/
def fetched (e : Engine) : Engine := e.updateFrame fun f => { f with pc := e.frame.pc + 1 }

theorem passes_fetched (e : Engine) : e.Passes e.fetched := ⟨_, rfl, fun _ => rfl, fun _ => rfl⟩

theorem advances_fetched (e : Engine) : e.Advances e.fetched := (passes_fetched e).advances

theorem depth_pos_of_instruction? {x : Opcode × Instruction} (h : e.instruction? = some x) :
    0 < e.depth := by
  refine Nat.pos_of_ne_zero fun hzero => ?_
  rw [instruction?, frame_of_depth_eq_zero hzero] at h
  exact absurd h (by simp [blankFrame, Frame.proto])

theorem frame_fetched (h : 0 < e.depth) : e.fetched.frame = { e.frame with pc := e.frame.pc + 1 } :=
  frame_updateFrame h _

theorem instruction?_eq_some (hcode : e.frame.proto.code[e.frame.pc]? = some i)
    (hop : i.opcode? = some op) : e.instruction? = some (op, i) := by
  rw [instruction?, hcode]
  refine Option.bind_eq_some_iff.2 ⟨i, rfl, ?_⟩
  rw [hop]
  rfl

theorem step_of_instruction? (h : e.instruction? = some (op, i)) :
    e.step = ((op.effect i e.fetched).mapFault
      (.locate e.frame.proto.source (e.frame.proto.lineAt e.frame.pc))).andThen
        fun _ => .done (decide (op = .ret)) := by
  obtain ⟨i', hi, hop⟩ := Option.bind_eq_some_iff.1 h
  obtain ⟨op', hop', heq⟩ := Option.bind_eq_some_iff.1 hop
  obtain ⟨rfl, rfl⟩ := Prod.mk.inj (Option.some.inj heq)
  simp only [step, hi, hop']
  rfl

theorem step_of_instruction?_eq_none (h : e.instruction? = none) :
    ∃ f, e.step = .fault f e ∨ e.step = .fault f e.fetched := by
  rw [instruction?] at h
  rw [step]
  dsimp only
  cases hi : e.frame.proto.code[e.frame.pc]? with
  | none => exact ⟨_, .inl rfl⟩
  | some i =>
    cases hop : i.opcode? with
    | none =>
      simp only [hop]
      exact ⟨_, .inr rfl⟩
    | some op =>
      rw [hi] at h
      change (i.opcode? >>= fun op => some (op, i)) = none at h
      rw [hop] at h
      exact absurd h (by simp)

/-- The execution of an instruction is to fetch it, and its effect. -/
theorem walks_step_of_effect {R : Engine → Engine → Prop} [IsPreorder Engine R]
    (hfetched : R e e.fetched)
    (h : ∀ op i, e.instruction? = some (op, i) → (op.effect i).Walks R) : e.step.Walks R e := by
  cases hx : e.instruction? with
  | none =>
    obtain ⟨f, hf | hf⟩ := step_of_instruction?_eq_none hx
    · rw [hf]
      exact Std.Refl.refl (r := R) e
    · rw [hf]
      exact hfetched
  | some x =>
    obtain ⟨op, i⟩ := x
    rw [step_of_instruction? hx]
    have hwalks := ((h op i hx e.fetched).mapFault
      (.locate e.frame.proto.source (e.frame.proto.lineAt e.frame.pc))).trans_left hfetched
    exact hwalks.andThen (f := fun _ => .done (decide (op = .ret)))
      fun _ => Std.Refl.refl (r := R)

/-- **The running frame goes on**, if the instruction at which it stands is a local one. -/
theorem walks_step {R : Engine → Engine → Prop} [Executes R]
    (h : ∀ op i, e.instruction? = some (op, i) → op.isLocal) : e.step.Walks R e :=
  walks_step_of_effect
    (Executes.updateFrame (g := fun f => { f with pc := e.frame.pc + 1 }) (fun _ => rfl) e)
    fun op i hx => op.walks_effect (h op i hx) i

/-- `SETUPVAL` assigns the value of a register through the cell of an upvalue. -/
theorem step_setUpvalue (h : e.instruction? = some (.setUpvalue, i)) :
    (e.frame.upvalue? i.b = none ∧ ∃ f, e.step = .fault f e.fetched) ∨
      ∃ c, e.frame.upvalue? i.b = some c ∧
        e.step = .done false (e.fetched.setCellValue c (e.frame.get i.a)) := by
  have hframe := frame_fetched (depth_pos_of_instruction? h)
  have hcell : e.fetched.frame.upvalue? i.b = e.frame.upvalue? i.b := by
    rw [hframe]
    rfl
  have hget : e.fetched.frame.get i.a = e.frame.get i.a := by
    rw [hframe]
    rfl
  have heffect : Opcode.setUpvalue.effect i e.fetched =
      Action.setUpvalue i.b (e.fetched.frame.get i.a) e.fetched := rfl
  rw [step_of_instruction? h, heffect, Action.setUpvalue, hcell, hget]
  cases e.frame.upvalue? i.b with
  | none => exact .inl ⟨rfl, _, rfl⟩
  | some c => exact .inr ⟨c, rfl, rfl⟩

/-- The state behind a jump, before cells are closed. -/
def jumped (e : Engine) (i : Instruction) : Engine :=
  e.updateFrame fun f => { f with pc := Action.jumpTarget (e.frame.pc + 1) i.sbx }

theorem passes_jumped (e : Engine) (i : Instruction) : e.Passes (e.jumped i) :=
  ⟨_, rfl, fun _ => rfl, fun _ => rfl⟩

/-- `JMP` moves the program counter, and closes cells if its operand `A` says so. -/
theorem step_jump (h : e.instruction? = some (.jump, i)) :
    e.step = .done false (if i.a ≠ 0 then (e.jumped i).closeCells (i.a - 1) else e.jumped i) := by
  have hjumped : (e.fetched.updateFrame fun f =>
      { f with pc := Action.jumpTarget f.pc i.sbx }) = e.jumped i := updateFrame_updateFrame _ _ _
  have heffect : Opcode.jump.effect i e.fetched =
      if i.a ≠ 0 then .done () ((e.jumped i).closeCells (i.a - 1)) else .done () (e.jumped i) := by
    rw [← hjumped]
    change (if i.a ≠ 0 then Action.modify (·.closeCells (i.a - 1)) else pure () : Action Unit)
      (e.fetched.updateFrame _) = _
    split <;> rfl
  rw [step_of_instruction? h, heffect]
  split <;> rfl

/-- The state behind a return. -/
def returned (e : Engine) (i : Instruction) : Engine :=
  e.updateFrame fun f =>
    { f with
      pc := e.frame.pc + 1
      results := e.frame.slice i.a (if i.b = 0 then e.frame.top else i.a + i.b - 1) }

theorem passes_returned (e : Engine) (i : Instruction) : e.Passes (e.returned i) :=
  ⟨_, rfl, fun _ => rfl, fun _ => rfl⟩

/-- `RETURN` keeps the results; the frame is left later. -/
theorem step_ret (h : e.instruction? = some (.ret, i)) : e.step = .done true (e.returned i) := by
  have heffect : Opcode.ret.effect i e.fetched = .done () (e.fetched.updateFrame fun f =>
      { f with
        results := e.fetched.frame.slice i.a
          (if i.b = 0 then e.fetched.frame.top else i.a + i.b - 1) }) := rfl
  rw [step_of_instruction? h, heffect, frame_fetched (depth_pos_of_instruction? h)]
  exact congrArg (Progress.done true) (updateFrame_updateFrame _ _ _)

/-! ### New functions -/

theorem functions_captureRegister (e : Engine) (r : Nat) :
    (e.captureRegister r).2.heap.functions = e.heap.functions := by
  cases hr : e.frame.openCells.lookup r with
  | some c => rw [captureRegister_of_lookup hr]
  | none =>
    rw [captureRegister_of_lookup_eq_none hr]
    rfl

/-- The cells belong to the upvalues of a new function: a register of the running frame has the
cell with which it was captured. -/
def Captured (e : Engine) (us : List UpvalueSource) (cells : List CellRef) : Prop :=
  ∀ (j : Nat) s c, us[j]? = some (.register s) → cells[j]? = some c →
    e.frame.openCells.lookup s.toNat = some c

theorem Captured.cons {us : List UpvalueSource} {u : UpvalueSource} {cells : List CellRef}
    {c : CellRef} (h : e.Captured us cells)
    (hu : ∀ s, u = .register s → e.frame.openCells.lookup s.toNat = some c) :
    e.Captured (u :: us) (c :: cells) := by
  intro j s c' hs hc
  cases j with
  | zero =>
    obtain rfl : c = c' := by simpa using hc
    exact hu s (by simpa using hs)
  | succ j => exact h j s c' (by simpa using hs) (by simpa using hc)

/-- The capture of all upvalues fails, or finds their cells. -/
theorem captureAll_spec (us : List UpvalueSource) (hpos : 0 < e.depth) :
    ∃ e', e.Advances e' ∧ e'.heap.functions = e.heap.functions ∧
      ((∃ f, Action.captureAll us e = .fault f e') ∨
        ∃ cells, Action.captureAll us e = .done cells e' ∧ e'.Captured us cells) := by
  induction us generalizing e with
  | nil => exact ⟨e, .refl e, rfl, .inr ⟨[], rfl, fun j s c hs => absurd hs (by simp)⟩⟩
  | cons u us ih =>
    cases u with
    | register s =>
      have hadv := e.advances_captureRegister s.toNat
      obtain ⟨e', hadv', hfun, hrest⟩ := ih (e := (e.captureRegister s.toNat).2)
        (hadv.depth_eq ▸ hpos)
      have hcapture : Action.captureAll (.register s :: us) e =
          (Action.captureAll us (e.captureRegister s.toNat).2).andThen
            fun cs => .done ((e.captureRegister s.toNat).1 :: cs) := rfl
      refine ⟨e', hadv.trans hadv', hfun.trans (functions_captureRegister _ _), ?_⟩
      obtain ⟨f, hf⟩ | ⟨cells, hcells, hcaptured⟩ := hrest
      · exact .inl ⟨f, by rw [hcapture, hf]; rfl⟩
      · refine .inr ⟨_, by rw [hcapture, hcells]; rfl, hcaptured.cons fun s' hs => ?_⟩
        -- the captures that follow leave the cell where it is
        obtain rfl := UpvalueSource.register.inj hs
        exact hadv'.lookup _ _ (lookup_captureRegister hpos _)
    | enclosing i =>
      have hcapture : Action.captureAll (.enclosing i :: us) e =
          (Action.orFail (Malformation.enclosingUpvalueOutOfRange i.toNat)
            (e.frame.upvalue? i.toNat) e).andThen fun c e =>
              (Action.captureAll us e).andThen fun cs => .done (c :: cs) := rfl
      cases hup : e.frame.upvalue? i.toNat with
      | none => exact ⟨e, .refl e, rfl, .inl ⟨_, by rw [hcapture, hup]; rfl⟩⟩
      | some c =>
        replace hcapture : Action.captureAll (.enclosing i :: us) e =
            (Action.captureAll us e).andThen fun cs => .done (c :: cs) := by
          rw [hcapture, hup]
          rfl
        obtain ⟨e', hadv', hfun, hrest⟩ := ih hpos
        refine ⟨e', hadv', hfun, ?_⟩
        obtain ⟨f, hf⟩ | ⟨cells, hcells, hcaptured⟩ := hrest
        · exact .inl ⟨f, by rw [hcapture, hf]; rfl⟩
        · refine .inr ⟨c :: cells, by rw [hcapture, hcells]; rfl, hcaptured.cons fun s hs => ?_⟩
          exact absurd hs (by simp)

/-- `CLOSURE` fails, or makes a function whose cells are those of its upvalues. -/
theorem step_closure (h : e.instruction? = some (.closure, i)) :
    e.step.engine.heap.functions = e.heap.functions ∨
      ∃ p cells, e.step.engine.heap.functions = e.heap.functions.push (.closure ⟨p, cells⟩) ∧
        ∀ (j : Nat) s c, p.upvalues[j]? = some (.register s) → cells[j]? = some c →
          e.step.engine.frame.openCells.lookup s.toNat = some c := by
  have hpos := depth_pos_of_instruction? h
  rw [step_of_instruction? h]
  cases hp : e.fetched.frame.proto.protos[i.bx]? with
  | none =>
    have heffect : Opcode.closure.effect i e.fetched =
        .fault (Malformation.prototypeOutOfRange i.bx) e.fetched := by
      change (((Action.orFail _ (e.fetched.frame.proto.protos[i.bx]?)) e.fetched).andThen
        _).andThen _ = _
      rw [hp]
      rfl
    rw [heffect]
    exact .inl rfl
  | some p =>
    obtain ⟨e', -, hfun, hcases⟩ := captureAll_spec (e := e.fetched) p.upvalues.toList
      ((advances_fetched e).depth_eq ▸ hpos)
    have heffect : Opcode.closure.effect i e.fetched =
        ((Action.captureAll p.upvalues.toList e.fetched).andThen fun cells e =>
          .done (.function (e.newFunction (.closure ⟨p, cells.toArray⟩)).1)
            (e.newFunction (.closure ⟨p, cells.toArray⟩)).2).andThen
          fun v e => .done () (e.updateFrame (·.set i.a v)) := by
      change (((Action.orFail _ (e.fetched.frame.proto.protos[i.bx]?)) e.fetched).andThen
        _).andThen _ = _
      rw [hp]
      rfl
    rw [heffect]
    obtain ⟨f, hf⟩ | ⟨cells, hcells, hlookup⟩ := hcases
    · rw [hf]
      exact .inl hfun
    · rw [hcells]
      refine .inr ⟨p, cells.toArray, congrArg (Array.push · _) hfun, fun j s c hs hc => ?_⟩
      have hnew : e'.Calm (e'.newFunction (.closure ⟨p, cells.toArray⟩)).2 := ⟨rfl, rfl, rfl⟩
      have hset := advances_updateFrame (fun f => Frame.links_set f i.a
        (.function (e'.newFunction (.closure ⟨p, cells.toArray⟩)).1))
        (e'.newFunction (.closure ⟨p, cells.toArray⟩)).2
      exact (hnew.advances.trans hset).lookup _ _
        (hlookup j s c (by simpa using hs) (by simpa using hc))

end Engine

end LuaBytecode
