import LuaBytecode.Proofs.Frame.Register
import LuaBytecode.Proofs.Run.Isolation
import LuaBytecode.Proofs.Variable.Invariant

/-!
# Lists of values in calls

Arguments and results go from register to register in lists, whose length may be open: then only the
top of the frame tells it.

* `Engine.step_vararg`, `Engine.exists_step_call`, `Engine.exists_step_tforCall` : what stores lists.
* `Engine.exists_step_call`, `Engine.results_returned`, `Engine.step_setList` : what reads them.
* `Machine.steps_of_returnsVarargs` : a function that returns its arguments.
* `Machine.steps_of_tailCall` : a function that returns the results of another one.
* `Machine.lists_pass_unchanged` : **what is stored is what is read.**
-/

namespace LuaBytecode

namespace Engine

variable {e e' : Engine} {i j : Instruction} {op : Opcode} {vs args : List Value}

theorem depth_fetched (e : Engine) : e.fetched.depth = e.depth := depth_updateFrame e _

theorem get_fetched (h : 0 < e.depth) (r : Nat) : e.fetched.frame.get r = e.frame.get r := by
  rw [frame_fetched h]
  rfl

theorem list_fetched (h : 0 < e.depth) (base count : Nat) :
    e.fetched.frame.list base count = e.frame.list base count := by
  rw [frame_fetched h]
  rfl

/-! ### Instructions -/

/-- `VARARG` stores the arguments beyond the parameters; a top is set only behind all of them. -/
theorem step_vararg (h : e.instruction? = some (.vararg, i)) :
    e.step = .done false (e.fetched.updateFrame fun f =>
      if i.b = 0 then f.stored i.a 0 f.varargs
      else f.setRange i.a (Frame.counted i.b f.varargs)) := by
  rw [step_of_instruction? h]
  refine congrArg (Progress.done false) (updateFrame_congr ?_)
  by_cases hb : i.b = 0
  · rw [if_pos hb, if_pos hb]
    rfl
  · rw [if_neg hb, if_neg hb, Frame.counted, if_neg hb]

/-- The registers that `VARARG` writes are read back by the same operand. -/
theorem list_of_vararg (h : e.instruction? = some (.vararg, i)) :
    ∃ e', e.step = .done false e' ∧
      e'.frame.list i.a i.b = Frame.counted i.b e.frame.varargs := by
  have hpos := depth_pos_of_instruction? h
  refine ⟨_, step_vararg h, ?_⟩
  rw [frame_updateFrame (by rwa [depth_fetched]), frame_fetched hpos]
  by_cases hb : i.b = 0
  · rw [if_pos hb, hb]
    exact Frame.list_stored _ _ (.inl rfl) _
  · rw [if_neg hb]
    exact Frame.list_setRange _ _ hb _

/-- `CALL` and `TAILCALL` hand over the list behind the function, and store the results. -/
theorem exists_step_call (hop : op = .call ∨ op = .tailCall) (h : e.instruction? = some (op, i)) :
    ∃ go, e.step =
        .await (.call (e.frame.get i.a) (e.frame.list (i.a + 1) i.b)) e.fetched go ∧
      ∀ vs e', go (.ok vs) e' = .done false (e'.updateFrame (·.stored i.a i.c vs)) := by
  have hpos := depth_pos_of_instruction? h
  rw [step_of_instruction? h, ← get_fetched hpos, ← list_fetched hpos]
  obtain rfl | rfl := hop
  · exact ⟨_, rfl, fun vs e' => rfl⟩
  · exact ⟨_, rfl, fun vs e' => rfl⟩

/-- `TFORCALL` hands over the two values behind the function, and stores a fixed number of
results. -/
theorem exists_step_tforCall (h : e.instruction? = some (.tforCall, i)) :
    ∃ go, e.step = .await
        (.call (e.frame.get i.a) [e.frame.get (i.a + 1), e.frame.get (i.a + 2)]) e.fetched go ∧
      ∀ vs e', go (.ok vs) e' =
        .done false (e'.updateFrame (·.stored (i.a + 3) (i.c + 1) vs)) := by
  have hpos := depth_pos_of_instruction? h
  have hslice : e.fetched.frame.slice (i.a + 1) (i.a + 3) =
      [e.frame.get (i.a + 1), e.frame.get (i.a + 2)] := by
    have hlen : i.a + 3 - (i.a + 1) = 2 := by omega
    rw [frame_fetched hpos, Frame.slice, hlen]
    rfl
  rw [step_of_instruction? h, ← hslice, ← get_fetched hpos]
  exact ⟨_, rfl, fun vs e' => rfl⟩

/-- `RETURN` keeps the list that it names. -/
theorem results_returned (h : e.instruction? = some (.ret, i)) :
    (e.returned i).frame.results = e.frame.list i.a i.b := by
  rw [returned, frame_updateFrame (depth_pos_of_instruction? h), Frame.list]

/-- The operand of an `EXTRAARG` is read by skipping it. -/
theorem eq_of_extraArg {n : Nat} (h : Action.extraArg e = .done n e') :
    e' = e.updateFrame fun f => { f with pc := f.pc + 1 } := by
  rw [Action.extraArg, Action.read_bind] at h
  cases hcode : e.frame.proto.code[e.frame.pc]? with
  | none =>
    rw [hcode] at h
    change Progress.fault _ e = .done n e' at h
    cases h
  | some x =>
    rw [hcode] at h
    change (if x.opcode? = some .extraArg then _ else _ : Action Nat) e = _ at h
    split at h
    · exact (Progress.done.inj h).2.symm
    · change Progress.fault _ e = .done n e' at h
      cases h

/-- A batch is the list behind the table. -/
theorem storeBatch_succ {a b n : Nat} {t : TableRef} (ht : e.frame.get a = .table t) :
    (Routine.storeBatch a b (n + 1)).run e = .done () (Action.storeItems t
      (n * itemsPerBatch + 1) (e.frame.list (a + 1) (if b = 0 then 0 else b + 1)) e) := by
  have hlist : e.frame.list (a + 1) (if b = 0 then 0 else b + 1) =
      e.frame.slice (a + 1) (if b = 0 then e.frame.top else a + 1 + b) := by
    by_cases hb : b = 0
    · rw [if_pos hb, if_pos hb, Frame.list, if_pos rfl]
    · rw [if_neg hb, if_neg hb, Frame.list, if_neg (Nat.succ_ne_zero b)]
      rfl
  rw [hlist, Routine.run_storeBatch, if_neg (Nat.succ_ne_zero n)]
  dsimp only
  rw [Action.read_bind, Action.register, Action.read_bind, ht]
  rfl

/-- `SETLIST` stores the list behind the table, as the batch with the given number. -/
theorem step_setList {t : TableRef} {n : Nat} (h : e.instruction? = some (.setList, i))
    (ht : e.frame.get i.a = .table t)
    (hbatch : (if i.c = 0 then Action.extraArg else pure i.c) e.fetched = .done (n + 1) e') :
    e.step = .done false (Action.storeItems t (n * itemsPerBatch + 1)
      (e.frame.list (i.a + 1) (if i.b = 0 then 0 else i.b + 1)) e') := by
  have hpos := depth_pos_of_instruction? h
  -- the batch number leaves the registers and the top alone
  obtain ⟨hget, hlist⟩ : e'.frame.get i.a = e.frame.get i.a ∧
      ∀ count, e'.frame.list (i.a + 1) count = e.frame.list (i.a + 1) count := by
    by_cases hc : i.c = 0
    · rw [if_pos hc] at hbatch
      rw [eq_of_extraArg hbatch, frame_updateFrame (by rwa [depth_fetched]), frame_fetched hpos]
      exact ⟨rfl, fun count => rfl⟩
    · rw [if_neg hc] at hbatch
      rw [← (Progress.done.inj hbatch).2]
      exact ⟨get_fetched hpos _, list_fetched hpos _⟩
  have hstore := storeBatch_succ (b := i.b) (n := n) (hget.trans ht)
  rw [hlist] at hstore
  have heffect : Opcode.setList.effect i e.fetched = .done () (Action.storeItems t
      (n * itemsPerBatch + 1) (e.frame.list (i.a + 1) (if i.b = 0 then 0 else i.b + 1)) e') := by
    change Action.setList i.a i.b i.c e.fetched = _
    rw [← Routine.run_setList, Routine.setList, Routine.run_ite, ← hstore]
    by_cases hc : i.c = 0
    · rw [if_pos hc] at hbatch ⊢
      rw [Routine.run_bind, Routine.run_extraArg, Action.bind_apply, hbatch]
      rfl
    · rw [if_neg hc] at hbatch ⊢
      obtain ⟨hn, hframe⟩ := Progress.done.inj hbatch
      rw [hn, hframe]
  rw [step_of_instruction? h, heffect]
  rfl

/-! ### The beginning and the end of a function -/

theorem frame_push (e : Engine) (c : Closure) (args : List Value) :
    (e.push c args).frame = .start ⟨e.depth, e.serial + 1⟩ c args e.config.minRegisters := by
  simp [frame, push, depth]

/-- A function is left with the results that it kept. -/
theorem results_unwindTo {base : Nat} (h : e.depth = base + 1) :
    (e.unwindTo base).1 = e.frame.results := by
  have hone : e.frames.size - base = 1 := by
    rw [depth] at h
    omega
  rw [unwindTo, hone]
  rfl

end Engine

namespace Machine

variable {config : Config} {base : Nat} {w : List Waiting} {e e' : Engine} {i j : Instruction}
  {op : Opcode} {f : Value} {vs args : List Value} {c : Closure}

/-- A step of a run that executes an instruction. -/
theorem step_of_step {p : Progress Bool} (h : e.step = p) :
    step ⟨.script base (.done false e), w⟩ = some ⟨.script base p, w⟩ := by
  rw [step, h]

/-- A function that stands at a `RETURN` ends with the list that it names. -/
theorem steps_of_ret (h : e.instruction? = some (.ret, i)) (hbase : e.depth = base + 1) :
    ∃ e', e'.depth = base ∧ ∀ w, Steps ⟨.script base (.done false e), w⟩
      ⟨.ended (.ok (e.frame.list i.a i.b)) e', w⟩ := by
  have hdepth : (e.returned i).depth = base + 1 := by
    rw [← hbase, Engine.returned, Engine.depth_updateFrame]
  refine ⟨((e.returned i).unwindTo base).2, ?_, fun w => ?_⟩
  · rw [Engine.depth_unwindTo, hdepth]
    omega
  · rw [← Engine.results_returned h, ← Engine.results_unwindTo hdepth]
    exact (Steps.of_step (step_of_step (Engine.step_ret h))).trans (Steps.of_step rfl)

/-- A function that calls another one goes on with the results that the call ends with. -/
theorem steps_of_call (hop : op = .call ∨ op = .tailCall) (h : e.instruction? = some (op, i))
    (hcall : ∀ w, Steps ⟨e.fetched.begin
      (.call (e.frame.get i.a) (e.frame.list (i.a + 1) i.b)), w⟩ ⟨.ended (.ok vs) e', w⟩) :
    Steps ⟨.script base (.done false e), w⟩
      ⟨.script base (.done false (e'.updateFrame (·.stored i.a i.c vs))), w⟩ := by
  obtain ⟨go, hstep, hgo⟩ := Engine.exists_step_call hop h
  have hbegin : Steps ⟨.script base (.done false e), w⟩ ⟨e.fetched.begin
      (.call (e.frame.get i.a) (e.frame.list (i.a + 1) i.b)), .script base go :: w⟩ :=
    (Steps.of_step (step_of_step hstep)).trans (Steps.of_step rfl)
  exact (hbegin.trans (hcall _)).trans (Steps.of_step (by rw [step, hgo]))

/-! ### Functions that pass lists on -/

/-- The code of a function that returns its arguments: `VARARG` of all of them to a register, and
`RETURN` of all from there. -/
structure ReturnsVarargs (p : Prototype) (i j : Instruction) : Prop where
  isVararg : p.isVararg = true
  first : p.code[0]? = some i
  vararg : i.opcode? = some .vararg
  expandsAll : i.b = 0
  second : p.code[1]? = some j
  ret : j.opcode? = some .ret
  returnsAll : j.b = 0
  register : j.a = i.a

/-- **Arguments come back from a function that returns them.** -/
theorem steps_of_returnsVarargs (hc : ReturnsVarargs c.proto i j)
    (hcallee : e.callee f args = .ok (.closure c, vs)) (hfull : e.isFull = false) :
    ∃ e', e'.depth = e.depth ∧ ∀ w, Steps ⟨e.begin (.call f args), w⟩
      ⟨.ended (.ok (vs.drop c.proto.params.toNat)) e', w⟩ := by
  have hbegin : e.begin (.call f args) = .script e.depth (.done false (e.push c vs)) := by
    rw [Engine.begin, hcallee]
    simp only [hfull, Bool.false_eq_true, if_false]
  have hdepth : (e.push c vs).depth = e.depth + 1 := e.depth_push c vs
  have hpos : 0 < (e.push c vs).depth := by omega
  have hframe := e.frame_push c vs
  have hvararg : (e.push c vs).instruction? = some (.vararg, i) :=
    Engine.instruction?_eq_some (by rw [hframe]; exact hc.first) hc.vararg
  -- the frame between the two instructions
  obtain ⟨e₁, hstep, hdepth₁, hframe₁⟩ : ∃ e₁, (e.push c vs).step = .done false e₁ ∧
      e₁.depth = e.depth + 1 ∧ e₁.frame = (e.push c vs).fetched.frame.stored i.a 0
        (vs.drop c.proto.params.toNat) := by
    refine ⟨_, Engine.step_vararg hvararg, ?_, ?_⟩
    · rw [Engine.depth_updateFrame, Engine.depth_fetched, hdepth]
    · rw [Engine.frame_updateFrame (by rwa [Engine.depth_fetched]), if_pos hc.expandsAll]
      refine congrArg (Frame.stored _ i.a 0) ?_
      rw [Engine.frame_fetched hpos, hframe]
      exact if_pos hc.isVararg
  have hret : e₁.instruction? = some (.ret, j) := by
    refine Engine.instruction?_eq_some ?_ hc.ret
    rw [hframe₁, Frame.proto_stored, Frame.pc_stored, Engine.frame_fetched hpos, hframe]
    exact hc.second
  have hlist : e₁.frame.list j.a j.b = vs.drop c.proto.params.toNat := by
    rw [hframe₁, hc.register, hc.returnsAll]
    exact Frame.list_stored _ _ (.inl rfl) _
  obtain ⟨e', hdepth', hsteps⟩ := steps_of_ret hret hdepth₁
  refine ⟨e', hdepth', fun w => ?_⟩
  rw [hbegin, ← hlist]
  exact (Steps.of_step (step_of_step hstep)).trans (hsteps w)

/-- **Results of a call come back from a function that returns them.** -/
theorem steps_of_tailCall (h : Reachable config ⟨.script base (.done false e), w⟩)
    (hcall : e.instruction? = some (.tailCall, i)) (hall : i.c = 0)
    (hcode : e.frame.proto.code[e.frame.pc + 1]? = some j) (hret : j.opcode? = some .ret)
    (hb : j.b = 0) (ha : j.a = i.a) {n : Nat}
    (hperform : Engine.perform n (.call (e.frame.get i.a) (e.frame.list (i.a + 1) i.b)) e.fetched =
      .done vs e') :
    ∃ e₁, Steps ⟨.script base (.done false e), w⟩ ⟨.ended (.ok vs) e₁, w⟩ := by
  have hpos := Engine.depth_pos_of_instruction? hcall
  have hbase : e.depth = base + 1 := h.sound.activity.1
  obtain ⟨go, hstep, -⟩ := Engine.exists_step_call (.inr rfl) hcall
  -- the call leaves the frame of the function as it was
  have hlinked : e.fetched.Linked := Reachable.linked (h.tail (.step (step_of_step hstep)))
  have hspares := (Engine.perform_execute_spares n).1 _ _ (.ok vs) e' hperform
  have hkeeps := hspares.keeps_frame hlinked
  rw [Engine.frame_fetched hpos] at hkeeps
  have hdepth := hspares.depth_eq
  rw [Engine.depth_fetched] at hdepth
  have hdepth₁ : (e'.updateFrame (·.stored i.a i.c vs)).depth = base + 1 := by
    rw [Engine.depth_updateFrame, hdepth, hbase]
  have hframe₁ : (e'.updateFrame (·.stored i.a i.c vs)).frame = e'.frame.stored i.a i.c vs :=
    Engine.frame_updateFrame (by omega) _
  have hstand : (e'.updateFrame (·.stored i.a i.c vs)).instruction? = some (.ret, j) := by
    refine Engine.instruction?_eq_some ?_ hret
    rw [hframe₁, Frame.proto_stored, Frame.pc_stored, Frame.proto, hkeeps.closure_eq, hkeeps.pc_eq]
    exact hcode
  have hlist : (e'.updateFrame (·.stored i.a i.c vs)).frame.list j.a j.b = vs := by
    rw [hframe₁, ha, hb, hall]
    exact Frame.list_stored _ _ (.inl rfl) _
  obtain ⟨e₁, -, hend⟩ := steps_of_ret hstand hdepth₁
  rw [hlist] at hend
  exact ⟨e₁, (steps_of_call (.inr rfl) hcall fun w => steps_perform hperform w).trans (hend w)⟩

/-- A call of a function that returns its arguments stores just these. -/
theorem steps_of_call_returnsVarargs {r : FunctionRef} (hc : ReturnsVarargs c.proto i j)
    {k : Instruction} (h : e.instruction? = some (.call, k)) (hall : k.c = 0)
    (hr : e.frame.get k.a = .function r) (hfun : e.heap.function? r = some (.closure c))
    (hfull : e.isFull = false) :
    ∃ e', Steps ⟨.script base (.done false e), w⟩ ⟨.script base (.done false e'), w⟩ ∧
      e'.frame.list k.a 0 = (e.frame.list (k.a + 1) k.b).drop c.proto.params.toNat := by
  have hpos := Engine.depth_pos_of_instruction? h
  have hcallee : e.fetched.callee (e.frame.get k.a) (e.frame.list (k.a + 1) k.b) =
      .ok (.closure c, e.frame.list (k.a + 1) k.b) := by
    have hat : e.fetched.functionAt r = .ok (.closure c) := by
      rw [Engine.functionAt, show e.fetched.heap.function? r = _ from hfun]
    rw [hr]
    change (e.fetched.functionAt r).map _ = _
    rw [hat]
    rfl
  have hfull' : e.fetched.isFull = false := by
    rw [Engine.isFull, Engine.depth_fetched]
    exact hfull
  obtain ⟨e', hdepth, hsteps⟩ := steps_of_returnsVarargs hc hcallee hfull'
  rw [Engine.depth_fetched] at hdepth
  refine ⟨_, steps_of_call (.inl rfl) h hsteps, ?_⟩
  rw [Engine.frame_updateFrame (by omega), hall]
  exact Frame.list_stored _ _ (.inl rfl) _

/-- **Lists of values pass through calls unchanged**, whatever they hold and however long they are.
A function finds its arguments in its first registers and the others, if it keeps them, beside
them; all other registers are nil.  What an instruction stores, with an open count or with a fixed
one, an instruction with the same operand reads from the same register: no more and no fewer values,
filled with nil up to a fixed count.  So a function that returns its varargs gives a caller
that asks for all of them just its arguments, and one that returns the results of a tail call ends
with just these. -/
theorem lists_pass_unchanged :
    (∀ (id : FrameId) (c : Closure) (args : List Value) (n r : Nat),
      (Frame.start id c args n).get r =
          (if r < c.proto.params.toNat then args.getD r .nil else .nil) ∧
        (Frame.start id c args n).varargs =
          if c.proto.isVararg then args.drop c.proto.params.toNat else []) ∧
    (∀ (e : Engine) (i : Instruction), e.instruction? = some (.vararg, i) →
      ∃ e', e.step = .done false e' ∧
        e'.frame.list i.a i.b = Frame.counted i.b e.frame.varargs) ∧
    (∀ (e : Engine) (i : Instruction) (op : Opcode), op = .call ∨ op = .tailCall →
      e.instruction? = some (op, i) → ∃ go, e.step =
          .await (.call (e.frame.get i.a) (e.frame.list (i.a + 1) i.b)) e.fetched go ∧
        ∀ vs e', 0 < e'.depth → ∃ e'', go (.ok vs) e' = .done false e'' ∧
          ∀ n, n = 0 ∨ n = i.c → e''.frame.list i.a n = Frame.counted i.c vs) ∧
    (∀ (e : Engine) (i : Instruction), e.instruction? = some (.tforCall, i) → ∃ go, e.step = .await
          (.call (e.frame.get i.a) [e.frame.get (i.a + 1), e.frame.get (i.a + 2)]) e.fetched go ∧
        ∀ vs e', 0 < e'.depth → ∃ e'', go (.ok vs) e' = .done false e'' ∧
          ∀ n, n = 0 ∨ n = i.c + 1 → e''.frame.list (i.a + 3) n = Frame.padded i.c vs) ∧
    (∀ (e : Engine) (i : Instruction), e.instruction? = some (.ret, i) →
      ∃ e', e.step = .done true e' ∧ e'.frame.results = e.frame.list i.a i.b) ∧
    (∀ (e e' : Engine) (i : Instruction) (t : TableRef) (n : Nat),
      e.instruction? = some (.setList, i) → e.frame.get i.a = .table t →
      (if i.c = 0 then Action.extraArg else pure i.c) e.fetched = .done (n + 1) e' →
      e.step = .done false (Action.storeItems t (n * itemsPerBatch + 1)
        (e.frame.list (i.a + 1) (if i.b = 0 then 0 else i.b + 1)) e')) ∧
    (∀ (base : Nat) (w : List Waiting) (e : Engine) (c : Closure) (r : FunctionRef)
      (i j k : Instruction), e.instruction? = some (.call, k) → k.c = 0 →
      e.frame.get k.a = .function r → e.heap.function? r = some (.closure c) →
      e.isFull = false → ReturnsVarargs c.proto i j →
      ∃ e', Steps ⟨.script base (.done false e), w⟩ ⟨.script base (.done false e'), w⟩ ∧
        e'.frame.list k.a 0 = (e.frame.list (k.a + 1) k.b).drop c.proto.params.toNat) ∧
    ∀ (config : Config) (base n : Nat) (w : List Waiting) (e e' : Engine) (i j : Instruction)
      (vs : List Value), Reachable config ⟨.script base (.done false e), w⟩ →
      e.instruction? = some (.tailCall, i) → i.c = 0 →
      e.frame.proto.code[e.frame.pc + 1]? = some j → j.opcode? = some .ret → j.b = 0 →
      j.a = i.a → Engine.perform n (.call (e.frame.get i.a) (e.frame.list (i.a + 1) i.b))
        e.fetched = .done vs e' →
      ∃ e₁, Steps ⟨.script base (.done false e), w⟩ ⟨.ended (.ok vs) e₁, w⟩ := by
  refine ⟨fun id c args n r => ⟨Frame.get_start id c args n r, rfl⟩,
    fun e i => Engine.list_of_vararg, fun e i op hop h => ?_, fun e i h => ?_,
    fun e i h => ⟨_, Engine.step_ret h, Engine.results_returned h⟩,
    fun e e' i t n => Engine.step_setList, ?_, ?_⟩
  · obtain ⟨go, hstep, hgo⟩ := Engine.exists_step_call hop h
    refine ⟨go, hstep, fun vs e' hpos => ⟨_, hgo vs e', fun n hn => ?_⟩⟩
    rw [Engine.frame_updateFrame hpos]
    exact Frame.list_stored _ _ hn _
  · obtain ⟨go, hstep, hgo⟩ := Engine.exists_step_tforCall h
    refine ⟨go, hstep, fun vs e' hpos => ⟨_, hgo vs e', fun n hn => ?_⟩⟩
    rw [Engine.frame_updateFrame hpos]
    exact Frame.list_stored _ _ hn _
  · intro base w e c r i j k h hall hr hfun hfull hc
    exact steps_of_call_returnsVarargs hc h hall hr hfun hfull
  · intro config base n w e e' i j vs h hcall hall hcode hret hb ha hperform
    exact steps_of_tailCall h hcall hall hcode hret hb ha hperform

/-- A function that returns its arguments. -/
def returningArgs : Prototype :=
  { isVararg := true, code := #[.abc .vararg 0 0 0, .abc .ret 0 0 0] }

/-- A chunk that returns what this function gives for 7 and nil. -/
def returningPair : Prototype :=
  { code := #[.abx .closure 0 0, .abx .loadK 1 0, .abc .loadNil 2 0 0, .abc .call 0 3 0,
      .abc .ret 0 0 0]
    constants := #[.number (.int 7)]
    protos := #[returningArgs] }

/-- Both come back, nil too. -/
theorem lists_pass_unchanged_returningPair :
    let e := ((running returningPair).after 3).engine
    ∃ e', Steps ⟨.script 0 (.done false e), []⟩ ⟨.script 0 (.done false e'), []⟩ ∧
      e'.frame.list 0 0 = [.int 7, .nil] := by
  obtain ⟨-, -, -, -, -, -, hcall, -⟩ := lists_pass_unchanged
  have hc : ReturnsVarargs returningArgs (.abc .vararg 0 0 0) (.abc .ret 0 0 0) :=
    ⟨rfl, rfl, rfl, rfl, rfl, rfl, rfl, rfl⟩
  exact hcall 0 [] ((running returningPair).after 3).engine ⟨returningArgs, #[]⟩ ⟨0⟩
    (.abc .vararg 0 0 0) (.abc .ret 0 0 0) (.abc .call 0 3 0) rfl rfl rfl rfl rfl hc

end Machine

end LuaBytecode
