import LuaBytecode.Proofs.Alike.Engine
import LuaBytecode.Proofs.Instruction.Routine
import LuaBytecode.Proofs.Run.Walk

/-!
# Actions in engines that are alike

An action does the same in engines that are alike: it gives the same result or fault, awaits the same
calls, and leaves engines that are alike.

* `Progress.Alike` : two courses that are the same but for sizes.
* `Action.Alike` : actions that take such courses in engines that are alike, with a rule for each way
  to put actions together.
* `Host.Alike.act` : host functions.
* `Opcode.alike_effect` : instructions, one case for each opcode.
* `Engine.Alike.step` : **the next instruction does the same.**
-/

namespace LuaBytecode

variable {α β : Type}

/-- Courses with the same result or fault, the same waits, and states that are alike. -/
inductive Progress.Alike : Progress α → Progress α → Prop where
  | done (a : α) {e e' : Engine} (h : e.Alike e') : Alike (.done a e) (.done a e')
  | fault (f : Fault) {e e' : Engine} (h : e.Alike e') : Alike (.fault f e) (.fault f e')
  | await {job job' : Job} {e e' : Engine} {go go' : Except Fault (List Value) → Engine → Progress α}
      (hjob : job.Alike job') (h : e.Alike e')
      (hgo : ∀ r {e e' : Engine}, e.Alike e' → Alike (go r e) (go' r e')) :
      Alike (.await job e go) (.await job' e' go')

namespace Progress.Alike

theorem andFinally {p p' : Progress α} {f f' : Except Fault α → Engine → Progress β}
    (hp : p.Alike p') (hf : ∀ r {e e' : Engine}, e.Alike e' → (f r e).Alike (f' r e')) :
    (p.andFinally f).Alike (p'.andFinally f') := by
  induction hp with
  | done a h => exact hf (.ok a) h
  | fault x h => exact hf (.error x) h
  | await hjob h _ ih => exact .await hjob h fun r _ _ h => ih r h

theorem andThen {p p' : Progress α} {f f' : α → Engine → Progress β} (hp : p.Alike p')
    (hf : ∀ a {e e' : Engine}, e.Alike e' → (f a e).Alike (f' a e')) :
    (p.andThen f).Alike (p'.andThen f') := by
  refine hp.andFinally fun r e e' h => ?_
  cases r with
  | ok a => exact hf a h
  | error x => exact .fault x h

theorem mapFault {p p' : Progress α} (hp : p.Alike p') (g : Fault → Fault) :
    (p.mapFault g).Alike (p'.mapFault g) := by
  refine hp.andFinally fun r e e' h => ?_
  cases r with
  | ok a => exact .done a h
  | error x => exact .fault (g x) h

theorem atEnd {p p' : Progress α} {g g' : Engine → Engine} (hp : p.Alike p')
    (hg : ∀ {e e' : Engine}, e.Alike e' → (g e).Alike (g' e')) :
    (p.atEnd g).Alike (p'.atEnd g') := by
  refine hp.andFinally fun r e e' h => ?_
  cases r with
  | ok a => exact .done a (hg h)
  | error x => exact .fault x (hg h)

end Progress.Alike

/-! ### Actions -/

/-- Actions that take courses that are alike in engines that are alike. -/
def Action.Alike (x x' : Action α) : Prop :=
  ∀ ⦃e e' : Engine⦄, e.Alike e' → (x e).Alike (x' e')

namespace Action.Alike

theorem pure (a : α) : (Pure.pure a : Action α).Alike (Pure.pure a) := fun _ _ h => .done a h

theorem bind {x x' : Action α} {f f' : α → Action β} (hx : x.Alike x')
    (hf : ∀ a, (f a).Alike (f' a)) : (x >>= f).Alike (x' >>= f') :=
  fun _ _ h => (hx h).andThen fun a _ _ h => hf a h

theorem read {f f' : Engine → α} (hf : ∀ {e e' : Engine}, e.Alike e' → f' e' = f e) :
    (Action.read f).Alike (Action.read f') := by
  intro e e' h
  show Progress.Alike (.done (f e) e) (.done (f' e') e')
  rw [hf h]
  exact .done (f e) h

/-- A look at a table. -/
theorem readTable (t : TableRef) (f : Table → α) :
    (Action.read fun e => f (e.heap.table t)).Alike (Action.read fun e => f (e.heap.table t)) :=
  read fun h => congrArg f (h.heap.table_eq t)

theorem modify {g g' : Engine → Engine} (hg : ∀ {e e' : Engine}, e.Alike e' → (g e).Alike (g' e')) :
    (Action.modify g).Alike (Action.modify g') := fun _ _ h => .done () (hg h)

/-- A change of the running frame. -/
theorem updateFrame {g g' : Frame → Frame}
    (hg : ∀ {f f' : Frame}, f.Alike f' → (g f).Alike (g' f')) :
    (Action.modify (·.updateFrame g)).Alike (Action.modify (·.updateFrame g')) :=
  modify fun h => h.updateFrame hg

theorem update {g g' : Engine → α × Engine}
    (hg : ∀ {e e' : Engine}, e.Alike e' → (g' e').1 = (g e).1 ∧ (g e).2.Alike (g' e').2) :
    (Action.update g).Alike (Action.update g') := by
  intro e e' h
  obtain ⟨hresult, hengine⟩ := hg h
  show Progress.Alike (.done (g e).1 (g e).2) (.done (g' e').1 (g' e').2)
  rw [hresult]
  exact .done _ hengine

theorem fail (f : Fault) : (Action.fail f : Action α).Alike (Action.fail f) :=
  fun _ _ h => .fault f h

theorem orFail (f : Fault) (a? : Option α) : (Action.orFail f a?).Alike (Action.orFail f a?) := by
  cases a? with
  | none => exact fail f
  | some a => exact pure a

theorem ite {p : Prop} [Decidable p] {x x' y y' : Action α} (hx : x.Alike x') (hy : y.Alike y') :
    (if p then x else y).Alike (if p then x' else y') := by
  split
  · exact hx
  · exact hy

theorem await {job job' : Job} (hjob : job.Alike job') :
    (Action.await job).Alike (Action.await job') := by
  intro e e' h
  refine .await hjob h fun r e e' h => ?_
  cases r with
  | ok vs => exact .done vs h
  | error f => exact .fault f h

theorem call (f : Value) (args : List Value) : (Action.call f args).Alike (Action.call f args) :=
  await (.call f args)

end Action.Alike

namespace Action

/-! ### Operations with metamethods -/

theorem alike_setRaw (t : TableRef) (key v : Value) : (setRaw t key v).Alike (setRaw t key v) := by
  intro e e' h
  unfold setRaw
  cases Key.ofValue? key with
  | some k => exact .done () (h.updateTable t _)
  | none => exact .fault _ h

/-- Tables are the same in engines that are alike, so operations with metamethods do the same. -/
theorem inherited_alike : Inherited fun {_} x => Action.Alike x x where
  pure := .pure
  bind := .bind
  read hf := .read fun h => hf h.heap.tables_eq h.globals_eq h.defaultMeta_eq
  fail _ := .fail _
  call := .call
  setRaw := alike_setRaw

/-! ### Host functions -/

theorem alike_next (t : TableRef) (key : Value) : (next t key).Alike (next t key) := by
  intro e e' h
  have hheap := h.updateTable t fun _ => ((e.heap.table t).next key).2
  unfold next
  rw [h.heap.table_eq]
  dsimp only
  split
  · exact .fault _ hheap
  · exact .done _ hheap
  · exact .done _ hheap

theorem alike_emit (event : Event) : (emit event).Alike (emit event) := .modify fun h => h.emit event

theorem alike_metatableOf (v : Value) :
    (read (·.metatableOf v)).Alike (read (·.metatableOf v)) := by
  refine .read fun {e e'} h => ?_
  cases v with
  | table t => exact congrArg Table.metatable (h.heap.table_eq t)
  | _ => simp only [Engine.metatableOf, h.defaultMeta_eq, h.heap.table_eq]

/-- **Requests get the same answers.** -/
theorem alike_answer {r r' : Request} (hr : r.Alike r') : (answer r).Alike (answer r') := by
  cases hr with
  | runChunk hp => exact .await (.chunk hp)
  | refl =>
    match r with
    | .call f args => exact .call _ _
    | .callGlobal name args => exact inherited_alike.callGlobal _ _
    | .index object key => exact .bind (inherited_alike.index _ _) fun _ => .pure _
    | .runChunk p => exact .await (.chunk (.refl p))
    | .metaField v event =>
      exact .bind (inherited_alike.read (.metamethod v event)) fun _ => .pure _
    | .metatable v => exact .bind (alike_metatableOf v) fun _ => .pure _
    | .setMetatable t meta? => exact .bind (.modify fun h => h.updateTable t _) fun _ => .pure _
    | .getRaw t key => exact .readTable t fun table => [table.get key]
    | .setRaw t key v => exact .bind (alike_setRaw _ _ _) fun _ => .pure _
    | .next t key => exact alike_next _ _
    | .length t => exact .readTable t fun table => [Value.int (Int64.ofNat table.length)]
    | .text v => exact .read fun h => congrArg (fun s => [Value.string s]) (h.heap.text_eq v)
    | .print line => exact .bind (alike_emit _) fun _ => .pure _
    | .note vs => exact .bind (alike_emit _) fun _ => .pure _

end Action

/-- **Host functions do the same**, up to their calls. -/
theorem Host.Alike.act {x x' : Host} (h : x.Alike x') : x.act.Alike x'.act := by
  induction h with
  | done vs => exact fun _ _ h => .done vs h
  | fail f => exact fun _ _ h => .fault f h
  | ask hr _ ih =>
    exact fun _ _ h => (Action.alike_answer hr h).andFinally fun r _ _ h => ih r h
  | define name hbody _ _ ih =>
    intro e e' h
    obtain ⟨hf, hnew⟩ := h.newFunction (.native name hbody)
    rw [Host.act, Host.act]
    simp only [hf]
    exact ih _ hnew

/-! ### Instructions -/

namespace Action

theorem alike_register (r : Nat) : (register r).Alike (register r) := .read fun h => h.frame.get_eq r

theorem alike_setRegister (r : Nat) (v : Value) : (setRegister r v).Alike (setRegister r v) :=
  .updateFrame fun h => h.set r v

theorem alike_skip : skip.Alike skip := .updateFrame fun h => h.mapPc (· + 1)

theorem alike_jump (offset : Int) : (jump offset).Alike (jump offset) :=
  .updateFrame fun h => h.mapPc (jumpTarget · offset)

theorem alike_constant (i : Nat) : (constant i).Alike (constant i) := by
  intro e e' h
  unfold constant
  rw [h.frame.proto.constants_eq]
  split
  · exact .done _ h
  · exact .fault _ h

theorem alike_rk (x : Nat) : (rk x).Alike (rk x) := .ite (alike_constant _) (alike_register _)

theorem alike_upvalue (i : Nat) : (upvalue i).Alike (upvalue i) := by
  intro e e' h
  unfold upvalue
  rw [h.frame.upvalue?_eq]
  cases e.frame.upvalue? i with
  | none => exact .fault _ h
  | some c =>
    simp only [h.cellValue_eq]
    exact .done _ h

theorem alike_setUpvalue (i : Nat) (v : Value) : (setUpvalue i v).Alike (setUpvalue i v) := by
  intro e e' h
  unfold setUpvalue
  rw [h.frame.upvalue?_eq]
  cases e.frame.upvalue? i with
  | none => exact .fault _ h
  | some c => exact .done () (h.setCellValue c v)

theorem alike_extraArg : extraArg.Alike extraArg := by
  refine .bind (.read fun h => by rw [h.frame.proto.code_eq, h.frame.pc_eq]) fun i? => ?_
  split
  · exact .ite (.bind alike_skip fun _ => .pure _) (.fail _)
  · exact .fail _

theorem alike_openSlice (first count : Nat) :
    (openSlice first count).Alike (openSlice first count) :=
  .read fun h => by simp only [h.frame.slice_eq, h.frame.top_eq]

theorem alike_storeResults (base want : Nat) (vs : List Value) :
    (storeResults base want vs).Alike (storeResults base want vs) :=
  .updateFrame fun h => (h.setRange base _).withTop _

theorem alike_concatDown (first n : Nat) (acc : Value) :
    (concatDown first n acc).Alike (concatDown first n acc) := by
  induction n generalizing acc with
  | zero => exact .pure _
  | succ n ih => exact .bind (alike_register _) fun v => .bind (inherited_alike.concat v acc) ih

theorem alike_storeItems (t : TableRef) (n : Nat) (vs : List Value) :
    (modify (storeItems t n vs)).Alike (modify (storeItems t n vs)) := by
  refine .modify fun {e e'} h => ?_
  induction vs generalizing n e e' with
  | nil => exact h
  | cons v vs ih => exact ih (n + 1) (h.updateTable t _)

theorem alike_setList (a b c : Nat) : (setList a b c).Alike (setList a b c) := by
  unfold setList
  dsimp only
  -- the items are stored in the same way, wherever the number of the batch comes from
  refine .ite (.bind alike_extraArg fun batch => ?_) (.bind (.pure _) fun batch => ?_)
  all_goals
    refine .ite (.bind (.fail _) fun _ => ?_) ?_
    all_goals
      refine .bind (.read fun h => ?_) fun vs => .bind (alike_register a) fun v => ?_
      · rw [h.frame.slice_eq, h.frame.top_eq]
      · cases v with
        | table t => exact alike_storeItems _ _ _
        | _ => exact .fail _

theorem alike_captureAll (us : List UpvalueSource) : (captureAll us).Alike (captureAll us) := by
  induction us with
  | nil => exact .pure _
  | cons u us ih =>
    cases u with
    | register r =>
      exact .bind (.update fun h => h.captureRegister r.toNat) fun _ => .bind ih fun _ => .pure _
    | enclosing i =>
      exact .bind (.read fun h => h.frame.upvalue?_eq i.toNat) fun _ =>
        .bind (.orFail _ _) fun _ => .bind ih fun _ => .pure _

/-- Functions over prototypes that are alike are made alike. -/
theorem alike_closure (i : Nat) : (closure i).Alike (closure i) := by
  intro e e' h
  have hp := h.frame.proto.protos.getElem? i
  show (((orFail _ e.frame.proto.protos[i]?) e).andThen _).Alike
    (((orFail _ e'.frame.proto.protos[i]?) e').andThen _)
  generalize e.frame.proto.protos[i]? = p? at hp ⊢
  generalize e'.frame.proto.protos[i]? = p?' at hp ⊢
  cases hp with
  | none => exact .fault _ h
  | @some p p' hp =>
    show ((captureAll p.upvalues.toList >>= _) e).Alike ((captureAll p'.upvalues.toList >>= _) e')
    rw [hp.upvalues_eq]
    refine Alike.bind (alike_captureAll _) (fun cells => ?_) h
    exact .bind (.update fun h => h.newFunction (.closure ⟨hp, rfl⟩)) fun _ => .pure _

theorem alike_loopSlots (a : Nat) : (loopSlots a).Alike (loopSlots a) :=
  .read fun h => by simp only [h.frame.get_eq]

theorem alike_setLoopSlots (a : Nat) (l : Loop) : (setLoopSlots a l).Alike (setLoopSlots a l) :=
  .updateFrame fun h => h.setRange a _

theorem alike_storeVarargs (base count : Nat) :
    (storeVarargs base count).Alike (storeVarargs base count) := by
  refine .updateFrame fun {f f'} h => ?_
  rw [h.varargs_eq]
  split
  · exact (h.setRange base _).withTop _
  · exact h.setRange base _

end Action

open LuaBytecode.Action in
/-- **An instruction does the same in engines that are alike.** -/
theorem Opcode.alike_effect (op : Opcode) (i : Instruction) :
    (op.effect i).Alike (op.effect i) := by
  cases op with
  | move => exact .bind (alike_register _) fun _ => alike_setRegister _ _
  | loadK => exact .bind (alike_constant _) fun _ => alike_setRegister _ _
  | loadKx =>
    exact .bind alike_extraArg fun _ => .bind (alike_constant _) fun _ => alike_setRegister _ _
  | loadBool => exact .bind (alike_setRegister _ _) fun _ => .ite alike_skip (.pure _)
  | loadNil => exact .updateFrame fun h => h.setRange i.a _
  | getUpvalue => exact .bind (alike_upvalue _) fun _ => alike_setRegister _ _
  | setUpvalue => exact .bind (alike_register _) fun _ => alike_setUpvalue _ _
  | getTabUp =>
    exact .bind (alike_upvalue _) fun _ => .bind (alike_rk _) fun _ =>
      .bind (inherited_alike.index _ _) fun _ => alike_setRegister _ _
  | setTabUp =>
    exact .bind (alike_upvalue _) fun _ => .bind (alike_rk _) fun _ => .bind (alike_rk _) fun _ =>
      inherited_alike.assign _ _ _
  | getTable =>
    exact .bind (alike_register _) fun _ => .bind (alike_rk _) fun _ =>
      .bind (inherited_alike.index _ _) fun _ => alike_setRegister _ _
  | setTable =>
    exact .bind (alike_register _) fun _ => .bind (alike_rk _) fun _ => .bind (alike_rk _) fun _ =>
      inherited_alike.assign _ _ _
  | newTable => exact .bind (.update fun h => h.newTable) fun _ => alike_setRegister _ _
  | self =>
    refine .bind (alike_register _) fun _ => .bind (alike_rk _) fun _ => ?_
    exact .bind (alike_setRegister _ _) fun _ =>
      .bind (inherited_alike.index _ _) fun _ => alike_setRegister _ _
  | setList => exact alike_setList _ _ _
  | arith op =>
    unfold effect
    dsimp only
    split
    · exact .bind (alike_register _) fun _ =>
        .bind (inherited_alike.arith _ _ _) fun _ => alike_setRegister _ _
    · exact .bind (alike_rk _) fun _ => .bind (alike_rk _) fun _ =>
        .bind (inherited_alike.arith _ _ _) fun _ => alike_setRegister _ _
  | not => exact .bind (alike_register _) fun _ => alike_setRegister _ _
  | len =>
    exact .bind (alike_register _) fun _ =>
      .bind (inherited_alike.length _) fun _ => alike_setRegister _ _
  | concat =>
    exact .bind (alike_register _) fun _ =>
      .bind (alike_concatDown _ _ _) fun _ => alike_setRegister _ _
  | compare c =>
    exact .bind (alike_rk _) fun _ => .bind (alike_rk _) fun _ =>
      .bind (inherited_alike.compare _ _ _) fun _ => .ite alike_skip (.pure _)
  | test => exact .bind (alike_register _) fun _ => .ite alike_skip (.pure _)
  | testSet => exact .bind (alike_register _) fun _ => .ite (alike_setRegister _ _) alike_skip
  | jump => exact .bind (alike_jump _) fun _ => .ite (.modify fun h => h.closeCells _) (.pure _)
  | forPrep =>
    refine .bind (alike_loopSlots _) fun _ => ?_
    split
    · exact .fail _
    · exact .bind (alike_setLoopSlots _ _) fun _ => alike_jump _
  | forLoop =>
    refine .bind (alike_loopSlots _) fun _ => ?_
    split
    · exact .fail _
    · exact .pure _
    · exact .bind (alike_setLoopSlots _ _) fun _ =>
        .bind (alike_setRegister _ _) fun _ => alike_jump _
  | tforCall =>
    exact .bind (alike_register _) fun _ => .bind (.read fun h => h.frame.slice_eq _ _) fun _ =>
      .bind (.call _ _) fun _ => alike_storeResults _ _ _
  | tforLoop =>
    exact .bind (alike_register _) fun _ =>
      .ite (.bind (alike_setRegister _ _) fun _ => alike_jump _) (.pure _)
  | call | tailCall =>
    exact .bind (alike_register _) fun _ => .bind (alike_openSlice _ _) fun _ =>
      .bind (.call _ _) fun _ => alike_storeResults _ _ _
  | ret => exact .bind (alike_openSlice _ _) fun vs => .updateFrame fun h => h.withResults vs
  | closure => exact .bind (alike_closure _) fun _ => alike_setRegister _ _
  | vararg => exact alike_storeVarargs _ _
  | extraArg => exact .fail _

/-- **The next instruction does the same**, and a fault is located at the same place. -/
theorem Engine.Alike.step {e e' : Engine} (h : e.Alike e') : e.step.Alike e'.step := by
  have hf := h.frame
  rw [Engine.step, Engine.step]
  simp only [hf.pc_eq, hf.proto.code_eq, hf.proto.source_eq, hf.proto.lineAt_eq]
  cases e.frame.proto.code[e.frame.pc]? with
  | none => exact .fault _ h
  | some i =>
    have hfetched := h.updateFrame fun hf => hf.withPc (e.frame.pc + 1)
    cases hop : i.opcode? with
    | none =>
      simp only [hop]
      exact .fault _ hfetched
    | some op =>
      simp only [hop]
      exact ((op.alike_effect i hfetched).mapFault _).andThen fun _ _ _ h => .done _ h

end LuaBytecode
