import Mathlib.Data.List.Forall2
import LuaBytecode.Proofs.Alike.Action
import LuaBytecode.Proofs.Run.Agreement

/-!
# Machines that are alike

Machines whose engines are alike go on in lockstep: one takes a step when the other does, and both are
alike behind it.

* `Machine.Alike` : the work in hand and the work that waits are alike.
* `Engine.Alike.begin` : jobs begin alike, calls of the same value reach functions that are alike.
* `Machine.Alike.step` : **one step keeps machines alike.**
* `Machine.Alike.steps` : so does any number of them.
* `Operation.Alike.start` : operations that are alike start alike.
-/

namespace LuaBytecode

/-- The same kind of work in hand. -/
inductive Activity.Alike : Activity → Activity → Prop where
  | script (base : Nat) {p p' : Progress Bool} (h : p.Alike p') :
      Alike (.script base p) (.script base p')
  | host {p p' : Progress (List Value)} (h : p.Alike p') : Alike (.host p) (.host p')
  | ended (r : Except Fault (List Value)) {e e' : Engine} (h : e.Alike e') :
      Alike (.ended r e) (.ended r e')

/-- The same kind of work that waits. -/
inductive Waiting.Alike : Waiting → Waiting → Prop where
  | script (base : Nat) {go go' : Except Fault (List Value) → Engine → Progress Bool}
      (h : ∀ r {e e' : Engine}, e.Alike e' → (go r e).Alike (go' r e')) :
      Alike (.script base go) (.script base go')
  | host {go go' : Except Fault (List Value) → Engine → Progress (List Value)}
      (h : ∀ r {e e' : Engine}, e.Alike e' → (go r e).Alike (go' r e')) :
      Alike (.host go) (.host go')

/-- Machines that differ only in the sizes of register files, and in what these come from. -/
structure Machine.Alike (m m' : Machine) : Prop where
  activity : m.activity.Alike m'.activity
  waiting : List.Forall₂ Waiting.Alike m.waiting m'.waiting

theorem Progress.Alike.engine {α : Type} {p p' : Progress α} (h : p.Alike p') :
    p.engine.Alike p'.engine := by
  cases h with
  | done a h => exact h
  | fault f h => exact h
  | await _ h _ => exact h

theorem Machine.Alike.engine {m m' : Machine} (h : m.Alike m') : m.engine.Alike m'.engine := by
  obtain ⟨a, w⟩ := m
  obtain ⟨a', w'⟩ := m'
  cases h.activity with
  | script base hp => exact hp.engine
  | host hp => exact hp.engine
  | ended r he => exact he

/-! ### Calls -/

/-- Functions that are alike with the same arguments, or the same failure to find one. -/
inductive Engine.Found :
    Except Cause (Function × List Value) → Except Cause (Function × List Value) → Prop where
  | error (c : Cause) : Found (.error c) (.error c)
  | ok {g g' : Function} (h : g.Alike g') (args : List Value) : Found (.ok (g, args)) (.ok (g', args))

namespace Engine.Alike

variable {e e' : Engine}

theorem found_functionAt (h : e.Alike e') (r : FunctionRef) (args : List Value) :
    Found ((e.functionAt r).map (·, args)) ((e'.functionAt r).map (·, args)) := by
  have hr := h.heap.function? r
  unfold functionAt
  generalize e.heap.function? r = g? at hr ⊢
  generalize e'.heap.function? r = g?' at hr ⊢
  cases hr with
  | none => exact .error _
  | some hg => exact .ok hg args

theorem metamethod_eq (h : e.Alike e') (v : Value) (event : String) :
    e'.metamethod v event = e.metamethod v event :=
  SeesTables.metamethod v event h.heap.tables_eq h.globals_eq h.defaultMeta_eq

/-- A call reaches functions that are alike. -/
theorem found_callee (h : e.Alike e') (f : Value) (args : List Value) :
    Found (e.callee f args) (e'.callee f args) := by
  cases f with
  | function r => exact h.found_functionAt r args
  | _ =>
    -- a value that is no function may be called by way of its metamethod
    simp only [callee, h.metamethod_eq]
    split
    · exact h.found_functionAt _ _
    · exact .error _

theorem isFull_eq (h : e.Alike e') : e'.isFull = e.isFull := by
  rw [isFull, isFull, h.config.maxCallDepth_eq, h.depth_eq, h.nativeDepth_eq]

theorem enterNative (h : e.Alike e') : e.enterNative.Alike e'.enterNative :=
  ⟨h.config, h.frames, h.heap, h.globals_eq, h.defaultMeta_eq, h.serial_eq,
    congrArg (· + 1) h.nativeDepth_eq, h.events_eq⟩

theorem leaveNative (h : e.Alike e') : e.leaveNative.Alike e'.leaveNative :=
  ⟨h.config, h.frames, h.heap, h.globals_eq, h.defaultMeta_eq, h.serial_eq,
    congrArg (· - 1) h.nativeDepth_eq, h.events_eq⟩

/-- **Jobs begin alike.** -/
theorem begin (h : e.Alike e') {job job' : Job} (hjob : job.Alike job') :
    (e.begin job).Alike (e'.begin job') := by
  cases hjob with
  | chunk hp =>
    rw [Engine.begin, Engine.begin, h.depth_eq]
    exact .script _ (.done false (h.load hp))
  | call f args =>
    have hfound := h.found_callee f args
    rw [Engine.begin, Engine.begin, h.isFull_eq, h.depth_eq]
    generalize e.callee f args = x at hfound ⊢
    generalize e'.callee f args = x' at hfound ⊢
    cases hfound with
    | error c => exact .ended _ h
    | ok hg args =>
      dsimp only
      split
      · exact .ended _ h
      · cases hg with
        | closure hc => exact .script _ (.done false (h.push hc args))
        | native name hbody =>
          exact .host (((hbody args).act h.enterNative).atEnd fun h => h.leaveNative)

end Engine.Alike

/-! ### Steps -/

namespace Machine.Alike

variable {m m' n : Machine}

/-- **Machines that are alike go on in lockstep.** -/
theorem step (h : m.Alike m') : Option.Rel Machine.Alike m.step m'.step := by
  obtain ⟨a, w⟩ := m
  obtain ⟨a', w'⟩ := m'
  obtain ⟨ha, hw⟩ := h
  cases ha with
  | script base hp =>
    cases hp with
    | done returns he =>
      cases returns with
      | false => exact .some ⟨.script base he.step, hw⟩
      | true =>
        -- the function is left with the same results
        obtain ⟨hvs, hleft⟩ := he.unwindTo base
        rw [Machine.step, Machine.step, hvs]
        exact .some ⟨.ended _ hleft, hw⟩
    | fault f he => exact .some ⟨.ended _ (he.unwindTo base).2, hw⟩
    | await hjob he hgo => exact .some ⟨he.begin hjob, .cons (.script base hgo) hw⟩
  | host hp =>
    cases hp with
    | done vs he => exact .some ⟨.ended _ he, hw⟩
    | fault f he => exact .some ⟨.ended _ he, hw⟩
    | await hjob he hgo => exact .some ⟨he.begin hjob, .cons (.host hgo) hw⟩
  | ended r he =>
    cases hw with
    | nil => exact .none
    | cons hgo hw =>
      cases hgo with
      | script base hgo => exact .some ⟨.script base (hgo r he), hw⟩
      | host hgo => exact .some ⟨.host (hgo r he), hw⟩

/-- **Any number of steps keeps machines alike.** -/
theorem steps (h : m.Alike m') (hsteps : m.Steps n) : ∃ n', m'.Steps n' ∧ n.Alike n' := by
  induction hsteps with
  | refl => exact ⟨m', .refl, h⟩
  | @tail n o _ hstep ih =>
    obtain ⟨n', hsteps', hn⟩ := ih
    have hnext := hn.step
    rw [hstep] at hnext
    generalize hstep' : n'.step = o? at hnext
    cases hnext with
    | some ho => exact ⟨_, hsteps'.tail hstep', ho⟩

/-- A machine with nothing left to do is alike only to one with the same result. -/
theorem ended {r : Except Fault (List Value)} {e : Engine}
    (h : Alike { activity := .ended r e } m') :
    ∃ e', m' = { activity := .ended r e' } ∧ e.Alike e' := by
  obtain ⟨a', w'⟩ := m'
  obtain ⟨ha, hw⟩ := h
  cases ha with
  | @ended r e e' he =>
    cases hw with
    | nil => exact ⟨e', rfl, he⟩

end Machine.Alike

/-! ### Operations -/

/-- Operations that differ only in the sizes that prototypes give. -/
inductive Operation.Alike : Operation → Operation → Prop where
  | load {p p' : Prototype} (h : p.Alike p') : Alike (.load p) (.load p')
  | run : Alike .run .run
  | register (name : String) {body body' : List Value → Host}
      (h : ∀ args, (body args).Alike (body' args)) :
      Alike (.register name body) (.register name body')
  | setGlobal (name : String) (v : Value) : Alike (.setGlobal name v) (.setGlobal name v)
  | newTable : Alike .newTable .newTable
  | serve {x x' : Host} (h : x.Alike x') : Alike (.serve x) (.serve x')

namespace Operation.Alike

variable {o o' : Operation}

theorem symm (h : o.Alike o') : o'.Alike o := by
  cases h with
  | load hp => exact .load hp.symm
  | run => exact .run
  | register name hbody => exact .register name fun args => (hbody args).symm
  | setGlobal name v => exact .setGlobal name v
  | newTable => exact .newTable
  | serve hx => exact .serve hx.symm

/-- **Operations that are alike start alike.** -/
theorem start {e e' : Engine} (ho : o.Alike o') (h : e.Alike e') :
    (o.start e).Alike (o'.start e') := by
  cases ho with
  | load hp => exact ⟨.ended _ (h.load hp), .nil⟩
  | run =>
    refine ⟨?_, .nil⟩
    simp only [Operation.start, h.depth_eq]
    split
    · exact .ended _ h
    · exact .script _ (.done false h)
  | register name hbody => exact ⟨.ended _ (h.register name hbody), .nil⟩
  | setGlobal name v => exact ⟨.ended _ (h.setGlobal name v), .nil⟩
  | newTable =>
    obtain ⟨ht, hnew⟩ := h.newTable
    rw [Operation.start, Operation.start, ht]
    exact ⟨.ended _ hnew, .nil⟩
  | serve hx => exact ⟨.host (hx.act h), .nil⟩

end Operation.Alike

end LuaBytecode
