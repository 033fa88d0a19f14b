import LuaBytecode.Proofs.Alike.Machine

/-!
# The size of register files cannot be seen

An embedding program sees of an engine what its operations give, the depth of the call stack, the
tables, the looks of functions and what scripts have printed.  Neither the least size of register
files nor the registers that prototypes ask for make a difference to any of it.

* `Deed` : what an embedding program does: operations, and functions that it makes over prototypes of
  its own.
* `Transcript` : what it sees while it does one deed after the other.
* `Transcript.of_alike` : engines that are alike give it the same to see.
* `transcript_iff_of_alike` : **so do engines with register files of other sizes.**
-/

namespace LuaBytecode

/-! ### Deeds -/

/-- What an embedding program does: an operation of the engine, or it makes a function over a
prototype, with a closed cell for each of the values. -/
inductive Deed where
  | operation (o : Operation)
  | closure (p : Prototype) (vs : List Value)

/-- Make a function over a prototype. -/
def Engine.newClosure (e : Engine) (p : Prototype) (vs : List Value) : FunctionRef × Engine :=
  let (cells, heap) := e.heap.newClosedCells vs
  { e with heap }.newFunction (.closure ⟨p, cells.toArray⟩)

/-- Start a deed. -/
def Deed.start (e : Engine) : Deed → Machine
  | operation o => o.start e
  | closure p vs =>
    { activity := .ended (.ok [.function (e.newClosure p vs).1]) (e.newClosure p vs).2 }

/-- Deeds that differ only in the registers that prototypes ask for. -/
inductive Deed.Alike : Deed → Deed → Prop where
  | operation {o o' : Operation} (h : o.Alike o') : Alike (.operation o) (.operation o')
  | closure {p p' : Prototype} (h : p.Alike p') (vs : List Value) :
      Alike (.closure p vs) (.closure p' vs)

theorem Engine.Alike.newClosure {e e' : Engine} {p p' : Prototype} (h : e.Alike e')
    (hp : p.Alike p') (vs : List Value) :
    (e'.newClosure p' vs).1 = (e.newClosure p vs).1 ∧
      (e.newClosure p vs).2.Alike (e'.newClosure p' vs).2 := by
  obtain ⟨hcells, hheap⟩ := h.heap.newClosedCells vs
  rw [Engine.newClosure, Engine.newClosure]
  simp only [hcells]
  exact (h.withHeap hheap).newFunction (.closure ⟨hp, rfl⟩)

namespace Deed.Alike

variable {d d' : Deed}

theorem symm (h : d.Alike d') : d'.Alike d := by
  cases h with
  | operation ho => exact .operation ho.symm
  | closure hp vs => exact .closure hp.symm vs

theorem start {e e' : Engine} (hd : d.Alike d') (h : e.Alike e') :
    (d.start e).Alike (d'.start e') := by
  cases hd with
  | operation ho => exact ho.start h
  | closure hp vs =>
    obtain ⟨hf, hnew⟩ := h.newClosure hp vs
    rw [Deed.start, Deed.start, hf]
    exact ⟨.ended _ hnew, .nil⟩

end Deed.Alike

/-! ### What can be seen -/

/-- The name or the source of a function, and the number of its upvalues. -/
def Function.look : Function → String × Nat
  | closure c => (c.proto.source, c.upvalues.size)
  | native name _ => (name, 0)

theorem Function.Alike.look_eq {g g' : Function} (h : g.Alike g') : g'.look = g.look := by
  cases h with
  | closure hc => rw [look, look, hc.proto.source_eq, hc.upvalues_eq]
  | native name _ => rfl

/-- What an embedding program sees of an engine. -/
structure View where
  depth : Nat
  tables : Array Table
  globals : TableRef
  defaultMeta : TableRef
  functions : List (String × Nat)
  /-- What was printed, and what host functions have handed over. -/
  events : Array Event

def Engine.view (e : Engine) : View :=
  { depth := e.depth, tables := e.heap.tables, globals := e.globals, defaultMeta := e.defaultMeta
    functions := e.heap.functions.toList.map Function.look, events := e.events }

theorem Engine.Alike.view_eq {e e' : Engine} (h : e.Alike e') : e'.view = e.view := by
  have hfunctions := h.heap.functions.map_eq fun hg => hg.look_eq
  simp only [view, h.depth_eq, h.heap.tables_eq, h.globals_eq, h.defaultMeta_eq, hfunctions,
    h.events_eq]

/-- What an embedding program sees of a deed: the results or the fault, if it has ended, and the
engine. -/
structure Answer where
  result? : Option (Except Fault (List Value))
  view : View

/-- What an embedding program may see while it does one deed after the other.  The last answer may be
given while a deed is still going on, which is all there is to see of one that does not end. -/
inductive Transcript : Engine → List Deed → List Answer → Prop where
  | nil (e : Engine) : Transcript e [] []
  | ended {e e' : Engine} {d : Deed} {ds : List Deed} {answers : List Answer}
      {r : Except Fault (List Value)} (h : (d.start e).Steps { activity := .ended r e' })
      (rest : Transcript e' ds answers) : Transcript e (d :: ds) (⟨some r, e'.view⟩ :: answers)
  | going {e : Engine} {d : Deed} {ds : List Deed} {m : Machine} (h : (d.start e).Steps m) :
      Transcript e (d :: ds) [⟨none, m.engine.view⟩]

variable {ds ds' : List Deed} {answers : List Answer}

/-- **Engines that are alike give the same to see.** -/
theorem Transcript.of_alike {e e' : Engine} (h : e.Alike e') (hds : List.Forall₂ Deed.Alike ds ds')
    (ht : Transcript e ds answers) : Transcript e' ds' answers := by
  -- a deed ends in engines that are alike, so the induction goes on from there
  induction ht generalizing e' ds' with
  | nil e =>
    cases hds with
    | nil => exact .nil e'
  | ended hsteps _ ih =>
    cases hds with
    | cons hd hds =>
      obtain ⟨m', hsteps', hm⟩ := (hd.start h).steps hsteps
      obtain ⟨e₁', rfl, he₁⟩ := hm.ended
      rw [← he₁.view_eq]
      exact .ended hsteps' (ih he₁ hds)
  | going hsteps =>
    cases hds with
    | cons hd hds =>
      obtain ⟨m', hsteps', hm⟩ := (hd.start h).steps hsteps
      rw [← hm.engine.view_eq]
      exact .going hsteps'

/-- **The size of register files cannot be seen**: neither the least size that a configuration sets
nor the registers that prototypes ask for, also nested ones and those of chunks that host functions
run, make a difference to what an embedding program sees. -/
theorem transcript_iff_of_alike (config : Config) (minRegisters : Nat)
    (hds : List.Forall₂ Deed.Alike ds ds') :
    Transcript (Engine.new config) ds answers ↔
      Transcript (Engine.new { config with minRegisters }) ds' answers := by
  -- to differ in sizes is symmetric
  have hds' : List.Forall₂ Deed.Alike ds' ds := hds.flip.imp fun _ _ h => h.symm
  constructor
  · exact Transcript.of_alike (.new ⟨rfl, rfl⟩) hds
  · exact Transcript.of_alike (.new ⟨rfl, rfl⟩) hds'

/-- A function that returns two registers, and asks for as many as it is told. -/
def returnsTwo (maxStack : UInt8) : Prototype :=
  { maxStack, code := #[.abx .loadK 4 0, .abc .ret 4 3 0], constants := #[.number (.int 5)] }

/-- A chunk that returns what the function returns. -/
def callsReturnsTwo (maxStack : UInt8) : Prototype :=
  { maxStack
    code := #[.abx .closure 3 0, .abc .call 3 1 3, .abc .ret 3 3 0]
    protos := #[returnsTwo maxStack] }

theorem alike_callsReturnsTwo (n n' : UInt8) : (callsReturnsTwo n).Alike (callsReturnsTwo n') := by
  refine .intro rfl rfl fun i p p' hp hp' => ?_
  cases i with
  | succ i => exact absurd hp (by simp [callsReturnsTwo])
  | zero =>
    obtain rfl : returnsTwo n = p := Option.some.inj hp
    obtain rfl : returnsTwo n' = p' := Option.some.inj hp'
    exact .intro rfl rfl fun i _ _ h => absurd h (by simp [returnsTwo])

/-- Register files that are empty at first do as well as those of twenty registers. -/
theorem transcript_iff_of_alike_callsReturnsTwo :
    Transcript (Engine.new { Config.bare with minRegisters := 0 })
      [.operation (.load (callsReturnsTwo 0)), .operation .run]
      [⟨some (.ok []), ⟨1, #[{}, {}], ⟨0⟩, ⟨1⟩, [], #[]⟩⟩,
        ⟨some (.ok [.int 5, .nil]), ⟨0, #[{}, {}], ⟨0⟩, ⟨1⟩, [("", 0)], #[]⟩⟩] := by
  have hds : List.Forall₂ Deed.Alike [.operation (.load (callsReturnsTwo 20)), .operation .run]
      [.operation (.load (callsReturnsTwo 0)), .operation .run] :=
    .cons (.operation (.load (alike_callsReturnsTwo 20 0))) (.cons (.operation .run) .nil)
  refine (transcript_iff_of_alike Config.bare 0 hds).1 ?_
  have hrun := Machine.steps_of_result? (n := 9) (r := .ok [.int 5, .nil])
    (m := Operation.run.start ((Engine.new Config.bare).load (callsReturnsTwo 20))) rfl
  have ht : Transcript (Engine.new Config.bare)
      [.operation (.load (callsReturnsTwo 20)), .operation .run] _ :=
    .ended .refl (.ended hrun (.nil _))
  exact ht

end LuaBytecode
