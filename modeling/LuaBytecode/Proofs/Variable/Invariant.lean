import LuaBytecode.Proofs.Run.Sound
import LuaBytecode.Proofs.Variable.Share

/-!
# Open cells always name a frame on the stack

Functions outlive the frames whose registers they share, frames go by returns, by faults and by
protected calls, and their places are taken by newer ones.  Still no cell ever points at a frame
that is gone or at one that has taken its place.

* `Machine.linked_of_reachable` : **the invariant of open cells**, in every state of every run.
-/

namespace LuaBytecode.Machine

variable {config : Config} {m m' : Machine}

/-- What a step can do keeps frames and open cells linked. -/
theorem Effect.linked (h : m.Effect m') (hl : m.engine.Linked) : m'.engine.Linked := by
  cases h with
  | calm h => exact hl.calm h
  | pass h => exact hl.passes h
  | advance base p hp hop hpos h => exact hl.advances hpos h
  | assign i hi c hc h =>
    rw [h]
    exact (hl.passes (Engine.passes_fetched _)).setCellValue _ _
  | close i hi ha h =>
    rw [h]
    exact (hl.passes (Engine.passes_jumped _ i)).closeCells _
  | push c args h =>
    rw [h]
    exact hl.push _ _
  | load p h =>
    rw [h]
    exact hl.load _
  | leave base hbase hleave h =>
    rw [h]
    exact hl.unwindTo _

theorem Reachable.linked (h : Reachable config m) : m.engine.Linked := by
  refine (h.invariant (P := fun m => m.Sound ∧ m.engine.Linked) ?_ fun m m' hm hn => ?_).2
  · exact ⟨⟨trivial, trivial⟩, (Engine.Linked.of_empty rfl rfl).calm (Engine.supplies_new config)⟩
  · obtain ⟨hsound, heffect⟩ := hm.1.next hn
    exact ⟨hsound, heffect.linked hm.2⟩

/-- **Open cells always name a frame on the stack.**  In every state that a new engine can come
to, frames stand where their identities say, serial numbers increase up the stack, and open cells
and captures belong together.  Hence an upvalue of the running function that is open is read from
and written to a register of the very frame that it names, identity and serial number alike. -/
theorem linked_of_reachable (h : Reachable config m) :
    m.engine.Linked ∧
      ∀ i c id r, m.engine.frame.upvalue? i = some c → m.engine.heap.cell c = .opened id r →
        ∃ f, m.engine.frames[id.depth]? = some f ∧ f.id = id ∧ m.engine.cellValue c = f.get r ∧
          ∀ v, (m.engine.setCellValue c v).frames[id.depth]? = some (f.set r v) := by
  refine ⟨h.linked, fun i c id r _ ho => ?_⟩
  obtain ⟨f, hf, hid, -⟩ := h.linked.frame_of_open ho
  refine ⟨f, hf, hid, Engine.cellValue_of_open ho hf, fun v => ?_⟩
  rw [Engine.setCellValue, ho]
  exact (Array.getElem?_modify ..).trans (by rw [if_pos rfl, hf]; rfl)

/-- A function that counts calls in an upvalue. -/
def counter : Prototype :=
  { code := #[.abc .getUpvalue 0 0 0, .abc (.arith .add) 0 0 256, .abc .setUpvalue 0 0 0,
      .abc .ret 0 2 0]
    constants := #[.number (.int 1)]
    upvalues := #[.register 1] }

/-- A chunk that makes a counter over its register 1 and calls it. -/
def counting : Prototype :=
  { code := #[.abx .closure 0 0, .abc .call 0 1 1, .abc .ret 0 1 0], protos := #[counter] }

/-- A machine that runs a chunk in a new engine. -/
def running (p : Prototype) : Machine := Operation.run.start ((Engine.new .bare).load p)

theorem reachable_running (p : Prototype) : Reachable .bare (running p) :=
  (Relation.ReflTransGen.refl.tail (.operation _ _ (.load p))).tail (.operation _ _ .run)

/-- In the counter the running frame is the second one, and its upvalue names the first. -/
theorem linked_of_reachable_counting :
    let e := ((running counting).after 3).engine
    e.depth = 2 ∧ e.frame.upvalue? 0 = some ⟨0⟩ ∧ e.heap.cell ⟨0⟩ = .opened ⟨0, 1⟩ 1 ∧ e.Linked ∧
      ∃ f, e.frames[0]? = some f ∧ f.id = ⟨0, 1⟩ ∧ e.cellValue ⟨0⟩ = f.get 1 := by
  have h := linked_of_reachable ((reachable_running counting).after 3)
  obtain ⟨f, hf, hid, hvalue, -⟩ := h.2 0 ⟨0⟩ ⟨0, 1⟩ 1 rfl rfl
  exact ⟨rfl, rfl, rfl, h.1, f, hf, hid, hvalue⟩

end LuaBytecode.Machine
