import LuaBytecode.Embedding
import LuaBytecode.Proofs.Frame.Register
import LuaBytecode.Proofs.Variable.Stack

/-!
# Engines with register files of other sizes

A prototype says how many registers its function needs, and a configuration how many there are at
least.  Both only fix how large a register file is at first; a register that is not there reads as
nil, and one that is written comes to be.  Here are the relations between what two engines hold that
differ in nothing else, and what keeps them.

* `Prototype.Alike`, `Host.Alike`, `Frame.Alike`, `Engine.Alike` : alike but for the sizes.
* `Frame.Alike.start` : functions start alike.
* `Engine.Alike.updateFrame`, `Engine.Alike.push`, `Engine.Alike.unwindTo` and others : what engines
  do keeps them alike.
-/

namespace LuaBytecode

/-! ### Arrays -/

/-- Arrays of the same size with related entries. -/
structure Pointwise {α : Type} (R : α → α → Prop) (xs ys : Array α) : Prop where
  size_eq : ys.size = xs.size
  rel : ∀ {i : Nat} {x y : α}, xs[i]? = some x → ys[i]? = some y → R x y

namespace Pointwise

variable {α : Type} {R : α → α → Prop} {xs ys : Array α} {x y : α}

theorem empty : Pointwise R #[] #[] := ⟨rfl, fun h => absurd h (by simp)⟩

/-- Two entries at the same place, or none. -/
theorem getElem? (h : Pointwise R xs ys) (i : Nat) : Option.Rel R xs[i]? ys[i]? := by
  by_cases hi : i < xs.size
  · have hi' : i < ys.size := by rwa [h.size_eq]
    rw [Array.getElem?_eq_getElem hi, Array.getElem?_eq_getElem hi']
    exact .some (h.rel (Array.getElem?_eq_getElem hi) (Array.getElem?_eq_getElem hi'))
  · rw [Array.getElem?_eq_none (by omega), Array.getElem?_eq_none (by rw [h.size_eq]; omega)]
    exact .none

theorem of_getElem? (hsize : ys.size = xs.size) (h : ∀ i : Nat, Option.Rel R xs[i]? ys[i]?) :
    Pointwise R xs ys := by
  refine ⟨hsize, fun {i x y} hx hy => ?_⟩
  have hi := h i
  rw [hx, hy] at hi
  cases hi with
  | some hxy => exact hxy

theorem push (h : Pointwise R xs ys) (hxy : R x y) : Pointwise R (xs.push x) (ys.push y) := by
  refine of_getElem? (by simp [h.size_eq]) fun i => ?_
  rw [Array.getElem?_push, Array.getElem?_push, h.size_eq]
  split
  · exact .some hxy
  · exact h.getElem? i

theorem pop (h : Pointwise R xs ys) : Pointwise R xs.pop ys.pop := by
  refine of_getElem? (by simp [h.size_eq]) fun i => ?_
  rw [Array.getElem?_pop, Array.getElem?_pop, h.size_eq]
  split
  · exact h.getElem? i
  · exact .none

theorem modify {f g : α → α} (h : Pointwise R xs ys) (i : Nat)
    (hfg : ∀ {x y}, R x y → R (f x) (g y)) : Pointwise R (xs.modify i f) (ys.modify i g) := by
  refine of_getElem? (by simp [h.size_eq]) fun k => ?_
  rw [Array.getElem?_modify, Array.getElem?_modify]
  have hk := h.getElem? k
  generalize xs[k]? = x? at hk ⊢
  generalize ys[k]? = y? at hk ⊢
  split
  · cases hk with
    | none => exact .none
    | some hxy => exact .some (hfg hxy)
  · exact hk

/-- What related entries have in common. -/
theorem map_eq {β : Type} {f : α → β} (h : Pointwise R xs ys) (hf : ∀ {x y}, R x y → f y = f x) :
    ys.toList.map f = xs.toList.map f := by
  refine List.ext_getElem? fun i => ?_
  rw [List.getElem?_map, List.getElem?_map, Array.getElem?_toList, Array.getElem?_toList]
  have hi := h.getElem? i
  generalize xs[i]? = x? at hi ⊢
  generalize ys[i]? = y? at hi ⊢
  cases hi with
  | none => rfl
  | some hxy => exact congrArg some (hf hxy)

end Pointwise

/-! ### Prototypes -/

/-- Prototypes that differ only in the registers that they need, and so do those nested in them. -/
inductive Prototype.Alike : Prototype → Prototype → Prop where
  | intro {p p' : Prototype}
      (same : p' = { p with maxStack := p'.maxStack, protos := p'.protos })
      (size_eq : p'.protos.size = p.protos.size)
      (protos : ∀ (i : Nat) q q', p.protos[i]? = some q → p'.protos[i]? = some q' → Alike q q') :
      Alike p p'

namespace Prototype.Alike

variable {p p' : Prototype}

theorem same (h : p.Alike p') :
    p' = { p with maxStack := p'.maxStack, protos := p'.protos } := by
  cases h with
  | intro same => exact same

theorem protos (h : p.Alike p') : Pointwise Alike p.protos p'.protos := by
  cases h with
  | intro _ size_eq protos => exact ⟨size_eq, protos _ _ _⟩

theorem source_eq (h : p.Alike p') : p'.source = p.source := by rw [h.same]

theorem params_eq (h : p.Alike p') : p'.params = p.params := by rw [h.same]

theorem isVararg_eq (h : p.Alike p') : p'.isVararg = p.isVararg := by rw [h.same]

theorem code_eq (h : p.Alike p') : p'.code = p.code := by rw [h.same]

theorem constants_eq (h : p.Alike p') : p'.constants = p.constants := by rw [h.same]

theorem upvalues_eq (h : p.Alike p') : p'.upvalues = p.upvalues := by rw [h.same]

theorem lineAt_eq (h : p.Alike p') (pc : Nat) : p'.lineAt pc = p.lineAt pc := by
  rw [lineAt, lineAt, h.same]

theorem refl (p : Prototype) : p.Alike p := by
  refine .intro (by cases p; rfl) rfl fun i q q' hq hq' => ?_
  obtain rfl := Option.some.inj (hq.symm.trans hq')
  -- prototypes are finite trees
  have hlt : sizeOf q < sizeOf p := by
    have hmem := Array.sizeOf_lt_of_mem (Array.mem_of_getElem? hq)
    cases p
    simp only [Prototype.mk.sizeOf_spec]
    simp only at hmem
    omega
  exact refl q
termination_by sizeOf p

theorem symm (h : p.Alike p') : p'.Alike p := by
  induction h with
  | @intro p p' same size_eq _ ih =>
    refine .intro ?_ size_eq.symm fun i q q' hq hq' => ih i q' q hq' hq
    rw [same]
    cases p
    rfl

end Prototype.Alike

/-- Functions over prototypes that are alike, with the same cells. -/
structure Closure.Alike (c c' : Closure) : Prop where
  proto : c.proto.Alike c'.proto
  upvalues_eq : c'.upvalues = c.upvalues

/-! ### Host functions -/

/-- Requests that differ at most in a chunk to run, and then only in sizes. -/
inductive Request.Alike : Request → Request → Prop where
  | refl (r : Request) : Alike r r
  | runChunk {p p' : Prototype} (h : p.Alike p') : Alike (.runChunk p) (.runChunk p')

theorem Request.Alike.symm {r r' : Request} (h : r.Alike r') : r'.Alike r := by
  cases h with
  | refl => exact .refl r
  | runChunk hp => exact .runChunk hp.symm

/-- Host functions that do the same but for the chunks that they run. -/
inductive Host.Alike : Host → Host → Prop where
  | done (vs : List Value) : Alike (.done vs) (.done vs)
  | fail (f : Fault) : Alike (.fail f) (.fail f)
  | ask {r r' : Request} {go go' : Except Fault (List Value) → Host} (hr : r.Alike r')
      (hgo : ∀ x, Alike (go x) (go' x)) : Alike (.ask r go) (.ask r' go')
  | define (name : String) {body body' : List Value → Host} {go go' : Value → Host}
      (hbody : ∀ args, Alike (body args) (body' args)) (hgo : ∀ v, Alike (go v) (go' v)) :
      Alike (.define name body go) (.define name body' go')

namespace Host.Alike

theorem refl (h : Host) : h.Alike h := by
  induction h with
  | done vs => exact .done vs
  | fail f => exact .fail f
  | ask r go ih => exact .ask (.refl r) ih
  | define name body go ihbody ihgo => exact .define name ihbody ihgo

theorem symm {h h' : Host} (hh : h.Alike h') : h'.Alike h := by
  induction hh with
  | done vs => exact .done vs
  | fail f => exact .fail f
  | ask hr _ ih => exact .ask hr.symm ih
  | define name _ _ ihbody ihgo => exact .define name ihbody ihgo

end Host.Alike

/-- Functions that are alike: both compiled, or both of the host, with the same name. -/
inductive Function.Alike : Function → Function → Prop where
  | closure {c c' : Closure} (h : c.Alike c') : Alike (.closure c) (.closure c')
  | native (name : String) {body body' : List Value → Host}
      (h : ∀ args, (body args).Alike (body' args)) : Alike (.native name body) (.native name body')

/-- The same call, or chunks that are alike. -/
inductive Job.Alike : Job → Job → Prop where
  | call (f : Value) (args : List Value) : Alike (.call f args) (.call f args)
  | chunk {p p' : Prototype} (h : p.Alike p') : Alike (.chunk p) (.chunk p')

/-! ### Frames -/

/-- Frames that differ only in the sizes of their register files: every register reads the same. -/
structure Frame.Alike (f f' : Frame) : Prop where
  id_eq : f'.id = f.id
  closure : f.closure.Alike f'.closure
  get_eq : ∀ r, f'.get r = f.get r
  top_eq : f'.top = f.top
  pc_eq : f'.pc = f.pc
  varargs_eq : f'.varargs = f.varargs
  openCells_eq : f'.openCells = f.openCells
  results_eq : f'.results = f.results

namespace Frame.Alike

variable {f f' : Frame} {c c' : Closure}

theorem blank : Engine.blankFrame.Alike Engine.blankFrame :=
  ⟨rfl, ⟨.refl _, rfl⟩, fun _ => rfl, rfl, rfl, rfl, rfl, rfl⟩

theorem slice_eq (h : f.Alike f') (first last : Nat) : f'.slice first last = f.slice first last :=
  slice_congr fun r _ _ => h.get_eq r

theorem proto (h : f.Alike f') : f.proto.Alike f'.proto := h.closure.proto

theorem upvalue?_eq (h : f.Alike f') (i : Nat) : f'.upvalue? i = f.upvalue? i := by
  rw [upvalue?, upvalue?, h.closure.upvalues_eq]

/-- Functions start alike: a register beyond the file is as nil as one that was not given a
value. -/
theorem start (id : FrameId) (h : c.Alike c') (args : List Value) (n n' : Nat) :
    (Frame.start id c args n).Alike (Frame.start id c' args n') where
  id_eq := rfl
  closure := h
  get_eq r := by rw [get_start, get_start, h.proto.params_eq]
  top_eq := congrArg UInt8.toNat h.proto.params_eq
  pc_eq := rfl
  varargs_eq := by simp only [Frame.start, h.proto.isVararg_eq, h.proto.params_eq]
  openCells_eq := rfl
  results_eq := rfl

theorem set (h : f.Alike f') (r : Nat) (v : Value) : (f.set r v).Alike (f'.set r v) :=
  ⟨h.id_eq, h.closure, fun r' => by rw [get_set, get_set, h.get_eq], h.top_eq, h.pc_eq,
    h.varargs_eq, h.openCells_eq, h.results_eq⟩

theorem setRange (h : f.Alike f') (base : Nat) (vs : List Value) :
    (f.setRange base vs).Alike (f'.setRange base vs) := by
  induction vs generalizing f f' base with
  | nil => exact h
  | cons v vs ih => exact ih (h.set base v) (base + 1)

theorem withPc (h : f.Alike f') (pc : Nat) : ({ f with pc } : Frame).Alike { f' with pc } :=
  ⟨h.id_eq, h.closure, h.get_eq, h.top_eq, rfl, h.varargs_eq, h.openCells_eq, h.results_eq⟩

theorem mapPc (h : f.Alike f') (g : Nat → Nat) :
    ({ f with pc := g f.pc } : Frame).Alike { f' with pc := g f'.pc } := by
  rw [h.pc_eq]
  exact h.withPc _

theorem withTop (h : f.Alike f') (top : Nat) : ({ f with top } : Frame).Alike { f' with top } :=
  ⟨h.id_eq, h.closure, h.get_eq, rfl, h.pc_eq, h.varargs_eq, h.openCells_eq, h.results_eq⟩

theorem withResults (h : f.Alike f') (results : List Value) :
    ({ f with results } : Frame).Alike { f' with results } :=
  ⟨h.id_eq, h.closure, h.get_eq, h.top_eq, h.pc_eq, h.varargs_eq, h.openCells_eq, rfl⟩

theorem withOpenCells (h : f.Alike f') (openCells : List (Nat × CellRef)) :
    ({ f with openCells } : Frame).Alike { f' with openCells } :=
  ⟨h.id_eq, h.closure, h.get_eq, h.top_eq, h.pc_eq, h.varargs_eq, rfl, h.results_eq⟩

end Frame.Alike

/-! ### Heaps -/

/-- Heaps with the same tables and cells, whose functions are alike. -/
structure Heap.Alike (h h' : Heap) : Prop where
  tables_eq : h'.tables = h.tables
  cells_eq : h'.cells = h.cells
  functions : Pointwise Function.Alike h.functions h'.functions

namespace Heap.Alike

variable {h h' : Heap} {f f' : Frame}

theorem table_eq (hh : h.Alike h') (t : TableRef) : h'.table t = h.table t := by
  rw [table, table, hh.tables_eq]

theorem cell_eq (hh : h.Alike h') (c : CellRef) : h'.cell c = h.cell c := by
  rw [cell, cell, hh.cells_eq]

theorem function? (hh : h.Alike h') (r : FunctionRef) :
    Option.Rel Function.Alike (h.function? r) (h'.function? r) := hh.functions.getElem? r.index

/-- Functions that are alike have the same text. -/
theorem text_eq (hh : h.Alike h') (v : Value) : h'.text v = h.text v := by
  cases v with
  | function r =>
    have hr := hh.function? r
    rw [text, text]
    generalize h.function? r = f? at hr ⊢
    generalize h'.function? r = f?' at hr ⊢
    cases hr with
    | none => rfl
    | some hf => cases hf <;> rfl
  | _ => rfl

theorem newTable (hh : h.Alike h') :
    h'.newTable.1 = h.newTable.1 ∧ h.newTable.2.Alike h'.newTable.2 := by
  obtain ⟨htables, hcells, hfunctions⟩ := hh
  refine ⟨?_, ?_, hcells, hfunctions⟩
  · simp only [Heap.newTable, htables]
  · simp only [Heap.newTable, htables]

theorem updateTable (hh : h.Alike h') (t : TableRef) (g : Table → Table) :
    (h.updateTable t g).Alike (h'.updateTable t g) :=
  ⟨congrArg (·.modify t.index g) hh.tables_eq, hh.cells_eq, hh.functions⟩

theorem newCell (hh : h.Alike h') (c : Cell) :
    (h'.newCell c).1 = (h.newCell c).1 ∧ (h.newCell c).2.Alike (h'.newCell c).2 := by
  obtain ⟨htables, hcells, hfunctions⟩ := hh
  refine ⟨?_, htables, ?_, hfunctions⟩
  · simp only [Heap.newCell, hcells]
  · simp only [Heap.newCell, hcells]

theorem newClosedCells (hh : h.Alike h') (vs : List Value) :
    (h'.newClosedCells vs).1 = (h.newClosedCells vs).1 ∧
      (h.newClosedCells vs).2.Alike (h'.newClosedCells vs).2 := by
  induction vs generalizing h h' with
  | nil => exact ⟨rfl, hh⟩
  | cons v vs ih =>
    obtain ⟨hc, hnew⟩ := hh.newCell (.closed v)
    obtain ⟨hcs, hrest⟩ := ih hnew
    refine ⟨?_, hrest⟩
    simp only [Heap.newClosedCells, hc, hcs]

theorem setCell (hh : h.Alike h') (c : CellRef) (state : Cell) :
    (h.setCell c state).Alike (h'.setCell c state) :=
  ⟨hh.tables_eq, congrArg (·.setIfInBounds c.index state) hh.cells_eq, hh.functions⟩

theorem newFunction (hh : h.Alike h') {g g' : Function} (hg : g.Alike g') :
    (h'.newFunction g').1 = (h.newFunction g).1 ∧
      (h.newFunction g).2.Alike (h'.newFunction g').2 := by
  refine ⟨?_, hh.tables_eq, hh.cells_eq, hh.functions.push hg⟩
  simp only [Heap.newFunction, hh.functions.size_eq]

/-- Cells that are closed take over what the registers hold. -/
theorem closeAll (hh : h.Alike h') (hf : f.Alike f') (cs : List (Nat × CellRef)) :
    (f.closeAll cs h).Alike (f'.closeAll cs h') := by
  induction cs generalizing h h' with
  | nil => exact hh
  | cons rc cs ih =>
    rw [Frame.closeAll, Frame.closeAll, hf.get_eq]
    exact ih (hh.setCell _ _)

end Heap.Alike

namespace Frame.Alike

variable {f f' : Frame} {h h' : Heap}

theorem closeFrom (hf : f.Alike f') (hh : h.Alike h') (first : Nat) :
    (f.closeFrom first h).1.Alike (f'.closeFrom first h').1 ∧
      (f.closeFrom first h).2.Alike (f'.closeFrom first h').2 := by
  rw [Frame.closeFrom, Frame.closeFrom, hf.openCells_eq]
  exact ⟨hf.withOpenCells _, hh.closeAll hf _⟩

theorem capture (hf : f.Alike f') (hh : h.Alike h') (r : Nat) :
    (f'.capture h' r).1 = (f.capture h r).1 ∧ (f.capture h r).2.1.Alike (f'.capture h' r).2.1 ∧
      (f.capture h r).2.2.Alike (f'.capture h' r).2.2 := by
  have hcell : Cell.opened f'.id r = .opened f.id r := by rw [hf.id_eq]
  rw [Frame.capture, Frame.capture, hf.openCells_eq]
  cases f.openCells.lookup r with
  | some c => exact ⟨rfl, hf, hh⟩
  | none =>
    obtain ⟨hc, hnew⟩ := hh.newCell (.opened f.id r)
    simp only [hcell, hc, true_and]
    exact ⟨hf.withOpenCells _, hnew⟩

end Frame.Alike

/-! ### Engines -/

/-- Configurations that differ only in the least size of register files. -/
structure Config.Alike (c c' : Config) : Prop where
  maxCallDepth_eq : c'.maxCallDepth = c.maxCallDepth
  openBaseLibrary_eq : c'.openBaseLibrary = c.openBaseLibrary

/-- Engines that differ only in the sizes of register files, and in what these sizes come from. -/
structure Engine.Alike (e e' : Engine) : Prop where
  config : e.config.Alike e'.config
  frames : Pointwise Frame.Alike e.frames e'.frames
  heap : e.heap.Alike e'.heap
  globals_eq : e'.globals = e.globals
  defaultMeta_eq : e'.defaultMeta = e.defaultMeta
  serial_eq : e'.serial = e.serial
  nativeDepth_eq : e'.nativeDepth = e.nativeDepth
  events_eq : e'.events = e.events

namespace Engine.Alike

variable {e e' : Engine} {c c' : Closure} {p p' : Prototype}

theorem depth_eq (h : e.Alike e') : e'.depth = e.depth := h.frames.size_eq

theorem frameAt (h : e.Alike e') (i : Nat) :
    (e.frames.getD i blankFrame).Alike (e'.frames.getD i blankFrame) := by
  have hi := h.frames.getElem? i
  rw [Array.getD_eq_getD_getElem?, Array.getD_eq_getD_getElem?]
  generalize e.frames[i]? = f? at hi ⊢
  generalize e'.frames[i]? = f?' at hi ⊢
  cases hi with
  | none => exact .blank
  | some hf => exact hf

theorem frame (h : e.Alike e') : e.frame.Alike e'.frame := by
  have hlast := h.frameAt (e.depth - 1)
  rw [Array.getD_eq_getD_getElem?, Array.getD_eq_getD_getElem?] at hlast
  rw [Engine.frame, Engine.frame, Array.back?_eq_getElem?, Array.back?_eq_getElem?,
    h.frames.size_eq]
  exact hlast

theorem withHeap (h : e.Alike e') {heap heap' : Heap} (hh : heap.Alike heap') :
    ({ e with heap } : Engine).Alike { e' with heap := heap' } :=
  ⟨h.config, h.frames, hh, h.globals_eq, h.defaultMeta_eq, h.serial_eq, h.nativeDepth_eq,
    h.events_eq⟩

theorem updateTable (h : e.Alike e') (t : TableRef) (g : Table → Table) :
    ({ e with heap := e.heap.updateTable t g } : Engine).Alike
      { e' with heap := e'.heap.updateTable t g } := h.withHeap (h.heap.updateTable t g)

theorem emit (h : e.Alike e') (event : Event) :
    ({ e with events := e.events.push event } : Engine).Alike
      { e' with events := e'.events.push event } :=
  ⟨h.config, h.frames, h.heap, h.globals_eq, h.defaultMeta_eq, h.serial_eq, h.nativeDepth_eq,
    congrArg (·.push event) h.events_eq⟩

/-! ### The call stack -/

theorem updateFrame (h : e.Alike e') {g g' : Frame → Frame}
    (hg : ∀ {f f' : Frame}, f.Alike f' → (g f).Alike (g' f')) :
    (e.updateFrame g).Alike (e'.updateFrame g') := by
  refine ⟨h.config, ?_, h.heap, h.globals_eq, h.defaultMeta_eq, h.serial_eq, h.nativeDepth_eq,
    h.events_eq⟩
  rw [Engine.updateFrame, Engine.updateFrame, h.frames.size_eq]
  exact h.frames.modify _ hg

theorem push (h : e.Alike e') (hc : c.Alike c') (args : List Value) :
    (e.push c args).Alike (e'.push c' args) := by
  refine ⟨h.config, ?_, h.heap, h.globals_eq, h.defaultMeta_eq, congrArg (· + 1) h.serial_eq,
    h.nativeDepth_eq, h.events_eq⟩
  rw [Engine.push, Engine.push, h.serial_eq, h.frames.size_eq]
  exact h.frames.push (.start _ hc args _ _)

theorem pop (h : e.Alike e') : e'.pop.1 = e.pop.1 ∧ e.pop.2.Alike e'.pop.2 := by
  obtain ⟨hf, hheap⟩ := h.frame.closeFrom h.heap 0
  exact ⟨hf.results_eq, h.config, h.frames.pop, hheap, h.globals_eq, h.defaultMeta_eq, h.serial_eq,
    h.nativeDepth_eq, h.events_eq⟩

theorem popMany (n : Nat) {r r' : List Value × Engine} (hr : r'.1 = r.1) (h : r.2.Alike r'.2) :
    (Engine.popMany n r').1 = (Engine.popMany n r).1 ∧
      (Engine.popMany n r).2.Alike (Engine.popMany n r').2 := by
  induction n generalizing r r' with
  | zero => exact ⟨hr, h⟩
  | succ n ih => exact ih h.pop.1 h.pop.2

theorem unwindTo (h : e.Alike e') (depth : Nat) :
    (e'.unwindTo depth).1 = (e.unwindTo depth).1 ∧
      (e.unwindTo depth).2.Alike (e'.unwindTo depth).2 := by
  rw [Engine.unwindTo, Engine.unwindTo, h.frames.size_eq]
  exact popMany _ rfl h

theorem load (h : e.Alike e') (hp : p.Alike p') : (e.load p).Alike (e'.load p') := by
  have hglobal : Value.table e'.globals = .table e.globals := by rw [h.globals_eq]
  obtain ⟨hcells, hheap⟩ := h.heap.newClosedCells ((List.range p.upvalues.size).map fun i =>
    if i = 0 then Value.table e.globals else .nil)
  simp only [Engine.load, hp.upvalues_eq, hglobal, hcells]
  have hc (upvalues : Array CellRef) : Closure.Alike ⟨p, upvalues⟩ ⟨p', upvalues⟩ := ⟨hp, rfl⟩
  exact (h.withHeap hheap).push (hc _) []

/-! ### Cells and functions -/

theorem cellValue_eq (h : e.Alike e') (c : CellRef) : e'.cellValue c = e.cellValue c := by
  rw [cellValue, cellValue, h.heap.cell_eq]
  cases e.heap.cell c with
  | opened frame r => exact (h.frameAt _).get_eq r
  | closed v => rfl

theorem setCellValue (h : e.Alike e') (c : CellRef) (v : Value) :
    (e.setCellValue c v).Alike (e'.setCellValue c v) := by
  rw [Engine.setCellValue, Engine.setCellValue, h.heap.cell_eq]
  cases e.heap.cell c with
  | opened frame r =>
    exact ⟨h.config, h.frames.modify _ fun hf => hf.set r v, h.heap, h.globals_eq,
      h.defaultMeta_eq, h.serial_eq, h.nativeDepth_eq, h.events_eq⟩
  | closed _ => exact h.withHeap (h.heap.setCell c _)

theorem captureRegister (h : e.Alike e') (r : Nat) :
    (e'.captureRegister r).1 = (e.captureRegister r).1 ∧
      (e.captureRegister r).2.Alike (e'.captureRegister r).2 := by
  obtain ⟨hc, hf, hheap⟩ := h.frame.capture h.heap r
  exact ⟨hc, (h.withHeap hheap).updateFrame fun _ => hf⟩

theorem closeCells (h : e.Alike e') (first : Nat) :
    (e.closeCells first).Alike (e'.closeCells first) := by
  obtain ⟨hf, hheap⟩ := h.frame.closeFrom h.heap first
  exact (h.withHeap hheap).updateFrame fun _ => hf

theorem newTable (h : e.Alike e') :
    e'.newTable.1 = e.newTable.1 ∧ e.newTable.2.Alike e'.newTable.2 := by
  obtain ⟨ht, hheap⟩ := h.heap.newTable
  exact ⟨ht, h.withHeap hheap⟩

theorem newFunction (h : e.Alike e') {g g' : Function} (hg : g.Alike g') :
    (e'.newFunction g').1 = (e.newFunction g).1 ∧
      (e.newFunction g).2.Alike (e'.newFunction g').2 := by
  obtain ⟨hr, hheap⟩ := h.heap.newFunction hg
  exact ⟨hr, h.withHeap hheap⟩

theorem setGlobal (h : e.Alike e') (name : String) (v : Value) :
    (e.setGlobal name v).Alike (e'.setGlobal name v) := by
  refine h.withHeap ?_
  rw [h.globals_eq]
  exact h.heap.updateTable _ _

theorem register (h : e.Alike e') (name : String) {body body' : List Value → Host}
    (hbody : ∀ args, (body args).Alike (body' args)) :
    (e.register name body).Alike (e'.register name body') := by
  obtain ⟨hr, hnew⟩ := h.newFunction (.native name hbody)
  rw [Engine.register, Engine.register]
  simp only [hr]
  exact hnew.setGlobal _ _

/-- New engines are alike if their configurations are. -/
theorem new {config config' : Config} (h : config.Alike config') :
    (Engine.new config).Alike (Engine.new config') := by
  have hempty : (Engine.empty config).Alike (Engine.empty config') :=
    ⟨h, .empty, ⟨rfl, rfl, .empty⟩, rfl, rfl, rfl, rfl, rfl⟩
  have hopen {e e' : Engine} (he : e.Alike e') : e.openBase.Alike e'.openBase := by
    rw [Engine.openBase, Engine.openBase]
    generalize BaseLibrary.functions = functions
    induction functions generalizing e e' with
    | nil => exact he
    | cons f fs ih => exact ih (he.register f.1 fun args => .refl _)
  rw [Engine.new, Engine.new, h.openBaseLibrary_eq]
  split
  · exact hopen hempty
  · exact hempty

end Engine.Alike

end LuaBytecode
