import LuaBytecode.Proofs.Run.Move
import LuaBytecode.Proofs.Run.Parts
import LuaBytecode.Proofs.Variable.Event

/-!
# Upvalues are variables of other functions

A function is made with cells that are there, and it starts in a frame that is not.  So none of its
upvalues is a register of a frame in which it runs.

* `Engine.Refers`, `Engine.Accounted` : the cells that functions and frames refer to were given out.
* `Engine.Accounts` : they still are, after every part of a run.
* `Machine.Reachable.accounted` : they are in every state.
* `Machine.Reachable.foreign` : **no upvalue of a running function is open on its own frame.**
-/

namespace LuaBytecode

variable {e e₁ e' : Engine} {c : CellRef}

/-! ### References to cells -/

/-- The function of the frame has the cell as an upvalue, or a register has it as its open cell. -/
def Frame.RefersTo (f : Frame) (c : CellRef) : Prop :=
  c ∈ f.closure.upvalues ∨ ∃ r, (r, c) ∈ f.openCells

theorem Heap.functions_newClosedCells (h : Heap) (vs : List Value) :
    (h.newClosedCells vs).2.functions = h.functions := by
  induction vs generalizing h with
  | nil => rfl
  | cons v vs ih => exact ih _

theorem Heap.hasCell_newCell (h : Heap) (s : Cell) : (h.newCell s).2.HasCell (h.newCell s).1 := by
  simp [HasCell, newCell]

theorem Heap.hasCell_of_mem_newClosedCells (h : Heap) {vs : List Value}
    (hc : c ∈ (h.newClosedCells vs).1) : (h.newClosedCells vs).2.HasCell c := by
  induction vs generalizing h with
  | nil => exact absurd hc List.not_mem_nil
  | cons v vs ih =>
    obtain rfl | hc := List.mem_cons.1 hc
    · exact Nat.lt_of_lt_of_le (hasCell_newCell h _) (size_cells_newClosedCells _ vs)
    · exact ih _ hc

theorem Frame.functions_closeAll (f : Frame) (cs : List (Nat × CellRef)) (h : Heap) :
    (f.closeAll cs h).functions = h.functions := by
  induction cs generalizing h with
  | nil => rfl
  | cons rc cs ih => exact ih _

namespace Engine

/-- A function or a frame refers to the cell. -/
inductive Refers (e : Engine) (c : CellRef) : Prop where
  | function {f : Closure} (h : .closure f ∈ e.heap.functions) (hc : c ∈ f.upvalues)
  | frame {j : Nat} {f : Frame} (h : e.frames[j]? = some f) (hc : f.RefersTo c)

/-- The cells that are referred to were given out. -/
def Accounted (e : Engine) : Prop := ∀ c, e.Refers c → e.heap.HasCell c

theorem Refers.of_eq (h : e'.Refers c) (hframes : e'.frames = e.frames)
    (hfunctions : e'.heap.functions = e.heap.functions) : e.Refers c := by
  cases h with
  | function h hc => exact .function (hfunctions ▸ h) hc
  | frame h hc => exact .frame (hframes ▸ h) hc

theorem refers_of_frame (h : e.frame.RefersTo c) : e.Refers c := by
  rcases Nat.eq_zero_or_pos e.depth with hzero | hpos
  · rw [frame_of_depth_eq_zero hzero] at h
    simp [Frame.RefersTo, blankFrame] at h
  · exact .frame (getElem?_depth hpos) h

theorem Refers.of_updateFrame {g : Frame → Frame} (h : (e.updateFrame g).Refers c) :
    e.Refers c ∨ (g e.frame).RefersTo c := by
  cases h with
  | function h hc => exact .inl (.function h hc)
  | frame h hc =>
    rw [getElem?_updateFrame] at h
    split at h
    · rename_i hj
      obtain ⟨f, hf, rfl⟩ := Option.map_eq_some_iff.1 h
      obtain rfl := frame_eq_of_getElem? (e := e) (by rwa [← hj])
      exact .inr hc
    · exact .inl (.frame h hc)

theorem Refers.of_push {f : Closure} {args : List Value} (h : (e.push f args).Refers c) :
    e.Refers c ∨ c ∈ f.upvalues := by
  cases h with
  | function h hc => exact .inl (.function h hc)
  | frame h hc =>
    rw [getElem?_push] at h
    split at h
    · obtain rfl := Option.some.inj h
      obtain hc | ⟨r, hr⟩ := hc
      · exact .inr hc
      · exact absurd hr List.not_mem_nil
    · exact .inl (.frame h hc)

theorem Refers.of_popMany {n : Nat} {r : List Value × Engine} (h : (popMany n r).2.Refers c) :
    r.2.Refers c := by
  have hfunctions : (popMany n r).2.heap.functions = r.2.heap.functions := by
    clear h
    induction n generalizing r with
    | zero => rfl
    | succ n ih => exact ih.trans (r.2.frame.functions_closeAll _ r.2.heap)
  cases h with
  | function h hc => exact .function (hfunctions ▸ h) hc
  | frame h hc =>
    rw [getElem?_popMany] at h
    exact .frame (Option.ite_none_right_eq_some.1 h).2 hc

/-! ### What keeps them accounted -/

/-- Cells stay given out, and if those that are referred to were given out, they still are. -/
structure Accounts (e e' : Engine) : Prop where
  hasCell : ∀ c, e.heap.HasCell c → e'.heap.HasCell c
  accounted : e.Accounted → e'.Accounted

instance : IsPreorder Engine Accounts where
  refl _ := ⟨fun _ => id, id⟩
  trans _ _ _ h₁ h₂ := ⟨fun c hc => h₂.hasCell c (h₁.hasCell c hc), h₂.accounted ∘ h₁.accounted⟩

theorem Accounts.of_refers (hcells : ∀ c, e.heap.HasCell c → e'.heap.HasCell c)
    (hrefers : ∀ c, e'.Refers c → e.Refers c ∨ e'.heap.HasCell c) : e.Accounts e' where
  hasCell := hcells
  accounted h c hc := (hrefers c hc).elim (fun hc => hcells c (h c hc)) id

theorem Accounts.of_eq (hcells : e'.heap.cells = e.heap.cells) (hframes : e'.frames = e.frames)
    (hfunctions : e'.heap.functions = e.heap.functions) : e.Accounts e' := by
  refine .of_refers (fun c hc => ?_) fun c hc => .inl (hc.of_eq hframes hfunctions)
  rwa [Heap.HasCell, hcells]

theorem accounts_updateFrame {g : Frame → Frame} (hfunction : ∀ f, (g f).function = f.function)
    (hlinks : ∀ f, (g f).links = f.links) (e : Engine) : e.Accounts (e.updateFrame g) := by
  refine .of_refers (fun _ => id) fun c hc => .inl ?_
  obtain hc | hc := hc.of_updateFrame
  · exact hc
  · have hclosure : (g e.frame).closure = e.frame.closure := congrArg Prod.snd (hfunction e.frame)
    have hopen : (g e.frame).openCells = e.frame.openCells := congrArg Prod.snd (hlinks e.frame)
    exact refers_of_frame (hc.imp (fun hc => hclosure ▸ hc) fun ⟨r, hr⟩ => ⟨r, hopen ▸ hr⟩)

theorem accounts_setCellValue (e : Engine) (d : CellRef) (v : Value) :
    e.Accounts (e.setCellValue d v) := by
  refine .of_refers (fun c => (hasCell_setCellValue_iff e d v).2) fun c hc => .inl ?_
  unfold setCellValue at hc
  split at hc
  · cases hc with
    | function h hc => exact .function h hc
    | frame h hc =>
      rw [Array.getElem?_modify] at h
      split at h
      · obtain ⟨f, hf, rfl⟩ := Option.map_eq_some_iff.1 h
        exact .frame hf hc
      · exact .frame h hc
  · exact hc.of_eq rfl rfl

theorem accounts_closeCells (e : Engine) (first : Nat) : e.Accounts (e.closeCells first) := by
  refine .of_refers (fun c => (hasCell_closeFrom_iff _ first _).2) fun c hc => .inl ?_
  obtain hc | hc := Refers.of_updateFrame hc
  · exact hc.of_eq rfl (e.frame.functions_closeAll _ e.heap)
  · exact refers_of_frame (hc.imp id fun ⟨r, hr⟩ => ⟨r, (List.mem_filter.1 hr).1⟩)

theorem accounts_load (e : Engine) (p : Prototype) : e.Accounts (e.load p) := by
  refine .of_refers (fun c => hasCell_load p) fun c hc => ?_
  obtain hc | hc := Refers.of_push hc
  · exact .inl (hc.of_eq rfl (Heap.functions_newClosedCells _ _))
  · exact .inr (Heap.hasCell_of_mem_newClosedCells _ (List.mem_toArray.1 hc))

/-- The function that a call finds is one of the heap. -/
theorem mem_functions_of_callee {f : Value} {args args' : List Value} {g : Function}
    (h : e.callee f args = .ok (g, args')) : g ∈ e.heap.functions := by
  have mem {r : FunctionRef} {vs : List Value}
      (h : (e.functionAt r).map (·, vs) = .ok (g, args')) : g ∈ e.heap.functions := by
    unfold functionAt at h
    cases hr : e.heap.function? r with
    | none =>
      rw [hr] at h
      exact nomatch h
    | some g' =>
      rw [hr] at h
      obtain ⟨rfl, -⟩ := Prod.mk.inj (Except.ok.inj h)
      exact Array.mem_of_getElem? hr
  unfold callee at h
  split at h
  · exact mem h
  · split at h
    · exact mem h
    · exact nomatch h

theorem accounts_push {f : Value} {args args' : List Value} {g : Closure}
    (h : e.callee f args = .ok (.closure g, args')) : e.Accounts (e.push g args') := by
  refine .of_refers (fun _ => id) fun c hc => .inl ?_
  obtain hc | hc := Refers.of_push hc
  · exact hc
  · exact .function (mem_functions_of_callee h) hc

theorem accounts_unwindTo (e : Engine) (depth : Nat) : e.Accounts (e.unwindTo depth).2 :=
  .of_refers (fun _ => (hasCell_popMany_iff _ ([], e)).2) fun _ hc => .inl (Refers.of_popMany hc)

/-! ### New functions -/

theorem Refers.of_newFunction {f : Function} (h : (e.newFunction f).2.Refers c) :
    e.Refers c ∨ ∃ g, f = .closure g ∧ c ∈ g.upvalues := by
  cases h with
  | function h hc =>
    obtain h | h := Array.mem_push.1 h
    · exact .inl (.function h hc)
    · exact .inr ⟨_, h.symm, hc⟩
  | frame h hc => exact .inl (.frame h hc)

theorem accounts_captureRegister (e : Engine) (r : Nat) :
    e.Accounts (e.captureRegister r).2 := by
  refine .of_refers (e.advances_captureRegister r).hasCell fun c hc => ?_
  cases hr : e.frame.openCells.lookup r with
  | some d =>
    rw [captureRegister_of_lookup hr] at hc
    exact .inl hc
  | none =>
    rw [captureRegister_of_lookup_eq_none hr] at hc ⊢
    obtain hc | hc | ⟨s, hs⟩ := Refers.of_updateFrame hc
    · exact .inl (hc.of_eq rfl rfl)
    · exact .inl (refers_of_frame (.inl hc))
    · obtain hs | hs := List.mem_cons.1 hs
      · obtain ⟨-, rfl⟩ := Prod.mk.inj hs
        exact .inr (Heap.hasCell_newCell e.heap _)
      · exact .inl (refers_of_frame (.inr ⟨s, hs⟩))

/-- A register is captured in a cell that was given out. -/
theorem Accounted.hasCell_captureRegister (h : e.Accounted) (r : Nat) :
    (e.captureRegister r).2.heap.HasCell (e.captureRegister r).1 := by
  cases hr : e.frame.openCells.lookup r with
  | some d =>
    rw [captureRegister_of_lookup hr]
    exact h d (refers_of_frame (.inr ⟨r, Frame.mem_of_lookup hr⟩))
  | none =>
    rw [captureRegister_of_lookup_eq_none hr]
    exact Heap.hasCell_newCell e.heap _

/-- The capture of all upvalues fails, or finds cells that were given out. -/
theorem accounts_captureAll (us : List UpvalueSource) (e : Engine) :
    ∃ e', e.Accounts e' ∧ ((∃ f, Action.captureAll us e = .fault f e') ∨
      ∃ cells, Action.captureAll us e = .done cells e' ∧
        (e.Accounted → ∀ c ∈ cells, e'.heap.HasCell c)) := by
  have hrefl (e : Engine) : e.Accounts e := Std.Refl.refl e
  induction us generalizing e with
  | nil => exact ⟨e, hrefl e, .inr ⟨[], rfl, fun _ c hc => absurd hc List.not_mem_nil⟩⟩
  | cons u us ih =>
    cases u with
    | register s =>
      have hcapture : Action.captureAll (.register s :: us) e =
          (Action.captureAll us (e.captureRegister s.toNat).2).andThen
            fun cs => .done ((e.captureRegister s.toNat).1 :: cs) := rfl
      have hfirst := e.accounts_captureRegister s.toNat
      obtain ⟨e', hrest, ⟨f, hf⟩ | ⟨cells, hcells, hhas⟩⟩ := ih (e.captureRegister s.toNat).2
      · refine ⟨e', IsTrans.trans _ _ _ hfirst hrest, .inl ⟨f, ?_⟩⟩
        rw [hcapture, hf]
        rfl
      · refine ⟨e', IsTrans.trans _ _ _ hfirst hrest,
          .inr ⟨(e.captureRegister s.toNat).1 :: cells, ?_, fun h => ?_⟩⟩
        · rw [hcapture, hcells]
          rfl
        · exact List.forall_mem_cons.2
            ⟨hrest.hasCell _ (h.hasCell_captureRegister _), hhas (hfirst.accounted h)⟩
    | enclosing n =>
      have hcapture : Action.captureAll (.enclosing n :: us) e =
          (Action.orFail (Malformation.enclosingUpvalueOutOfRange n.toNat)
            (e.frame.upvalue? n.toNat) e).andThen fun c e =>
              (Action.captureAll us e).andThen fun cs => .done (c :: cs) := rfl
      cases hup : e.frame.upvalue? n.toNat with
      | none => exact ⟨e, hrefl e, .inl ⟨_, by rw [hcapture, hup]; rfl⟩⟩
      | some d =>
        rw [hup] at hcapture
        obtain ⟨e', hrest, ⟨f, hf⟩ | ⟨cells, hcells, hhas⟩⟩ := ih e
        · refine ⟨e', hrest, .inl ⟨f, hcapture.trans ?_⟩⟩
          change (Action.captureAll us e).andThen _ = _
          rw [hf]
          rfl
        · refine ⟨e', hrest, .inr ⟨d :: cells, hcapture.trans ?_, fun h => ?_⟩⟩
          · change (Action.captureAll us e).andThen _ = _
            rw [hcells]
            rfl
          · have hd : e.Refers d := refers_of_frame (.inl (Array.mem_of_getElem? hup))
            exact List.forall_mem_cons.2 ⟨hrest.hasCell d (h d hd), hhas h⟩

end Engine

open Engine (Accounts)

theorem Action.accounts_closure (n : Nat) : (closure n).Walks Accounts := by
  refine .bind (.read _) fun p? => .bind (.orFail _ _) fun p e => ?_
  obtain ⟨e₁, hcapture, ⟨f, hf⟩ | ⟨cells, hcells, hhas⟩⟩ :=
    Engine.accounts_captureAll p.upvalues.toList e
  · rw [bind_apply, hf]
    exact hcapture
  · rw [bind_apply, hcells]
    refine ⟨hcapture.hasCell, fun h c hc => ?_⟩
    obtain hc | ⟨g, hg, hc⟩ := Engine.Refers.of_newFunction hc
    · exact hcapture.accounted h c hc
    · obtain rfl := Function.closure.inj hg
      exact hhas h c (List.mem_toArray.1 hc)

/-- **Every part of a run keeps the references accounted.** -/
instance : Engine.Covers Accounts where
  operate _ _ _ := .of_eq rfl rfl rfl
  newTable _ := .of_eq rfl rfl rfl
  newNative e name body := by
    refine .of_refers (fun _ => id) fun c hc => .inl ?_
    obtain hc | ⟨g, hg, -⟩ := Engine.Refers.of_newFunction hc
    · exact hc
    · exact nomatch hg
  closure := Action.accounts_closure
  events _ _ := .of_eq rfl rfl rfl
  updateFrame := Engine.accounts_updateFrame
  setCellValue := Engine.accounts_setCellValue
  closeCells := Engine.accounts_closeCells
  nativeDepth _ _ := .of_eq rfl rfl rfl
  push := Engine.accounts_push
  load := Engine.accounts_load
  unwindTo := Engine.accounts_unwindTo

namespace Machine

variable {config : Config} {m m' : Machine}

/-- In a run, every cell that is referred to was given out. -/
theorem Reachable.accounted (h : Reachable config m) : m.engine.Accounted := by
  refine (h.covers (R := Accounts)).accounted fun c hc => ?_
  cases hc with
  | function h hc => exact absurd h (Array.not_mem_empty _)
  | frame h hc => exact absurd h (by simp [Engine.empty])

/-- No upvalue of a running function is open on its own frame. -/
def Foreign (m : Machine) : Prop :=
  ∀ (j : Nat) (f : Frame) (c : CellRef) (r : Nat), m.engine.frames[j]? = some f →
    c ∈ f.closure.upvalues → m.engine.heap.cell c ≠ .opened f.id r

/-- No cell is open yet on a frame that has just started. -/
theorem not_opened_of_push {g : Closure} {args : List Value} (hl : m.engine.Linked)
    (hpush : m.engine = e.push g args) {j : Nat} {f : Frame} (hf : m.engine.frames[j]? = some f) :
    e.frames[j]? = some f ∨ ∀ c r, m.engine.heap.cell c ≠ .opened f.id r := by
  have hcases := hf
  rw [hpush, Engine.getElem?_push] at hcases
  split at hcases
  · refine .inr fun c r ho => ?_
    obtain ⟨f', hf', -, hr⟩ := hl.frame_of_open ho
    rw [hl.depth_eq hf, hf] at hf'
    obtain rfl := Option.some.inj hf'
    rw [← Option.some.inj hcases] at hr
    exact nomatch hr
  · exact .inl hcases

/-- A step keeps upvalues foreign: cells are not opened again, and new frames have none. -/
theorem Foreign.next (h : m.Foreign) (hl : m.engine.Linked) (hl' : m'.engine.Linked)
    (haccounted : m.engine.Accounted) (heffect : m.Effect m') (hmove : m.Move m') :
    m'.Foreign := by
  intro j f' c r hf' hc
  -- a frame that was there: its upvalues had their cells, and these are not opened again
  have old {f : Frame} (hf : m.engine.frames[j]? = some f) (hfunction : f.function = f'.function) :
      m'.engine.heap.cell c ≠ .opened f'.id r := by
    obtain ⟨hid, hclosure⟩ := Prod.mk.inj hfunction
    rw [← hclosure] at hc
    rw [← hid]
    intro ho
    have hhas := haccounted c (.frame hf (.inl hc))
    exact h j f c r hf hc (heffect.opened_of_opened hl hhas ho)
  have stays {e : Engine} (hstays : e.Stays m'.engine) (hframes : e.frames = m.engine.frames) :
      m'.engine.heap.cell c ≠ .opened f'.id r := by
    have hsame := hstays.getElem?_eq j
    rw [hf', hframes] at hsame
    obtain ⟨f, hf, hfunction⟩ := Option.map_eq_some_iff.1 hsame.symm
    exact old hf hfunction
  have started {e : Engine} {g : Closure} {args : List Value}
      (hpush : m'.engine = e.push g args) (hframes : e.frames = m.engine.frames) :
      m'.engine.heap.cell c ≠ .opened f'.id r := by
    obtain hf | hnew := not_opened_of_push hl' hpush hf'
    · exact old (hframes ▸ hf) rfl
    · exact hnew c r
  cases hmove with
  | stay hstays => exact stays hstays rfl
  | enter hfull hstays => exact stays hstays rfl
  | push g args hfull hpush => exact started hpush rfl
  | load p hload heq => exact started heq rfl
  | leave base p hp heq =>
    rw [heq, Engine.unwindTo, Engine.getElem?_popMany] at hf'
    exact old (Option.ite_none_right_eq_some.1 hf').2 rfl

/-- **No upvalue of a running function is open on its own frame**: what the function assigns to an
upvalue is never a register of the frame that it runs in. -/
theorem Reachable.foreign (h : Reachable config m) : m.Foreign := by
  induction h with
  | refl =>
    intro j f c r hf
    have hnone : (new config).engine.frames = #[] :=
      (Engine.supplies_new (R := Engine.Calm) config).frames_eq
    rw [hnone] at hf
    exact nomatch hf
  | tail h hn ih =>
    have hm : Reachable config _ := h
    have hm' : Reachable config _ := hm.tail hn
    exact ih.next hm.linked hm'.linked hm.accounted (hm.sound.next hn).2 (hm.move hn)

end Machine

end LuaBytecode
