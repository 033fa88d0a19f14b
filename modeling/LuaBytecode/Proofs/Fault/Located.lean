import LuaBytecode.Proofs.Fault.Trail
import LuaBytecode.Proofs.Run.Agreement

/-!
# Faults are located once

A fault may come up anywhere: in an instruction, in a metamethod, in a host function, or because a
call is refused.  On its way out it passes any number of functions, and each instruction that it
passes would give it a place.

* `Machine.Arises` : where a fault comes up in a run.
* `Machine.Arises.carried` : on its way out it is what it was, until the innermost function on the
  stack has located it; from then on nothing changes it.
* `Operation.located_of_ends` : **the fault of an operation carries the place of the innermost
  frame.**

The first part of the way is known by the frame on top, which stays the same.
-/

namespace LuaBytecode

variable {pcs : Positions} {m₀ m₁ m m' : Machine} {x y : Fault}

/-! ### Places -/

namespace Frame.Locates

variable {f : Frame} {g g' : Fault → Fault}

/-- The first place counts. -/
theorem comp {f' : Frame} {pcs' : Positions} (h : f.Locates pcs g) (h' : f'.Locates pcs' g')
    (x : Fault) : g' (g x) = g x := by
  obtain ⟨pc, -, rfl⟩ := h
  obtain ⟨pc', -, rfl⟩ := h'
  exact Fault.locate_locate _ _ _ _ _

end Frame.Locates

theorem Prototype.locate_eq_self (p : Prototype) (pc : Nat)
    (h : x.place.isSome = true ∨ x.cause.isRaised = true) : p.locate pc x = x := by
  obtain ⟨cause, place⟩ := x
  cases cause <;> cases place <;> simp_all [locate, Fault.locate, Cause.isRaised]

theorem Prototype.locate_eq_mk (p : Prototype) (pc : Nat) (hplace : x.place = none)
    (hcause : x.cause.isRaised = false) :
    p.locate pc x = ⟨x.cause, some ⟨p.source, p.lineAt pc⟩⟩ := by
  obtain ⟨cause, place⟩ := x
  obtain rfl : place = none := hplace
  cases cause with
  | raised v => exact absurd hcause (by simp [Cause.isRaised])
  | _ => rfl

namespace Machine

/-! ### Where faults come up -/

/-- In the run from `m₀` the fault `x` comes up in `m`; the positions are those of the frames
there. -/
inductive Arises (m₀ : Machine) : Positions → Fault → Machine → Prop where
  | start {x : Fault} (hx : m₀.fault? = some x) : Arises m₀ (fun _ => none) x m₀
  | step {pcs : Positions} {m m' : Machine} {x : Fault} (h : Trail m₀ pcs m)
      (hstep : m.step = some m') (hx : m'.fault? = some x) (hnew : ¬ m.Passes m') :
      Arises m₀ (m.mark pcs) x m'

/-- The fault in flight goes on from state to state. -/
def Carries : Machine → Machine → Prop := Relation.ReflTransGen Passes

theorem Passes.exists_fault? (h : m.Passes m') : ∃ x, m.fault? = some x := by
  cases h with
  | same _ hx _ => exact ⟨_, hx⟩
  | script _ => exact ⟨_, rfl⟩

theorem Arises.trail (h : Arises m₀ pcs x m) : Trail m₀ pcs m := by
  cases h with
  | start _ => exact .start
  | step h hstep _ _ => exact h.step hstep

theorem Arises.fault?_eq (h : Arises m₀ pcs x m) : m.fault? = some x := by
  cases h with
  | start hx => exact hx
  | step _ _ hx _ => exact hx

/-- Every fault in flight has come up somewhere. -/
theorem Trail.exists_arises (h : Trail m₀ pcs m) (hx : m.fault? = some x) :
    ∃ pcs₁ y m₁, Arises m₀ pcs₁ y m₁ ∧ m₁.Carries m := by
  induction h generalizing x with
  | start => exact ⟨_, x, m₀, .start hx, .refl⟩
  | @step pcs m m' hm hstep ih =>
    -- the fault was in flight before the step, or it comes up in it
    by_cases hpasses : m.Passes m'
    · obtain ⟨z, hz⟩ := hpasses.exists_fault?
      obtain ⟨pcs₁, y, m₁, harises, hcarries⟩ := ih hz
      exact ⟨pcs₁, y, m₁, harises, hcarries.tail hpasses⟩
    · exact ⟨_, x, m', .step hm hstep hx hpasses, .refl⟩

/-- Positions change only where an instruction starts. -/
theorem mark_eq_self (h : ∀ base e, m.activity ≠ .script base (.done false e)) (pcs : Positions) :
    m.mark pcs = pcs := by
  obtain ⟨a, w⟩ := m
  match a with
  | .script base (.done false e) => exact absurd rfl (h base e)
  | .script _ (.done true _) | .script _ (.fault _ _) | .script _ (.await _ _ _) | .host _
  | .ended _ _ => rfl

/-- No instruction starts while a fault is in flight. -/
theorem mark_eq_of_fault? (h : m.fault? = some x) (pcs : Positions) : m.mark pcs = pcs := by
  refine mark_eq_self (fun base e ha => ?_) pcs
  obtain ⟨a, w⟩ := m
  obtain rfl : a = .script base (.done false e) := ha
  exact absurd h (by simp [fault?])

/-- A fault that comes up in an instruction is a failure of the engine, and has its place. -/
theorem Arises.located_of_script {base : Nat} {p : Progress Bool} (h : Arises m₀ pcs x m)
    (h₀ : m₀.Regular) (hidle : m₀.Idle) (ha : m.activity = .script base p) :
    ∃ c g, c.isRaised = false ∧ m.engine.frame.Locates pcs g ∧ x = g (.ofCause c) := by
  have hx := h.fault?_eq
  obtain ⟨a, w⟩ := m
  obtain rfl : a = .script base p := ha
  cases p with
  | done b e => exact absurd hx (by simp [fault?])
  | await job e go => exact absurd hx (by simp [fault?])
  | fault y e =>
    obtain rfl := Option.some.inj hx
    cases h with
    | start _ =>
      obtain ⟨_, hdone⟩ := hidle.eq_done rfl
      exact absurd hdone (by simp)
    | step hm hstep _ hnew =>
      obtain ⟨_, hdone⟩ | hpasses | ⟨g, hlocates, c, hc, rfl⟩ :=
        (hm.tracked h₀ hidle).reports (h₀.steps hm.steps) hstep
      · exact absurd hdone (by simp)
      · exact absurd hpasses hnew
      · exact ⟨c, g, hc, hlocates, rfl⟩

/-! ### The frames that are left -/

/-- The number of frames when all work has ended. -/
def bottom (m : Machine) : Nat := go m.activity.floor m.waiting
where
  go : Nat → List Waiting → Nat
    | depth, [] => depth
    | _, .script base _ :: w => go base w
    | depth, .host _ :: w => go depth w

theorem Sound.bottom_eq (h : m.Sound) (hstep : m.step = some m') : m'.bottom = m.bottom := by
  match m with
  | ⟨.script base (.done false e), w⟩ | ⟨.host (.done vs e), w⟩ | ⟨.host (.fault x e), w⟩
  | ⟨.ended r e, .script base go :: w⟩ =>
    obtain rfl := Option.some.inj hstep
    rfl
  | ⟨.script base (.await job e go), w⟩ =>
    obtain rfl := Option.some.inj hstep
    rfl
  | ⟨.script base (.done true e), w⟩ | ⟨.script base (.fault x e), w⟩ =>
    obtain rfl := Option.some.inj hstep
    have hdepth : e.depth = base + 1 := h.activity.1
    have hfloor : (e.unwindTo base).2.depth = base := by
      rw [Engine.depth_unwindTo]
      omega
    exact congrArg (bottom.go · w) hfloor
  | ⟨.host (.await job e go), w⟩ =>
    obtain rfl := Option.some.inj hstep
    exact congrArg (bottom.go · w) (sound_begin e job).2.1
  | ⟨.ended r e, .host go :: w⟩ =>
    obtain rfl := Option.some.inj hstep
    exact congrArg (bottom.go · w) (h.waiting.1 r e).engine.depth_eq

theorem Regular.bottom_eq (h : m.Regular) (hsteps : m.Steps m') : m'.bottom = m.bottom := by
  induction hsteps with
  | refl => rfl
  | tail hm hstep ih => exact ((h.steps hm).sound.bottom_eq hstep).trans ih

theorem bottom_go_le {depth : Nat} {w : List Waiting} (h : Waiting.Fits depth w) :
    bottom.go depth w ≤ depth := by
  induction w generalizing depth with
  | nil => exact Nat.le_refl _
  | cons x w ih =>
    cases x with
    | script base go =>
      obtain ⟨hdepth, -, hfits⟩ := h
      exact Nat.le_trans (ih hfits) (hdepth ▸ Nat.le_succ base)
    | host go => exact ih h.2

/-- A function in hand is one of those that will be left. -/
theorem Sound.bottom_lt_of_script {base : Nat} {p : Progress Bool} (h : m.Sound)
    (ha : m.activity = .script base p) : m.bottom < m.engine.depth := by
  obtain ⟨a, w⟩ := m
  obtain rfl : a = .script base p := ha
  have hdepth : p.engine.depth = base + 1 := h.activity.1
  have hle := bottom_go_le h.waiting
  exact hdepth ▸ Nat.lt_succ_of_le hle

/-! ### The way out -/

/-- What has become in `m` of a fault `x` that came up in `m₁`. -/
inductive Carried (pcs : Positions) (m₁ : Machine) (x : Fault) (m : Machine) : Fault → Prop where
  /-- It is what it was, and so is the frame on top; no instruction has met it. -/
  | unmet (hdepth : m.engine.depth = m₁.engine.depth)
    (hfunction : m.engine.frame.function = m₁.engine.frame.function)
    (hscript : ∀ base p, m.activity ≠ .script base p) : Carried pcs m₁ x m x
  /-- The frame that was on top has located it. -/
  | located {g : Fault → Fault} (hlt : m.bottom < m₁.engine.depth)
    (hg : m₁.engine.frame.Locates pcs g) : Carried pcs m₁ x m (g x)

/-- An instruction that is resumed with the fault locates it, if none has before. -/
theorem Carried.resume {base : Nat} {e : Engine}
    {go : Except Fault (List Value) → Engine → Progress Bool} {w : List Waiting}
    (h : Carried pcs m₁ x ⟨.ended (.error y) e, .script base go :: w⟩ y)
    (hm : Regular ⟨.ended (.error y) e, .script base go :: w⟩)
    (ht : Tracked pcs ⟨.ended (.error y) e, .script base go :: w⟩) :
    ∃ z, go (.error y) e = .fault z e ∧ Carried pcs m₁ x ⟨.script base (go (.error y) e), w⟩ z := by
  obtain ⟨f, g, hf, hlocates, herror, -⟩ := ht.waiting _ List.mem_cons_self
  have hdepth : e.depth = base + 1 := hm.sound.waiting.1
  have hframe : e.frame = f := Engine.frame_eq_of_getElem? (by rwa [hdepth])
  subst hframe
  refine ⟨g y, herror y e, ?_⟩
  cases h with
  | unmet hdepth₁ hfunction _ =>
    have hlt := (hm.step rfl).sound.bottom_lt_of_script (p := go (.error x) e) rfl
    rw [herror] at hlt ⊢
    exact .located (hdepth₁ ▸ hlt) (hlocates.congr hfunction.symm rfl)
  | located hlt hg =>
    rw [hg.comp hlocates x]
    exact .located hlt hg

theorem Carried.passes (h : Carried pcs m₁ x m y) (hm : m.Regular) (ht : m.Tracked pcs)
    (hy : m.fault? = some y) (hpasses : m.Passes m') :
    ∃ z, m'.fault? = some z ∧ Carried pcs m₁ x m' z := by
  have hbottom := hm.sound.bottom_eq hpasses.step
  cases hpasses with
  | @script z z' e e' base go w hgo =>
    obtain rfl := Option.some.inj hy
    obtain ⟨z₁, hz₁, hcarried⟩ := h.resume hm ht
    rw [hgo] at hz₁ hcarried
    exact ⟨z₁, by rw [hz₁]; rfl, hcarried⟩
  | same hstep hx hx' =>
    obtain rfl := Option.some.inj (hy.symm.trans hx)
    cases h with
    | located hlt hg => exact ⟨_, hx', .located (hbottom ▸ hlt) hg⟩
    | unmet hdepth hfunction hscript =>
      match m with
      | ⟨.script base p, w⟩ => exact absurd rfl (hscript base p)
      | ⟨.host (.fault z e), w⟩ =>
        obtain rfl := Option.some.inj hstep
        exact ⟨_, hx', .unmet hdepth hfunction (by simp)⟩
      | ⟨.ended (.error z) e, .host go :: w⟩ =>
        obtain rfl := Option.some.inj hstep
        have hwalks : (go (.error z) e).Walks Engine.Stays e :=
          hm.stays.waiting _ List.mem_cons_self (.error z) e
        exact ⟨_, hx', .unmet (hwalks.engine.depth_eq.trans hdepth)
          (hwalks.engine.function_frame_eq.trans hfunction) (by simp)⟩
      | ⟨.ended (.error z) e, .script base go :: w⟩ =>
        obtain rfl := Option.some.inj hy
        obtain rfl := Option.some.inj hstep
        obtain ⟨z', hz', hcarried⟩ := Carried.resume (.unmet hdepth hfunction hscript) hm ht
        exact ⟨z', by rw [hz']; rfl, hcarried⟩
      | ⟨.ended (.error z) e, []⟩ => exact absurd hstep (by simp [step])
      | ⟨.ended (.ok vs) e, w⟩ | ⟨.host (.done vs e), w⟩ | ⟨.host (.await job e go), w⟩ =>
        exact absurd hx (by simp [fault?])

/-- **On its way out a fault is located once**, by the innermost function. -/
theorem Arises.carried (h : Arises m₀ pcs x m₁) (h₀ : m₀.Regular) (hidle : m₀.Idle)
    (hcarries : m₁.Carries m) :
    Trail m₀ pcs m ∧ ∃ y, m.fault? = some y ∧ Carried pcs m₁ x m y := by
  induction hcarries with
  | refl =>
    refine ⟨h.trail, x, h.fault?_eq, ?_⟩
    by_cases hscript : ∃ base p, m₁.activity = .script base p
    · obtain ⟨base, p, ha⟩ := hscript
      obtain ⟨c, g, -, hlocates, rfl⟩ := h.located_of_script h₀ hidle ha
      have hlt := (h₀.steps h.trail.steps).sound.bottom_lt_of_script ha
      have hlocated : Carried pcs m₁ (g (.ofCause c)) m₁ (g (g (.ofCause c))) :=
        .located hlt hlocates
      rwa [hlocates.comp hlocates] at hlocated
    · exact .unmet rfl rfl fun base p ha => hscript ⟨base, p, ha⟩
  | tail _ hpasses ih =>
    obtain ⟨htrail, y, hy, hcarried⟩ := ih
    refine ⟨?_, hcarried.passes (h₀.steps htrail.steps) (htrail.tracked h₀ hidle) hy hpasses⟩
    exact mark_eq_of_fault? hy pcs ▸ htrail.step hpasses.step

/-! ### Operations -/

/-- Work that starts: an operation of the embedding program, or a job that a script or a host
function awaits. -/
inductive Begins (config : Config) : Machine → Prop where
  | operation {r : Except Fault (List Value)} {e : Engine} (o : Operation)
    (h : Reachable config { activity := .ended r e }) : Begins config (o.start e)
  | job {m : Machine} {job : Job} (h : Reachable config m) (hjob : m.activity.job? = some job) :
    Begins config { activity := m.engine.begin job }

namespace Begins

variable {config : Config}

theorem regular (h : Begins config m₀) : m₀.Regular := by
  cases h with
  | operation o h => exact Reachable.regular (Relation.ReflTransGen.tail h (.operation _ _ o))
  | job h _ => exact regular_begin h.linked _

theorem idle (h : Begins config m₀) : m₀.Idle := by
  cases h with
  | job h _ => exact ⟨rfl, exists_of_begin_eq_script⟩
  | @operation r e o h =>
    cases o with
    | run =>
      rw [Operation.start]
      split
      · exact ⟨rfl, fun ha => absurd ha (by simp)⟩
      · refine ⟨rfl, fun ha => ?_⟩
        obtain ⟨⟩ := ha
        exact ⟨e, rfl⟩
    | _ => exact ⟨rfl, fun ha => absurd ha (by simp [Operation.start])⟩

end Begins

/-- **Faults are located once, at the innermost frame.**  The fault that an operation fails with,
or a call of a host function, has come up somewhere and has been carried out from there; its cause
is the same.  If it came up in an instruction, it is a failure of the engine with the place of that
instruction.  If it came up without a place, is no raised value, and there were frames above those
that the work leaves behind, then it has the place of the innermost one: its source, and the line
of the instruction that the frame was executing.  A fault that came up with a place has kept it, and
a raised value has got none. -/
theorem located_of_begins {config : Config} {e : Engine} (h : Begins config m₀)
    (hsteps : m₀.Steps { activity := .ended (.error y) e }) :
    e.depth = m₀.activity.floor ∧
    (∃ pcs x m, Arises m₀ pcs x m ∧ m.Carries { activity := .ended (.error y) e }) ∧
    ∀ pcs x m, Arises m₀ pcs x m → m.Carries { activity := .ended (.error y) e } →
      let f := m.engine.frame
      y.cause = x.cause ∧
      (∀ base p, m.activity = .script base p → ∃ c pc, c.isRaised = false ∧
        pcs f.id = some pc ∧ x = ⟨c, some ⟨f.proto.source, f.proto.lineAt pc⟩⟩) ∧
      (x.place = none → x.cause.isRaised = false → m₀.activity.floor < m.engine.depth →
        ∃ pc, pcs f.id = some pc ∧
          y = ⟨x.cause, some ⟨f.proto.source, f.proto.lineAt pc⟩⟩) ∧
      (x.place.isSome = true ∨ x.cause.isRaised = true ∨
        m.engine.depth ≤ m₀.activity.floor → y = x) := by
  have h₀ := h.regular
  have hidle := h.idle
  have hfloor : e.depth = m₀.activity.floor := by
    refine (h₀.bottom_eq hsteps).trans ?_
    rw [bottom, hidle.waiting_eq]
    rfl
  obtain ⟨pcs₀, htrail⟩ := hsteps.exists_trail
  refine ⟨hfloor, htrail.exists_arises rfl, fun pcs x m harises hcarries => ?_⟩
  obtain ⟨-, y', hy', hcarried⟩ := harises.carried h₀ hidle hcarries
  obtain rfl := Option.some.inj hy'
  dsimp only
  refine ⟨?_, fun base p ha => ?_, fun hplace hcause hlt => ?_, fun hkept => ?_⟩
  · cases hcarried with
    | unmet _ _ _ => rfl
    | located _ hg =>
      obtain ⟨pc, -, rfl⟩ := hg
      exact Fault.cause_locate _ _ _
  · obtain ⟨c, g, hc, ⟨pc, hpc, rfl⟩, rfl⟩ := harises.located_of_script h₀ hidle ha
    exact ⟨c, pc, hc, hpc, Prototype.locate_eq_mk _ pc rfl hc⟩
  · cases hcarried with
    | unmet hdepth _ _ =>
      have hdepth : e.depth = m.engine.depth := hdepth
      omega
    | located _ hg =>
      obtain ⟨pc, hpc, rfl⟩ := hg
      exact ⟨pc, hpc, Prototype.locate_eq_mk _ pc hplace hcause⟩
  · cases hcarried with
    | unmet _ _ _ => rfl
    | located hlt hg =>
      have hlt : e.depth < m.engine.depth := hlt
      obtain ⟨pc, -, rfl⟩ := hg
      obtain hplace | hcause | hle := hkept
      · exact Prototype.locate_eq_self _ pc (.inl hplace)
      · exact Prototype.locate_eq_self _ pc (.inr hcause)
      · omega

/-- The positions of the latest instructions after some steps. -/
def marks : Nat → Machine → Positions → Positions
  | 0, _, pcs => pcs
  | n + 1, m, pcs => marks n (m.step.getD m) (m.mark pcs)

theorem Trail.after (h : Trail m₀ pcs m) (n : Nat) : Trail m₀ (marks n m pcs) (m.after n) := by
  induction n generalizing m pcs with
  | zero => exact h
  | succ n ih =>
    rw [marks, Machine.after]
    cases hstep : m.step with
    | some m' => exact ih (h.step hstep)
    | none =>
      -- work that has ended starts no instruction
      have hmark : m.mark pcs = pcs := by
        refine mark_eq_self (fun base e ha => ?_) pcs
        obtain ⟨a, w⟩ := m
        obtain rfl : a = .script base (.done false e) := ha
        exact absurd hstep (by simp [Machine.step])
      rw [hmark]
      exact ih h

/-- A chunk with a function that calls a host function, in a chunk of its own. -/
def nesting : Prototype :=
  { source := "outer"
    code := #[.abx .closure 0 0, .abc .call 0 1 1, .abc .ret 0 1 0]
    upvalues := #[.register 0]
    lines := #[1, 2, 3]
    protos := #[{
      source := "inner"
      code := #[.abc .getTabUp 0 0 256, .abc .call 0 1 1, .abc .ret 0 1 0]
      constants := #[.string "fail"]
      upvalues := #[.enclosing 0]
      lines := #[7, 8, 9] }] }

/-- A run of the chunk with a host function that fails. -/
def failing : Machine :=
  Operation.run.start <|
    ((Engine.new .bare).register "fail" fun _ => .fail (Complaint.reported "no")).load nesting

theorem begins_failing : Begins .bare failing :=
  .operation .run <| (Relation.ReflTransGen.refl.tail (.operation _ _ (.register "fail" _))).tail
    (.operation _ _ (.load nesting))

/-- The fault comes up in the host function, without a place, and gets that of the instruction with
which the inner function has called it. -/
theorem located_of_begins_nesting :
    let m := failing.after 6
    let y : Fault := ⟨.runtime (.reported "no"), some ⟨"inner", 8⟩⟩
    failing.activity.floor < m.engine.depth ∧ (failing.after 11).result? = some (.error y) ∧
    ∃ pcs pc, Arises failing pcs (Complaint.reported "no") m ∧
      m.Carries { activity := .ended (.error y) (failing.after 11).engine } ∧
      pcs m.engine.frame.id = some pc ∧
      y = ⟨.runtime (.reported "no"),
        some ⟨m.engine.frame.proto.source, m.engine.frame.proto.lineAt pc⟩⟩ := by
  have hdepth : failing.activity.floor < (failing.after 6).engine.depth :=
    Nat.le_of_ble_eq_true rfl
  have hresult : (failing.after 11).result? =
      some (.error ⟨.runtime (.reported "no"), some ⟨"inner", 8⟩⟩) := rfl
  have hnew : ¬ (failing.after 5).Passes (failing.after 6) := by
    intro hpasses
    obtain ⟨x, hx⟩ := hpasses.exists_fault?
    exact Option.some_ne_none x (hx.symm.trans (rfl : (failing.after 5).fault? = none))
  have harises : Arises failing _ (Complaint.reported "no") (failing.after 6) :=
    .step (Trail.start.after 5) rfl rfl hnew
  -- out of the host function, into the inner function, out of it, and through the outer one
  have h₇ : (failing.after 6).Passes (failing.after 7) := .same rfl rfl rfl
  have h₈ : (failing.after 7).Passes (failing.after 8) := .script rfl
  have h₉ : (failing.after 8).Passes (failing.after 9) := .same rfl rfl rfl
  have h₁₀ : (failing.after 9).Passes (failing.after 10) := .same rfl rfl rfl
  have h₁₁ : (failing.after 10).Passes (failing.after 11) := .same rfl rfl rfl
  have hcarries : (failing.after 6).Carries (failing.after 11) :=
    ((((Relation.ReflTransGen.single h₇).tail h₈).tail h₉).tail h₁₀).tail h₁₁
  obtain ⟨-, -, hlocated, -⟩ :=
    (located_of_begins begins_failing (steps_of_result? hresult)).2.2 _ _ _ harises hcarries
  obtain ⟨pc, hpc, hy⟩ := hlocated rfl rfl hdepth
  exact ⟨hdepth, hresult, _, pc, harises, hcarries, hpc, hy⟩

end Machine

end LuaBytecode
