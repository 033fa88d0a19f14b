import LuaBytecode.Proofs.Instruction.Routine
import LuaBytecode.Proofs.Loop.Range
import LuaBytecode.Proofs.Run.Instruction
import LuaBytecode.Proofs.Variable.Invariant

/-!
# Integer loops

An integer loop shows its body the terms `init`, `init + step`, … one after the other, in the
register behind its slots.  The body may be anything that leaves the slots alone.

* `Loop.afterRounds` : the slots behind so many rounds.
* `Engine.step_forPrep`, `Engine.step_forLoop` : the two instructions of a loop.
* `Machine.Rounds` : the beginning of a run of a loop, with what its body was shown.
* `Machine.Rounds.stands` : the rounds show the terms in order.
* `Machine.rounds_of_startsLoop` : **a loop visits exactly the terms that its limit admits**, unless
  these are all integers; with step zero it fails.
-/

namespace LuaBytecode

namespace Loop

variable {limit : Number} {init step : Int64} {n k : Nat}

/-- The values are the first terms of a loop, as integers, and its limit admits each of them. -/
def Visits (limit : Number) (init step : Int64) (vs : List Value) : Prop :=
  ∀ (k : Nat) v, vs[k]? = some v → ∃ m : Int64, v = .int m ∧ m.toInt = term init step k ∧
    Admits limit step m.toInt

theorem toInt_ofInt_term (h : Fits (term init step k)) :
    (Int64.ofInt (term init step k)).toInt = term init step k :=
  Int64.toInt_ofInt_of_le h.1 h.2

theorem visits_of_admits (h : ∀ k < n, Admits limit step (term init step k)) :
    Visits limit init step
      ((List.range n).map fun k => .int (Int64.ofInt (term init step k))) := by
  intro k v hv
  rw [List.getElem?_map] at hv
  obtain ⟨m, hm, rfl⟩ := Option.map_eq_some_iff.1 hv
  obtain ⟨hk, hkm⟩ := List.getElem?_eq_some_iff.1 hm
  rw [List.length_range] at hk
  rw [List.getElem_range] at hkm
  subst hkm
  refine ⟨_, rfl, toInt_ofInt_term (h k hk).1, ?_⟩
  rw [toInt_ofInt_term (h k hk).1]
  exact h k hk

/-- No term is left after `n` rounds; or else all integers are to be visited, and `n` is the
greatest number of rounds that can be counted. -/
def Exhausts (limit : Number) (init step : Int64) (n : Nat) : Prop :=
  (∀ k, Admits limit step (term init step k) → k < n) ∨
    n = 0xffffffffffffffff ∧
      ∀ t, Fits t → Admits limit step t ∧ ∃ k, term init step k = t

/-- Rounds that are counted up to the greatest number of them exhaust the limit. -/
theorem exhausts_of_count (hstep : step ≠ 0)
    (h : ∀ k, k < n ↔ k < 0xffffffffffffffff ∧ Admits limit step (term init step k)) :
    Exhausts limit init step n := by
  by_cases hall : ∃ k, 0xffffffffffffffff ≤ k ∧ Admits limit step (term init step k)
  · obtain ⟨k, hk, hadmits⟩ := hall
    refine .inr ⟨Nat.le_antisymm (Nat.le_of_not_lt fun hlt => ?_)
      (Nat.le_of_not_lt fun hlt => ?_), fun t ht => all_of_admits hstep hk hadmits ht⟩
    · exact absurd ((h _).1 hlt).1 (Nat.lt_irrefl _)
    · exact absurd ((h n).2 ⟨hlt, hadmits.term_of_le (by omega)⟩) (Nat.lt_irrefl n)
  · refine .inl fun k hadmits => (h k).2 ⟨?_, hadmits⟩
    exact Nat.lt_of_not_le fun hk => hall ⟨k, hk, hadmits⟩

/-! ### Slots -/

/-- The slots of a loop of `n` rounds behind `k` of them. -/
def afterRounds (init step : Int64) (n k : Nat) : Loop where
  index := .int (Int64.ofInt (term init step k) - step)
  limit := .int (Int64.ofNat (n - k))
  step := .int step

theorem afterRounds_zero (init step : Int64) (n : Nat) :
    afterRounds init step n 0 = ⟨.int (init - step), .int (Int64.ofNat n), .int step⟩ := by
  have hterm : term init step 0 = init.toInt := by simp [term]
  rw [afterRounds, hterm, Int64.ofInt_toInt, Nat.sub_zero]

theorem ofInt_term_succ (init step : Int64) (k : Nat) :
    Int64.ofInt (term init step (k + 1)) = Int64.ofInt (term init step k) + step := by
  have hterm : term init step (k + 1) = term init step k + step.toInt := by
    rw [term, term, Int.natCast_add, Int.add_mul, Int.natCast_one, Int.one_mul, Int.add_assoc]
  rw [hterm, Int64.ofInt_add, Int64.ofInt_toInt]

theorem ofNat_eq_zero_iff (h : n < 0x10000000000000000) : Int64.ofNat n = 0 ↔ n = 0 := by
  refine ⟨fun hzero => ?_, fun hzero => by rw [hzero]; rfl⟩
  have hword := congrArg (fun m : Int64 => m.toUInt64.toNat) hzero
  rw [← UInt64.toInt64_ofNat'] at hword
  have hmod : (UInt64.ofNat n).toNat = n % 0x10000000000000000 := UInt64.toNat_ofNat'
  change (UInt64.ofNat n).toNat = 0 at hword
  omega

/-- Another round, if there are any left. -/
theorem advance_afterRounds (init step : Int64) (h : n < 0x10000000000000000) (k : Nat) :
    (afterRounds init step n k).advance =
      .ok (if k < n then some (afterRounds init step n (k + 1)) else none) := by
  have hadvance : (afterRounds init step n k).advance =
      if Int64.ofNat (n - k) = 0 then .ok none
      else .ok (some ⟨.int (Int64.ofInt (term init step k) - step + step),
        .int (Int64.ofNat (n - k) - 1), .int step⟩) := rfl
  rw [hadvance]
  by_cases hk : k < n
  · have hleft : Int64.ofNat (n - k) ≠ 0 := by
      rw [ne_eq, ofNat_eq_zero_iff (by omega)]
      omega
    have hindex : Int64.ofInt (term init step k) - step + step =
        Int64.ofInt (term init step (k + 1)) - step := by
      rw [ofInt_term_succ, Int64.sub_add_cancel, Int64.add_sub_cancel]
    have hone : Int64.ofNat (n - k) - 1 = Int64.ofNat (n - (k + 1)) := by
      rw [Nat.sub_add_eq, Int64.ofNat_sub (n - k) 1 (by omega)]
      rfl
    rw [if_neg hleft, if_pos hk, hindex, hone]
    rfl
  · have hleft : n - k = 0 := by omega
    rw [if_neg hk, hleft]
    exact if_pos rfl

/-- The index behind a round is the term of the round. -/
theorem index_afterRounds_succ (init step : Int64) (n k : Nat) :
    (afterRounds init step n (k + 1)).index = .int (Int64.ofInt (term init step k)) := by
  rw [afterRounds, ofInt_term_succ, Int64.add_sub_cancel]

theorem afterRounds_succ_ne (hstep : step ≠ 0) (n k : Nat) :
    afterRounds init step n (k + 1) ≠ afterRounds init step n k := by
  intro heq
  have hindex := congrArg Loop.index heq
  rw [index_afterRounds_succ, afterRounds] at hindex
  have hsub : Int64.ofInt (term init step k) = Int64.ofInt (term init step k) - step := by
    simpa using hindex
  exact hstep (by grind)

end Loop

theorem Frame.get_pc (f : Frame) (pc r : Nat) : ({ f with pc } : Frame).get r = f.get r := rfl

theorem Frame.proto_pc (f : Frame) (pc : Nat) : ({ f with pc } : Frame).proto = f.proto := rfl

/-- The slots of the loop at a register. -/
def Frame.loop (f : Frame) (a : Nat) : Loop :=
  { index := f.get a, limit := f.get (a + 1), step := f.get (a + 2) }

theorem Action.loopSlots_eq (a : Nat) : loopSlots a = read (·.frame.loop a) := rfl

theorem Frame.loop_pc (f : Frame) (pc a : Nat) : ({ f with pc } : Frame).loop a = f.loop a := rfl

/-- The frame with the slots of the loop at a register filled. -/
def Frame.setLoop (f : Frame) (a : Nat) (l : Loop) : Frame :=
  f.setRange a [l.index, l.limit, l.step]

theorem Frame.proto_setLoop (f : Frame) (a : Nat) (l : Loop) : (f.setLoop a l).proto = f.proto :=
  rfl

theorem Frame.loop_setLoop (f : Frame) (a : Nat) (l : Loop) : (f.setLoop a l).loop a = l := by
  have hne : a + 1 + 1 ≠ a := by omega
  simp [loop, setLoop, setRange, get_set, hne]

theorem Frame.loop_set_of_le (f : Frame) {a r : Nat} (v : Value) (h : a + 3 ≤ r) :
    (f.set r v).loop a = f.loop a := by
  have hget (k : Nat) (hk : k < r) : (f.set r v).get k = f.get k := by
    rw [get_set, if_neg (by omega)]
  rw [loop, hget a (by omega), hget (a + 1) (by omega), hget (a + 2) (by omega), loop]

namespace Engine

variable {e : Engine} {i : Instruction} {l : Loop}

/-! ### The instructions of a loop -/

/-- The state behind the preparation of a loop. -/
def prepared (e : Engine) (i : Instruction) (l : Loop) : Engine :=
  e.updateFrame fun f =>
    { f.setLoop i.a l with pc := Action.jumpTarget (e.frame.pc + 1) i.sbx }

/-- The state in which a body starts: it finds the index behind the slots. -/
def entered (e : Engine) (i : Instruction) (l : Loop) : Engine :=
  e.updateFrame fun f =>
    { (f.setLoop i.a l).set (i.a + 3) l.index with
      pc := Action.jumpTarget (e.frame.pc + 1) i.sbx }

theorem loop_fetched (h : 0 < e.depth) (a : Nat) : e.fetched.frame.loop a = e.frame.loop a := by
  rw [frame_fetched h]
  rfl

/-- The fault that an instruction ends with, at its place. -/
def located (e : Engine) (f : Fault) : Fault :=
  f.locate e.frame.proto.source (e.frame.proto.lineAt e.frame.pc)

/-- `FORPREP` fails as the preparation of its slots does. -/
theorem step_forPrep_of_error {c : Complaint} (h : e.instruction? = some (.forPrep, i))
    (hc : (e.frame.loop i.a).prepare = .error c) : e.step = .fault (e.located c) e.fetched := by
  rw [← loop_fetched (depth_pos_of_instruction? h)] at hc
  have heffect : Opcode.forPrep.effect i e.fetched = .fault c e.fetched := by
    unfold Opcode.effect
    dsimp only
    rw [Action.loopSlots_eq, Action.read_bind, hc]
    rfl
  rw [step_of_instruction? h, heffect]
  rfl

/-- `FORPREP` fills its slots and jumps. -/
theorem step_forPrep_of_ok (h : e.instruction? = some (.forPrep, i))
    (hl : (e.frame.loop i.a).prepare = .ok l) : e.step = .done false (e.prepared i l) := by
  rw [← loop_fetched (depth_pos_of_instruction? h)] at hl
  have heffect : Opcode.forPrep.effect i e.fetched =
      .done () ((e.fetched.updateFrame (·.setLoop i.a l)).updateFrame
        fun f => { f with pc := Action.jumpTarget f.pc i.sbx }) := by
    unfold Opcode.effect
    dsimp only
    rw [Action.loopSlots_eq, Action.read_bind, hl]
    rfl
  rw [step_of_instruction? h, heffect, fetched, updateFrame_updateFrame, updateFrame_updateFrame]
  exact congrArg (Progress.done false) (updateFrame_congr rfl)

/-- `FORLOOP` falls through if there is no round left. -/
theorem step_forLoop_of_none (h : e.instruction? = some (.forLoop, i))
    (hl : (e.frame.loop i.a).advance = .ok none) : e.step = .done false e.fetched := by
  rw [← loop_fetched (depth_pos_of_instruction? h)] at hl
  have heffect : Opcode.forLoop.effect i e.fetched = .done () e.fetched := by
    unfold Opcode.effect
    dsimp only
    rw [Action.loopSlots_eq, Action.read_bind, hl]
    rfl
  rw [step_of_instruction? h, heffect]
  rfl

/-- `FORLOOP` enters the body if there is a round left. -/
theorem step_forLoop_of_some (h : e.instruction? = some (.forLoop, i))
    (hl : (e.frame.loop i.a).advance = .ok (some l)) : e.step = .done false (e.entered i l) := by
  rw [← loop_fetched (depth_pos_of_instruction? h)] at hl
  have heffect : Opcode.forLoop.effect i e.fetched =
      .done () (((e.fetched.updateFrame (·.setLoop i.a l)).updateFrame
        (·.set (i.a + 3) l.index)).updateFrame
          fun f => { f with pc := Action.jumpTarget f.pc i.sbx }) := by
    unfold Opcode.effect
    dsimp only
    rw [Action.loopSlots_eq, Action.read_bind, hl]
    rfl
  rw [step_of_instruction? h, heffect, fetched, updateFrame_updateFrame, updateFrame_updateFrame,
    updateFrame_updateFrame]
  exact congrArg (Progress.done false) (updateFrame_congr rfl)

/-! ### What the instructions leave behind -/

theorem loop_prepared (h : 0 < e.depth) (i : Instruction) (l : Loop) :
    (e.prepared i l).frame.loop i.a = l := by
  rw [prepared, frame_updateFrame h, Frame.loop_pc, Frame.loop_setLoop]

theorem loop_entered (h : 0 < e.depth) (i : Instruction) (l : Loop) :
    (e.entered i l).frame.loop i.a = l := by
  rw [entered, frame_updateFrame h]
  rw [Frame.loop_pc, Frame.loop_set_of_le _ _ (Nat.le_refl _), Frame.loop_setLoop]

theorem get_entered (h : 0 < e.depth) (i : Instruction) (l : Loop) :
    (e.entered i l).frame.get (i.a + 3) = l.index := by
  rw [entered, frame_updateFrame h]
  rw [Frame.get_pc, Frame.get_set, if_pos rfl]

theorem pc_entered (h : 0 < e.depth) (i : Instruction) (l : Loop) :
    (e.entered i l).frame.pc = Action.jumpTarget (e.frame.pc + 1) i.sbx := by
  rw [entered, frame_updateFrame h]

/-- The slots of a loop change when it enters its body. -/
theorem entered_ne_fetched (h : 0 < e.depth) (hl : l ≠ e.frame.loop i.a) :
    e.entered i l ≠ e.fetched := by
  intro heq
  refine hl ?_
  rw [← loop_fetched h, ← heq, loop_entered h]

/-! ### Runs -/

/-- A loop starts: the running frame stands at a `FORPREP` that leads to a `FORLOOP` with the same
slots. -/
structure StartsLoop (e : Engine) (i j : Instruction) : Prop where
  forPrep : e.instruction? = some (.forPrep, i)
  target : e.frame.proto.code[Action.jumpTarget (e.frame.pc + 1) i.sbx]? = some j
  forLoop : j.opcode? = some .forLoop
  slots : j.a = i.a

theorem StartsLoop.instruction?_prepared {j : Instruction} (h : e.StartsLoop i j) (l : Loop) :
    (e.prepared i l).instruction? = some (.forLoop, j) := by
  have hframe : (e.prepared i l).frame =
      { e.frame.setLoop i.a l with pc := Action.jumpTarget (e.frame.pc + 1) i.sbx } :=
    frame_updateFrame (depth_pos_of_instruction? h.forPrep) _
  have hproto : (e.prepared i l).frame.proto = e.frame.proto := by
    rw [hframe, Frame.proto_pc, Frame.proto_setLoop]
  have hpc : (e.prepared i l).frame.pc = Action.jumpTarget (e.frame.pc + 1) i.sbx := by
    rw [hframe]
  exact instruction?_eq_some (by rw [hproto, hpc, h.target]) h.forLoop

/-- The instruction does nothing but hand on to the next one. -/
def FallsThrough (e : Engine) : Prop := e.step = .done false e.fetched

/-- A loop enters its body. -/
def EntersBody (e e' : Engine) : Prop := e.step = .done false e' ∧ e' ≠ e.fetched

theorem entersBody_of_pc {e' : Engine} (h : e.step = .done false e')
    (hpc : e'.frame.pc ≠ e.fetched.frame.pc) : e.EntersBody e' :=
  ⟨h, fun heq => hpc (by rw [heq])⟩

end Engine

namespace Machine

variable {base n : Nat} {w : List Waiting} {i j : Instruction} {e e₀ e₁ e₂ : Engine}
  {vs : List Value} {limit : Number} {init step : Int64}

/-- A body that starts in `e₁` comes back to its loop in `e₂`, and has left the slots alone. -/
structure Returns (base : Nat) (w : List Waiting) (j : Instruction) (e₁ e₂ : Engine) : Prop where
  steps : Steps ⟨.script base (.done false e₁), w⟩ ⟨.script base (.done false e₂), w⟩
  forLoop : e₂.instruction? = some (.forLoop, j)
  slots : e₂.frame.loop j.a = e₁.frame.loop j.a

/-- The loop at `j` has come from `e₀` to its end or its next round, with what its body was shown in
the rounds before. -/
inductive Rounds (base : Nat) (w : List Waiting) (j : Instruction) (e₀ : Engine) :
    List Value → Engine → Prop where
  | start : Rounds base w j e₀ [] e₀
  | round {vs : List Value} {e e₁ e₂ : Engine} (h : Rounds base w j e₀ vs e)
      (henters : e.EntersBody e₁) (hreturns : Returns base w j e₁ e₂) :
      Rounds base w j e₀ (vs ++ [e₁.frame.get (j.a + 3)]) e₂

/-- The loop stands before its round `k`. -/
structure Stands (j : Instruction) (init step : Int64) (n k : Nat) (e : Engine) : Prop where
  forLoop : e.instruction? = some (.forLoop, j)
  slots : e.frame.loop j.a = Loop.afterRounds init step n k

theorem Stands.fallsThrough {k : Nat} (h : Stands j init step n k e) (hn : n < 0x10000000000000000)
    (hk : n ≤ k) : e.FallsThrough := by
  refine Engine.step_forLoop_of_none h.forLoop ?_
  rw [h.slots, Loop.advance_afterRounds init step hn, if_neg (by omega)]

/-- The loop enters its body with the next term. -/
theorem Stands.entersBody {k : Nat} (h : Stands j init step n k e) (hstep : step ≠ 0)
    (hn : n < 0x10000000000000000) (hk : k < n) :
    e.EntersBody (e.entered j (Loop.afterRounds init step n (k + 1))) := by
  have hpos := Engine.depth_pos_of_instruction? h.forLoop
  refine ⟨Engine.step_forLoop_of_some h.forLoop ?_, Engine.entered_ne_fetched hpos ?_⟩
  · rw [h.slots, Loop.advance_afterRounds init step hn, if_pos hk]
  · rw [h.slots]
    exact Loop.afterRounds_succ_ne hstep n k

/-- A body that comes back finds the loop before its next round. -/
theorem Stands.succ {k : Nat} (h : Stands j init step n k e) (hstep : step ≠ 0)
    (hn : n < 0x10000000000000000) (henters : e.EntersBody e₁) (hreturns : Returns base w j e₁ e₂) :
    k < n ∧ e₁.frame.get (j.a + 3) = .int (Int64.ofInt (Loop.term init step k)) ∧
      Stands j init step n (k + 1) e₂ := by
  by_cases hk : k < n
  · have hpos := Engine.depth_pos_of_instruction? h.forLoop
    have heq := henters.1.symm.trans (h.entersBody hstep hn hk).1
    obtain rfl : e₁ = e.entered j (Loop.afterRounds init step n (k + 1)) := by
      simpa using heq
    refine ⟨hk, ?_, hreturns.forLoop, ?_⟩
    · rw [Engine.get_entered hpos, Loop.index_afterRounds_succ]
    · rw [hreturns.slots, Engine.loop_entered hpos]
  · have heq := henters.1.symm.trans (h.fallsThrough hn (Nat.le_of_not_lt hk))
    exact absurd (by simpa using heq) henters.2

/-- **The rounds of a loop show the terms in order.** -/
theorem Rounds.stands (h : Rounds base w j e₀ vs e) (h₀ : Stands j init step n 0 e₀)
    (hstep : step ≠ 0) (hn : n < 0x10000000000000000) :
    Stands j init step n vs.length e ∧ vs.length ≤ n ∧
      vs = (List.range vs.length).map fun k => .int (Int64.ofInt (Loop.term init step k)) := by
  induction h with
  | start => exact ⟨h₀, Nat.zero_le n, rfl⟩
  | round _ henters hreturns ih =>
    obtain ⟨hstands, -, hshown⟩ := ih
    obtain ⟨hlt, hget, hsucc⟩ := hstands.succ hstep hn henters hreturns
    rw [List.length_append, List.length_singleton]
    refine ⟨hsucc, hlt, ?_⟩
    rw [List.range_succ, List.map_append, ← hshown, hget]
    rfl

/-- The loop ends if its bodies come back. -/
theorem Stands.exists_rounds (h₀ : Stands j init step n 0 e₀) (hstep : step ≠ 0)
    (hn : n < 0x10000000000000000)
    (hreturns : ∀ vs e e₁, Rounds base w j e₀ vs e → e.EntersBody e₁ → ∃ e₂, Returns base w j e₁ e₂)
    {k : Nat} (hk : k ≤ n) : ∃ vs e, Rounds base w j e₀ vs e ∧ vs.length = k := by
  induction k with
  | zero => exact ⟨[], e₀, .start, rfl⟩
  | succ k ih =>
    obtain ⟨vs, e, hrounds, rfl⟩ := ih (by omega)
    have henters := (hrounds.stands h₀ hstep hn).1.entersBody hstep hn (by omega)
    obtain ⟨e₂, he₂⟩ := hreturns vs e _ hrounds henters
    exact ⟨_, e₂, hrounds.round henters he₂, List.length_append⟩

/-- **Integer loops visit the range of their limit.**  A loop with the integers `init` and `step` and
the number `limit` in its slots, whose step is not zero, is started.  Before each round its body has
been shown the first terms, each of which the limit admits by its exact value.  Then either the body
is entered with the next term, and that is admitted, too, or control falls through; in this case no
term is left, except in the loop through all integers, which has a round less.  A loop whose bodies
come back falls through in the end.  With step zero the loop fails and no body is entered. -/
theorem rounds_of_startsLoop (hloop : e.StartsLoop i j)
    (hslots : e.frame.loop i.a = ⟨.int init, .number limit, .int step⟩) :
    (step = 0 → e.step = .fault (e.located Complaint.loopStepZero) e.fetched) ∧
    (step ≠ 0 → ∃ e₀, e.step = .done false e₀ ∧
      (∀ vs e₁, Rounds base w j e₀ vs e₁ → Loop.Visits limit init step vs ∧
        ((e₁.FallsThrough ∧ Loop.Exhausts limit init step vs.length) ∨
          ∃ m e₂, e₁.EntersBody e₂ ∧
            e₂.frame.pc = Action.jumpTarget (e₁.frame.pc + 1) j.sbx ∧
            e₂.frame.get (j.a + 3) = .int m ∧ Loop.Visits limit init step (vs ++ [.int m]))) ∧
      ((∀ vs e₁ e₂, Rounds base w j e₀ vs e₁ → e₁.EntersBody e₂ →
          ∃ e₃, Returns base w j e₂ e₃) →
        ∃ vs e₁, Rounds base w j e₀ vs e₁ ∧ e₁.FallsThrough)) := by
  refine ⟨fun hzero => Engine.step_forPrep_of_error hloop.forPrep ?_, fun hstep => ?_⟩
  · rw [hslots, hzero]
    rfl
  obtain ⟨count, hprepare, hcount⟩ := Loop.prepare_spec init limit hstep
  have hlt := count.toNat_lt
  have hle : count.toNat ≤ 0xffffffffffffffff := by omega
  rw [← hslots] at hprepare
  have hpos := Engine.depth_pos_of_instruction? hloop.forPrep
  -- the loop stands before its first round
  have h₀ : Stands j init step count.toNat 0 (e.prepared i _) :=
    ⟨hloop.instruction?_prepared _, by
      rw [hloop.slots, Engine.loop_prepared hpos, Loop.afterRounds_zero, ← UInt64.toInt64_ofNat',
        UInt64.ofNat_toNat]⟩
  refine ⟨_, Engine.step_forPrep_of_ok hloop.forPrep hprepare, fun vs e₁ hrounds => ?_,
    fun hreturns => ?_⟩
  · obtain ⟨hstands, hlen, hshown⟩ := hrounds.stands h₀ hstep hlt
    have hvisits {k : Nat} (hk : k ≤ count.toNat) : Loop.Visits limit init step
        ((List.range k).map fun k => .int (Int64.ofInt (Loop.term init step k))) :=
      Loop.visits_of_admits fun m hm => ((hcount m).1 (by omega)).2
    refine ⟨hshown ▸ hvisits hlen, ?_⟩
    by_cases hk : vs.length < count.toNat
    · have hpos₁ := Engine.depth_pos_of_instruction? hstands.forLoop
      have hnext := hvisits (k := vs.length + 1) hk
      rw [List.range_succ, List.map_append, ← hshown] at hnext
      refine .inr ⟨Int64.ofInt (Loop.term init step vs.length), _,
        hstands.entersBody hstep hlt hk, Engine.pc_entered hpos₁ j _, ?_, hnext⟩
      rw [Engine.get_entered hpos₁, Loop.index_afterRounds_succ]
    · have hcount' : vs.length = count.toNat := by omega
      refine .inl ⟨hstands.fallsThrough hlt (by omega), ?_⟩
      rw [hcount']
      exact Loop.exhausts_of_count hstep hcount
  · obtain ⟨vs, e₁, hrounds, hlen⟩ := h₀.exists_rounds hstep hlt hreturns (Nat.le_refl _)
    have hstands := (hrounds.stands h₀ hstep hlt).1
    exact ⟨vs, e₁, hrounds, hstands.fallsThrough hlt hlen.ge⟩

/-- A loop that starts at the last integer, and whose limit is infinite. -/
def fromLast : Prototype :=
  { code := #[.abx .loadK 0 0, .abx .loadK 1 1, .abx .loadK 2 2, .asbx .forPrep 0 1,
      .abc .move 4 3 0, .asbx .forLoop 0 (-2), .abc .ret 4 2 0]
    constants := #[.number (.int 9223372036854775807), .number (.float ⟨0x7ff0000000000000⟩),
      .number (.int 1)] }

/-- Its body is shown the last integer, and then control falls through. -/
theorem rounds_of_startsLoop_fromLast :
    let e := ((running fromLast).after 3).engine
    let e₁ := ((running fromLast).after 6).engine
    e.StartsLoop (.asbx .forPrep 0 1) (.asbx .forLoop 0 (-2)) ∧ ∃ e₀, e.step = .done false e₀ ∧
      Rounds 0 [] (.asbx .forLoop 0 (-2)) e₀ [.int 9223372036854775807] e₁ ∧ e₁.FallsThrough := by
  have hloop : ((running fromLast).after 3).engine.StartsLoop (.asbx .forPrep 0 1)
      (.asbx .forLoop 0 (-2)) := ⟨rfl, rfl, rfl, rfl⟩
  have hstep : ((running fromLast).after 3).engine.step =
      .done false ((running fromLast).after 4).engine := rfl
  have henters : ((running fromLast).after 4).engine.EntersBody
      ((running fromLast).after 5).engine :=
    Engine.entersBody_of_pc rfl (by decide)
  have hbody : ((running fromLast).after 5).engine.step =
      .done false ((running fromLast).after 6).engine := rfl
  have hslots₅ : ((running fromLast).after 5).engine.frame.loop 0 =
      ⟨.int 9223372036854775807, .int 0, .int 1⟩ := rfl
  have hslots₆ : ((running fromLast).after 6).engine.frame.loop 0 =
      ⟨.int 9223372036854775807, .int 0, .int 1⟩ := rfl
  have hreturns : Returns 0 [] (.asbx .forLoop 0 (-2)) ((running fromLast).after 5).engine
      ((running fromLast).after 6).engine :=
    ⟨.single (congrArg (fun p => some (Machine.mk (.script 0 p) [])) hbody), rfl,
      hslots₆.trans hslots₅.symm⟩
  have hrounds : Rounds 0 [] (.asbx .forLoop 0 (-2)) ((running fromLast).after 4).engine
      [.int 9223372036854775807] ((running fromLast).after 6).engine :=
    Rounds.start.round henters hreturns
  have hslots₃ : ((running fromLast).after 3).engine.frame.loop 0 =
      ⟨.int 9223372036854775807, .number (.float ⟨0x7ff0000000000000⟩), .int 1⟩ := rfl
  obtain ⟨e₀, he₀, hall, -⟩ := (rounds_of_startsLoop hloop hslots₃).2 (by decide)
  rw [hstep] at he₀
  rw [← (Progress.done.inj he₀).2] at hall
  refine ⟨hloop, ((running fromLast).after 4).engine, hstep, hrounds, ?_⟩
  obtain ⟨-, ⟨hfalls, -⟩ | ⟨m, e₂, -, -, -, hvisits⟩⟩ := hall _ _ hrounds
  · exact hfalls
  · -- the second term is not an integer of 64 bits
    obtain ⟨m', -, hterm, ⟨-, hfits⟩, -⟩ := hvisits 1 (.int m) rfl
    rw [hterm] at hfits
    exact absurd hfits (by decide)

end Machine

end LuaBytecode
