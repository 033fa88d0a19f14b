import LuaBytecode.Prototype.Builder

/-!
# Building a prototype step by step

The operations of a builder come in any order.  The lines of a prototype are a list beside its
code.  It lags behind where instructions are emitted without a line, and catches up with the next
instruction that has one; the instructions in between then get that line, too.

* `Builder.Step`, `Builder.after` : the operations of a builder, and what a sequence of them makes.
* `Builder.emittedLines` : the lines under which a sequence of steps emits instructions.
* `Builder.getElem?_lines_after` : what later steps make of the lines of earlier instructions.
* `Builder.lineAt_emit` : the line of an instruction, from the step that emits it on.
* `Builder.lineAt_changes` : a later step may change it.
-/

namespace LuaBytecode.Builder

/-- An operation of a builder. -/
inductive Step where
  | setParams (n : UInt8)
  | setVararg
  | setMaxStack (n : UInt8)
  | setLines (defined last : UInt32)
  | setLine (line : UInt32)
  | emit (i : Instruction)
  | patch (pc : Nat) (i : Instruction)
  | constant (c : Constant)
  | upvalue (u : UpvalueSource)
  | nested (p : Prototype)

/-- Take a step. -/
def apply (b : Builder) : Step → Builder
  | .setParams n => b.setParams n
  | .setVararg => b.setVararg
  | .setMaxStack n => b.setMaxStack n
  | .setLines defined last => b.setLines defined last
  | .setLine line => b.setLine line
  | .emit i => (b.emit i).2
  | .patch pc i => b.patch pc i
  | .constant c => (b.constant c).2
  | .upvalue u => (b.upvalue u).2
  | .nested p => (b.nested p).2

/-- Take steps in turn. -/
def after (b : Builder) : List Step → Builder
  | [] => b
  | s :: steps => (b.apply s).after steps

/-! ### Lines by the steps -/

/-- The line that is set after a step; zero for none. -/
def Step.lineAfter (line : UInt32) : Step → UInt32
  | .setLine line => line
  | _ => line

/-- The line under which a step emits an instruction. -/
def Step.emittedLines (line : UInt32) : Step → List UInt32
  | .emit _ => [line]
  | _ => []

/-- The line that is set after some steps. -/
def lineAfter : UInt32 → List Step → UInt32
  | line, [] => line
  | line, s :: steps => lineAfter (s.lineAfter line) steps

/-- The lines under which some steps emit instructions, zero for an instruction without a line. -/
def emittedLines : UInt32 → List Step → List UInt32
  | _, [] => []
  | line, s :: steps => s.emittedLines line ++ emittedLines (s.lineAfter line) steps

/-- The first of some lines that is set. -/
def firstSet? (lines : List UInt32) : Option UInt32 := lines.find? (· ≠ 0)

variable {b : Builder} {pc : Nat}

theorem firstSet?_append (lines later : List UInt32) :
    firstSet? (lines ++ later) = (firstSet? lines).or (firstSet? later) :=
  List.find?_append

theorem firstSet?_singleton (line : UInt32) :
    firstSet? [line] = if line = 0 then none else some line := by
  rw [firstSet?, List.find?_singleton]
  simp only [ne_eq, decide_not, Bool.not_eq_eq_eq_not, Bool.not_true, decide_eq_false_iff_not,
    ite_not]

/-! ### One step -/

/-- There are no more lines than instructions. -/
def Aligned (b : Builder) : Prop := b.proto.lines.size ≤ b.pc

theorem aligned_new (source : String) : (new source).Aligned := Nat.le_refl 0

@[simp]
theorem line_constant (b : Builder) (c : Constant) : (b.constant c).2.line = b.line := by
  unfold constant
  split <;> rfl

@[simp]
theorem lines_constant (b : Builder) (c : Constant) :
    (b.constant c).2.proto.lines = b.proto.lines := by
  unfold constant
  split <;> rfl

@[simp]
theorem pc_constant (b : Builder) (c : Constant) : (b.constant c).2.pc = b.pc := by
  unfold constant
  split <;> rfl

@[simp]
theorem pc_patch (b : Builder) (pc : Nat) (i : Instruction) : (b.patch pc i).pc = b.pc :=
  Array.size_setIfInBounds

@[simp]
theorem pc_emit (b : Builder) (i : Instruction) : (b.emit i).2.pc = b.pc + 1 :=
  Array.size_push i

theorem line_apply (b : Builder) (s : Step) : (b.apply s).line = s.lineAfter b.line := by
  cases s with
  | constant c => exact b.line_constant c
  | _ => rfl

/-- Only an emission touches the lines. -/
theorem lines_apply (b : Builder) {s : Step} (h : ∀ i, s ≠ .emit i) :
    (b.apply s).proto.lines = b.proto.lines ∧ (b.apply s).pc = b.pc := by
  cases s with
  | emit i => exact absurd rfl (h i)
  | constant c => exact ⟨b.lines_constant c, b.pc_constant c⟩
  | patch pc i => exact ⟨rfl, b.pc_patch pc i⟩
  | _ => exact ⟨rfl, rfl⟩

theorem lines_emit (h : b.Aligned) (i : Instruction) :
    (b.emit i).2.proto.lines =
      if b.line = 0 then b.proto.lines
      else b.proto.lines ++ Array.replicate (b.pc - b.proto.lines.size + 1) b.line := by
  rw [emit]
  dsimp only
  split
  · rfl
  · rw [linesUpTo, Array.take_eq_extract, Array.extract_eq_self_of_le h, Array.replicate_succ,
      Array.append_push]

theorem Aligned.apply (h : b.Aligned) (s : Step) : (b.apply s).Aligned := by
  rw [Aligned] at h ⊢
  by_cases hs : ∃ i, s = .emit i
  · obtain ⟨i, rfl⟩ := hs
    rw [Builder.apply, pc_emit, lines_emit h]
    split
    · omega
    · rw [Array.size_append, Array.size_replicate]
      omega
  · obtain ⟨hlines, hpc⟩ := b.lines_apply fun i hi => hs ⟨i, hi⟩
    rwa [hlines, hpc]

/-- An emitted instruction gets the line that is set, and so do those before it that have none. -/
theorem getElem?_lines_emit (h : b.Aligned) (i : Instruction) (hpc : pc ≤ b.pc) :
    (b.emit i).2.proto.lines[pc]? = (b.proto.lines[pc]?).or (firstSet? [b.line]) := by
  rw [lines_emit h, firstSet?_singleton]
  split
  · rw [Option.or_none]
  · rw [Array.getElem?_append, Array.getElem?_replicate]
    split
    case isTrue hlt => rw [Array.getElem?_eq_getElem hlt, Option.some_or]
    case isFalse hge => rw [Array.getElem?_eq_none (by omega), Option.none_or, if_pos (by omega)]

/-- What a step makes of the line of an instruction that is there. -/
theorem getElem?_lines_apply (h : b.Aligned) (hpc : pc < b.pc) (s : Step) :
    (b.apply s).proto.lines[pc]? =
      (b.proto.lines[pc]?).or (firstSet? (s.emittedLines b.line)) := by
  by_cases hs : ∃ i, s = .emit i
  · obtain ⟨i, rfl⟩ := hs
    exact getElem?_lines_emit h i (Nat.le_of_lt hpc)
  · have hnone : firstSet? (s.emittedLines b.line) = none := by
      cases s with
      | emit i => exact absurd ⟨i, rfl⟩ hs
      | _ => rfl
    rw [(b.lines_apply fun i hi => hs ⟨i, hi⟩).1, hnone, Option.or_none]

theorem pc_le_apply (b : Builder) (s : Step) : b.pc ≤ (b.apply s).pc := by
  by_cases hs : ∃ i, s = .emit i
  · obtain ⟨i, rfl⟩ := hs
    exact Nat.le_of_lt (Nat.lt_of_lt_of_eq b.pc.lt_succ_self (b.pc_emit i).symm)
  · exact Nat.le_of_eq (b.lines_apply fun i hi => hs ⟨i, hi⟩).2.symm

/-! ### Runs -/

theorem line_after (b : Builder) (steps : List Step) :
    (b.after steps).line = Builder.lineAfter b.line steps := by
  induction steps generalizing b with
  | nil => rfl
  | cons s steps ih => rw [after, ih, line_apply, lineAfter]

theorem Aligned.after (h : b.Aligned) (steps : List Step) : (b.after steps).Aligned := by
  induction steps generalizing b with
  | nil => exact h
  | cons s steps ih => exact ih (h.apply s)

/-- **Lines never change once they are there**, and an instruction without a line gets that of the
first later instruction that has one. -/
theorem getElem?_lines_after (h : b.Aligned) (hpc : pc < b.pc) (steps : List Step) :
    (b.after steps).proto.lines[pc]? =
      (b.proto.lines[pc]?).or (firstSet? (emittedLines b.line steps)) := by
  induction steps generalizing b with
  | nil => exact Option.or_none.symm
  | cons s steps ih =>
    rw [Builder.after, ih (h.apply s) (Nat.lt_of_lt_of_le hpc (b.pc_le_apply s)),
      getElem?_lines_apply h hpc, line_apply, emittedLines, firstSet?_append, Option.or_assoc]

theorem lineAt_eq (p : Prototype) (pc : Nat) :
    p.lineAt pc = (p.lines[pc]?).getD (UInt32.ofNat pc + 1) :=
  Array.getD_eq_getD_getElem? ..

/-- **The line of an instruction** that is emitted after some steps and before others.  It is the
line that is set when the instruction is emitted.  If none is set, it is the line of the first later
instruction that has one; so a later step changes it only then, and until then instructions count as
lines. -/
theorem lineAt_emit (source : String) (steps later : List Step) (i : Instruction) :
    let b := (new source).after steps
    let p := ((b.emit i).2.after later).proto
    (b.emit i).1 = b.pc ∧ b.line = lineAfter 0 steps ∧
    (b.line ≠ 0 → p.lineAt b.pc = b.line) ∧
    (b.line = 0 → p.lineAt b.pc =
      (firstSet? (emittedLines 0 later)).getD (UInt32.ofNat b.pc + 1)) ∧
    (p.lineAt b.pc = (b.emit i).2.proto.lineAt b.pc ↔
      (b.line = 0 → ∀ line ∈ firstSet? (emittedLines 0 later), line = UInt32.ofNat b.pc + 1)) := by
  intro b p
  have haligned : b.Aligned := (aligned_new source).after steps
  have hnone : b.proto.lines[b.pc]? = none := Array.getElem?_eq_none haligned
  have hemit : (b.emit i).2.proto.lines[b.pc]? = firstSet? [b.line] := by
    rw [getElem?_lines_emit haligned i (Nat.le_refl _), hnone, Option.none_or]
  have hafter : p.lines[b.pc]? =
      (firstSet? [b.line]).or (firstSet? (emittedLines b.line later)) := by
    have hpc : b.pc < (b.apply (.emit i)).pc := by
      rw [Builder.apply, pc_emit]
      omega
    rw [← hemit]
    exact getElem?_lines_after (haligned.apply (.emit i)) hpc later
  rw [lineAt_eq, lineAt_eq, hemit, hafter, firstSet?_singleton]
  refine ⟨rfl, line_after _ steps, ?_, ?_, ?_⟩
  · intro hline
    rw [if_neg hline]
    rfl
  · intro hline
    rw [if_pos hline, hline, Option.none_or]
  · by_cases hline : b.line = 0
    · rw [if_pos hline, hline, Option.none_or]
      cases firstSet? (emittedLines 0 later) <;> simp
    · rw [if_neg hline]
      simp [hline]

/-- **A later step may change the line of an instruction**: the first of two instructions is emitted
without a line, and then gets the line of the second one. -/
theorem lineAt_changes :
    let first : Step := .emit (.abc .ret 0 1 0)
    let b := (new "t").after [first]
    b.pc = 1 ∧ b.proto.lineAt 0 = 1 ∧ (b.after [.setLine 7, first]).proto.lineAt 0 = 7 := by
  decide

end LuaBytecode.Builder
