import LuaBytecode.Frame

/-!
# Registers in a row

What a frame holds after consecutive registers were written, and what is read from consecutive
registers.  Operands that count registers are one more than the count; zero stands for all registers
up to the top.

* `Frame.get_setRange` : a register after a write of several.
* `Frame.getElem?_slice` : a register among those that are read.
* `Frame.get_start` : where a function finds its arguments.
* `Frame.list`, `Frame.counted` : the values that an operand names, and those it asks for.
* `Frame.list_stored` : **values that were stored are read back**, no more and no fewer.
-/

namespace LuaBytecode.Frame

variable {f : Frame} {base r n k : Nat} {vs : List Value}

/-! ### Lists of a given length -/

theorem getElem?_padded (n : Nat) (vs : List Value) (k : Nat) :
    (padded n vs)[k]? = if k < n then some (vs.getD k .nil) else none := by
  rw [padded, List.getElem?_append, List.length_take, List.getElem?_take, List.getElem?_replicate,
    List.getD_eq_getElem?_getD]
  by_cases hk : k < n
  · by_cases hvs : k < vs.length
    · rw [if_pos (by omega), if_pos hk, if_pos hk, List.getElem?_eq_getElem hvs]
      rfl
    · rw [if_neg (by omega), if_pos (by omega), if_pos hk, List.getElem?_eq_none (by omega)]
      rfl
  · rw [if_neg (by omega), if_neg (by omega), if_neg hk]

/-! ### Writing -/

/-- Consecutive registers hold what was written to them, the others what they held. -/
theorem get_setRange (f : Frame) (base : Nat) (vs : List Value) (r : Nat) :
    (f.setRange base vs).get r =
      if base ≤ r ∧ r < base + vs.length then vs.getD (r - base) .nil else f.get r := by
  induction vs generalizing f base with
  | nil =>
    rw [setRange, if_neg]
    rw [List.length_nil]
    omega
  | cons v vs ih =>
    rw [setRange, ih, get_set, List.length_cons]
    by_cases hr : base = r
    · subst hr
      rw [if_neg (by omega), if_pos rfl, if_pos (by omega), Nat.sub_self, List.getD_cons_zero]
    · by_cases hin : base + 1 ≤ r ∧ r < base + 1 + vs.length
      · have hsucc : r - base = r - (base + 1) + 1 := by omega
        rw [if_pos hin, if_pos (by omega), hsucc, List.getD_cons_succ]
      · rw [if_neg hin, if_neg hr, if_neg (by omega)]

/-- A write changes nothing but registers. -/
theorem setRange_eq (f : Frame) (base : Nat) (vs : List Value) :
    f.setRange base vs = { f with registers := (f.setRange base vs).registers } := by
  induction vs generalizing f base with
  | nil => rfl
  | cons v vs ih => exact ih (f.set base v) (base + 1)

/-! ### Reading -/

theorem length_slice (f : Frame) (first last : Nat) :
    (f.slice first last).length = last - first := by
  rw [slice, List.length_map, List.length_range']

theorem getElem?_slice (f : Frame) (first last k : Nat) :
    (f.slice first last)[k]? = if k < last - first then some (f.get (first + k)) else none := by
  by_cases hk : k < last - first
  · rw [slice, List.getElem?_map, List.getElem?_range' hk, Option.map_some, Nat.one_mul, if_pos hk]
  · rw [List.getElem?_eq_none (by rw [length_slice]; omega), if_neg hk]

/-- Registers that are read one by one. -/
theorem slice_congr {f g : Frame} {first last : Nat}
    (h : ∀ r, first ≤ r → r < last → g.get r = f.get r) : g.slice first last = f.slice first last := by
  refine List.ext_getElem? fun k => ?_
  rw [getElem?_slice, getElem?_slice]
  split
  · rw [h _ (by omega) (by omega)]
  · rfl

/-- What was written is read. -/
theorem slice_setRange (f : Frame) (base : Nat) (vs : List Value) :
    (f.setRange base vs).slice base (base + vs.length) = vs := by
  refine List.ext_getElem? fun k => ?_
  rw [getElem?_slice, get_setRange, Nat.add_sub_cancel_left, Nat.add_sub_cancel_left]
  by_cases hk : k < vs.length
  · rw [if_pos hk, if_pos (by omega), List.getD_eq_getElem?_getD, List.getElem?_eq_getElem hk]
    rfl
  · rw [if_neg hk, List.getElem?_eq_none (by omega)]

/-! ### Arguments -/

/-- **A function finds its arguments in its first registers**, one for each parameter; all other
registers are nil. -/
theorem get_start (id : FrameId) (c : Closure) (args : List Value) (minRegisters r : Nat) :
    (start id c args minRegisters).get r =
      if r < c.proto.params.toNat then args.getD r .nil else .nil := by
  rw [get, start, Array.getD_eq_getD_getElem?, List.getElem?_toArray, getElem?_padded]
  simp only [List.getD_eq_getElem?_getD, List.getElem?_take]
  by_cases hr : r < c.proto.params.toNat
  · rw [if_pos (by omega), if_pos hr, if_pos hr, Option.getD_some]
  · rw [if_neg hr, if_neg hr]
    split <;> rfl

/-! ### Lists -/

/-- The values that an operand names from a register on: one less than it says, or all up to the
top. -/
def list (f : Frame) (base count : Nat) : List Value :=
  f.slice base (if count = 0 then f.top else base + count - 1)

/-- The values of a list that an operand asks for: one less than it says, filled with nil, or all of
them. -/
def counted (count : Nat) (vs : List Value) : List Value :=
  if count = 0 then vs else padded (count - 1) vs

theorem length_counted_of_ne (h : n ≠ 0) (vs : List Value) : (counted n vs).length = n - 1 := by
  rw [counted, if_neg h, length_padded]

/-- The frame after values were stored with the top behind them. -/
def stored (f : Frame) (base count : Nat) (vs : List Value) : Frame :=
  { f.setRange base (counted count vs) with top := base + (counted count vs).length }

theorem proto_stored (f : Frame) (base count : Nat) (vs : List Value) :
    (f.stored base count vs).proto = f.proto := by
  rw [stored, setRange_eq]
  rfl

theorem pc_stored (f : Frame) (base count : Nat) (vs : List Value) :
    (f.stored base count vs).pc = f.pc := by
  rw [stored, setRange_eq]

/-- Registers that were written are read by the operand that they were counted by. -/
theorem list_setRange (f : Frame) (base : Nat) (h : n ≠ 0) (vs : List Value) :
    (f.setRange base (counted n vs)).list base n = counted n vs := by
  have hlast : base + n - 1 = base + (counted n vs).length := by
    rw [length_counted_of_ne h]
    omega
  rw [list, if_neg h, hlast, slice_setRange]

/-- **Values that were stored are read back**, by the operand that they were counted by and by one
that asks for all of them. -/
theorem list_stored (f : Frame) (base : Nat) {count : Nat} (h : n = 0 ∨ n = count)
    (vs : List Value) : (f.stored base count vs).list base n = counted count vs := by
  by_cases hn : n = 0
  · subst hn
    exact f.slice_setRange base _
  · obtain rfl := h.resolve_left hn
    rw [← f.list_setRange base hn vs, list, list, if_neg hn, if_neg hn]
    rfl

end LuaBytecode.Frame
