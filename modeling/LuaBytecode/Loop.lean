import LuaBytecode.Fault

/-!
# Numeric loops

A numeric loop keeps its index, its limit and its step in three slots.  If initial value and step
are integers, the index runs through integers, and the limit slot holds how many rounds are left,
as an unsigned number; so the index never has to pass the limit, and never wraps around.
Otherwise all three are floats.

* `Loop.prepare` fills the slots from the values in the code;
* `Loop.advance` makes the next round, if there is one.
-/

namespace LuaBytecode

/-- The slots of a numeric loop. -/
structure Loop where
  index : Value
  limit : Value
  step : Value

namespace Loop

/-- The last integer that a limit lets the index reach, if it lets it reach any: a float is
rounded toward where the loop comes from, and kept within the 64-bit integers. -/
def intLimit (limit : Value) (step : Int64) : Except Complaint (Option Int64) :=
  match limit with
  | .number (.int n) => .ok (some n)
  | _ =>
    match limit.toDouble? with
    | none => .error (.loopNotNumber .limit)
    | some x =>
      if x.isNaN then .ok none
      else if 0 < step then
        let x := x.floor
        .ok (if x.lt Double.beyondInt.neg then none else some x.saturate)
      else
        let x := x.ceil
        .ok (if Double.beyondInt.le x then none else some x.saturate)

/-- One more, except for the greatest number. -/
def saturatingSucc (n : UInt64) : UInt64 := if n + 1 = 0 then n else n + 1

/-- The number of integers from `init` to `limit` in steps of `step`; the greatest number stands
for `2 ^ 64`, too. -/
def rounds (init limit step : Int64) : UInt64 :=
  if 0 < step then
    if limit < init then 0
    else saturatingSucc ((limit.toUInt64 - init.toUInt64) / step.toUInt64)
  else
    if init < limit then 0
    else saturatingSucc ((init.toUInt64 - limit.toUInt64) / (-step).toUInt64)

/-- The number in a slot as a float. -/
def slotDouble (slot : LoopSlot) (v : Value) : Except Complaint Double :=
  match v.toDouble? with
  | some x => .ok x
  | none => .error (.loopNotNumber slot)

/-- The slots before the first round: the index is one step behind. -/
def prepare (l : Loop) : Except Complaint Loop :=
  match l.index, l.step with
  | .number (.int init), .number (.int step) =>
    if step = 0 then .error .loopStepZero
    else do
      let limit ← intLimit l.limit step
      let count := (limit.map fun limit => rounds init limit step).getD 0
      return { index := .int (init - step), limit := .int count.toInt64, step := .int step }
  | _, _ => do
    let limit ← slotDouble .limit l.limit
    let step ← slotDouble .step l.step
    let init ← slotDouble .initial l.index
    if step.eq (.zero false) then .error .loopStepZero
    else return { index := .float (init.sub step), limit := .float limit, step := .float step }

/-- The slots in the next round; none if the loop is over.  Slots that no preparation leaves are
a mistake in the code. -/
def advance (l : Loop) : Except Malformation (Option Loop) :=
  match l.index, l.limit, l.step with
  | .number (.int index), .number (.int left), .number (.int step) =>
    if left = 0 then .ok none
    else .ok (some { l with index := .int (index + step), limit := .int (left - 1) })
  | .number (.float index), .number (.float limit), .number (.float step) =>
    let next := index.add step
    let goesOn := if (Double.zero false).lt step then next.le limit else limit.le next
    .ok (if goesOn then some { l with index := .float next } else none)
  | _, _, _ => .error .forLoopSlots

end Loop

end LuaBytecode
