import LuaBytecode.Embedding
import LuaBytecode.Proofs.Run.Tables
import Mathlib.Order.Nat

/-!
# The leading entries of a table

A loop over the leading integers takes an entry at a time, and all that it knows is the integer that
it was given last.  The step of the base library reads a table without metatable directly, and
indexes other values; a table has a step of its own.  All of them yield the entries up to the first
that is missing, whatever other entries there are.

* `Table.Gap` : where the leading entries end; `Table.exists_gap`.
* `Engine.ipairsNext`, `Engine.ipairsNext_eq`, `Table.inext_position` : the two steps.
* `step_controls` : a loop goes from each integer to the next one.
* `Machine.leading_of_reachable` : what a loop yields, in any states in which the table is the same.
-/

namespace LuaBytecode

/-! ### The first gap -/

namespace Table

/-- The least number behind which there is no entry. -/
def Gap (t : Table) (n : ℕ) : Prop := IsLeast {n : ℕ | t.get (.position (n + 1)) = .nil} n

variable {t : Table} {n k : ℕ}

theorem Gap.get_ne_nil (h : t.Gap n) (hk : k < n) : t.get (.position (k + 1)) ≠ .nil := fun hnil =>
  absurd (h.2 hnil) (Nat.not_le_of_lt hk)

/-- There is a gap at the border of the table, or before it. -/
theorem exists_gap (ht : t.WellFormed) (hlength : t.length < 0x7fffffffffffffff) :
    ∃ n ≤ t.length, t.Gap n := by
  have hborder : t.get (.position (t.length + 1)) = .nil :=
    get_past_eq_nil ht (toInt_ofNat_position (by omega))
  exact ⟨_, Nat.find_min' ⟨_, hborder⟩ hborder, Nat.isLeast_find ⟨_, hborder⟩⟩

/-! ### Steps -/

/-- What a step answers with: the entry behind an integer, or nil where there is none. -/
def entryValues (i : Int64) (v : Value) : List Value := if v.isNil then [.nil] else [.int i, v]

theorem ofNat_add_one (k : ℕ) : Int64.ofNat k + 1 = Int64.ofNat (k + 1) :=
  (Int64.ofNat_add k 1).symm

/-- The step of a table from a position: the next one, unless it is no integer any more. -/
theorem inext_position (t : Table) (hk : k < 0x8000000000000000) :
    t.inext (.position k) =
      if k = 0x7fffffffffffffff ∨ t.get (.position (k + 1)) = .nil then none
      else some (.position (k + 1), t.get (.position (k + 1))) := by
  have hlast : Int64.ofNat k = Int64.maxValue ↔ k = 0x7fffffffffffffff := by
    rw [← Int64.toInt_inj, toInt_ofNat_position hk]
    exact Int.ofNat_inj
  have hinext : t.inext (.position k) =
      if Int64.ofNat k = Int64.maxValue then none
      else if (t.get (.int (Int64.ofNat k + 1))).isNil then none
      else some (.int (Int64.ofNat k + 1), t.get (.int (Int64.ofNat k + 1))) := rfl
  rw [hinext, ofNat_add_one]
  simp only [isNil_iff, hlast]
  by_cases hk' : k = 0x7fffffffffffffff
  · rw [if_pos hk', if_pos (.inl hk')]
  · simp only [hk', if_false, false_or]
    rfl

theorem inext_nil (t : Table) : t.inext .nil = t.inext (.position 0) := rfl

end Table

/-! ### Steps of the base library -/

/-- A request that is answered at once. -/
theorem Host.act_ask_of_done {r : Request} {go : Except Fault (List Value) → Host} {e : Engine}
    {vs : List Value} (h : Action.answer r e = .done vs e) :
    (Host.ask r go).act e = (go (.ok vs)).act e := by
  change (Action.answer r e).andFinally _ = _
  rw [h]
  rfl

namespace Engine

variable {e : Engine} {t : TableRef} {control : Value} {i : Int64}

/-- What comes of the step over the leading integers. -/
def ipairsNext (e : Engine) (t : TableRef) (control : Value) : Outcome (List Value) :=
  e.carry (BaseLibrary.ipairsStep [.table t, control]).run.act

/-- A table without metatable is indexed as it is read. -/
theorem index_eq (hmeta : (e.heap.table t).metatable = none) (key : Value) :
    e.index (.table t) key = .done ((e.heap.table t).get key) e := by
  have hmetamethod : Action.metamethod (.table t) "__index" e = .done .nil e := by
    rw [Action.metamethod, Action.read, metamethod, metatableFor, hmeta]
  have hindex : Action.index (.table t) key e = .done ((e.heap.table t).get key) e := by
    change (if (!((e.heap.table t).get key).isNil) = true then pure _ else _ : Action Value) e = _
    cases hnil : ((e.heap.table t).get key).isNil with
    | false => rfl
    | true =>
      rw [if_neg (by simp), Table.isNil_iff.1 hnil]
      change (Action.metamethod (.table t) "__index" e).andThen _ = _
      rw [hmetamethod]
      rfl
  rw [index, carry, hindex]
  rfl

/-- The step reads a table without metatable directly. -/
theorem ipairsNext_eq (hmeta : (e.heap.table t).metatable = none)
    (hcontrol : control.toInt? = some i) :
    e.ipairsNext t control =
      .done (Table.entryValues (i + 1) ((e.heap.table t).get (.int (i + 1)))) e := by
  have hact : (BaseLibrary.ipairsStep [.table t, control]).run.act e =
      .done (Table.entryValues (i + 1) ((e.heap.table t).get (.int (i + 1)))) e := by
    have hi : control.toInt?.getD 0 + 1 = i + 1 := by rw [hcontrol, Option.getD_some]
    have hmetatable : Action.answer (.metatable (.table t)) e = .done [] e := by
      change Progress.done (((e.heap.table t).metatable.map Value.table).toList) e = _
      rw [hmeta]
      rfl
    have hread : Action.answer (.getRaw t (.int (control.toInt?.getD 0 + 1))) e =
        .done [(e.heap.table t).get (.int (control.toInt?.getD 0 + 1))] e := rfl
    rw [← hi]
    exact (Host.act_ask_of_done hmetatable).trans (Host.act_ask_of_done hread)
  rw [ipairsNext, carry, hact]
  rfl

/-- In this state a table has the entries of the given one, and no metatable. -/
structure Shows (e : Engine) (t : TableRef) (table : Table) : Prop where
  metatable_eq : (e.heap.table t).metatable = none
  get_eq : (e.heap.table t).get = table.get

theorem Shows.ipairsNext_position {table : Table} (h : e.Shows t table) (k : ℕ) :
    e.ipairsNext t (.position k) =
      .done (Table.entryValues (Int64.ofNat (k + 1)) (table.get (.position (k + 1)))) e := by
  rw [ipairsNext_eq h.metatable_eq rfl, Table.ofNat_add_one, h.get_eq]
  rfl

end Engine

/-! ### Loops -/

/-- The values that a loop hands to its steps: it starts with one, and takes each further one from
the answer before.  The steps may be taken in different states. -/
def controls {α : Type} (step : ℕ → Value → α) (key : α → Value) (start : Value) : ℕ → Value
  | 0 => start
  | k + 1 => key (step k (controls step key start k))

/-- A loop that is led on from each integer to the next one. -/
theorem step_controls {α : Type} (step : ℕ → Value → α) {key : α → Value} {start : Value} {n : ℕ}
    (hstart : step 0 start = step 0 (.position 0))
    (hkey : ∀ k < n, key (step k (.position k)) = .position (k + 1)) {k : ℕ} (hk : k ≤ n) :
    step k (controls step key start k) = step k (.position k) := by
  induction k with
  | zero => exact hstart
  | succ k ih => rw [controls, ih (Nat.le_of_lt hk), hkey k hk]

/-- The first value of an outcome. -/
def Outcome.firstValue : Outcome (List Value) → Value
  | .done vs _ => vs.headD .nil
  | _ => .nil

/-- What a loop with the step of the base library gets in its states, one after the other. -/
def ipairsRound (es : ℕ → Engine) (t : TableRef) (k : ℕ) : Outcome (List Value) :=
  (es k).ipairsNext t (controls (fun k => (es k).ipairsNext t) Outcome.firstValue (.int 0) k)

/-- What a loop with the step of a table gets, where the table may be stored anew in between. -/
def inextRound (ts : ℕ → Table) (k : ℕ) : Option (Value × Value) :=
  (ts k).inext (controls (fun k => (ts k).inext) (·.elim .nil Prod.fst) .nil k)

namespace Table

variable {table : Table} {n : ℕ}

theorem Gap.ipairsRound_eq (h : table.Gap n) {es : ℕ → Engine} {t : TableRef}
    (hes : ∀ k, (es k).Shows t table) {k : ℕ} (hk : k ≤ n) :
    ipairsRound es t k = .done (if k < n then [.position (k + 1), table.get (.position (k + 1))]
      else [.nil]) (es k) := by
  have hvalues (k : ℕ) (hk : k < n) :
      entryValues (Int64.ofNat (k + 1)) (table.get (.position (k + 1))) =
        [.position (k + 1), table.get (.position (k + 1))] :=
    if_neg (mt isNil_iff.1 (h.get_ne_nil hk))
  have hround : ipairsRound es t k = (es k).ipairsNext t (.position k) := by
    refine step_controls (fun k => (es k).ipairsNext t) rfl (fun k hk => ?_) hk
    rw [(hes k).ipairsNext_position, hvalues k hk]
    rfl
  rw [hround, (hes k).ipairsNext_position]
  split
  · rename_i hlt
    rw [hvalues k hlt]
  · rename_i hge
    have hend : k = n := Nat.le_antisymm hk (Nat.le_of_not_lt hge)
    rw [hend, h.1]
    rfl

theorem Gap.inextRound_eq (h : table.Gap n) (hn : n < 0x8000000000000000) {ts : ℕ → Table}
    (hts : ∀ k, (ts k).get = table.get) {k : ℕ} (hk : k ≤ n) :
    inextRound ts k =
      if k < n then some (.position (k + 1), table.get (.position (k + 1))) else none := by
  have hinext (k : ℕ) (hk : k ≤ n) : (ts k).inext (.position k) =
      if k < n then some (.position (k + 1), table.get (.position (k + 1))) else none := by
    rw [inext_position _ (Nat.lt_of_le_of_lt hk hn), hts]
    obtain hlt | rfl := Nat.lt_or_eq_of_le hk
    · rw [if_neg (not_or.2 ⟨by omega, h.get_ne_nil hlt⟩), if_pos hlt]
    · rw [if_pos (.inr h.1), if_neg (Nat.lt_irrefl k)]
  have hround : inextRound ts k = (ts k).inext (.position k) := by
    refine step_controls (fun k => (ts k).inext) (inext_nil _) (fun k hk => ?_) hk
    rw [hinext k (Nat.le_of_lt hk), if_pos hk]
    rfl
  rw [hround, hinext k hk]

end Table

/-- **The leading entries of a table are all that a loop over it yields, in order.**  In every state
that an engine can come to, the step of the base library answers as if it indexed a table without
metatable.  There is a first gap, at the border or before it, unless the border is the greatest
integer.  As long as the table has the same entries, wherever they are stored, and no metatable, a
loop with this step and a loop with the step of the table get the entries up to the gap, and then
come to an end. -/
theorem Machine.leading_of_reachable {config : Config} {m : Machine}
    (hm : Machine.Reachable config m) (t : TableRef)
    (hmeta : (m.engine.heap.table t).metatable = none) :
    (∀ control i, control.toInt? = some i → ∃ v,
      m.engine.index (.table t) (.int (i + 1)) = .done v m.engine ∧
      m.engine.ipairsNext t control = .done (Table.entryValues (i + 1) v) m.engine) ∧
    ((m.engine.heap.table t).length < 0x7fffffffffffffff →
      ∃ n ≤ (m.engine.heap.table t).length, (m.engine.heap.table t).Gap n) ∧
    ∀ n < 0x8000000000000000, (m.engine.heap.table t).Gap n →
      (∀ es : ℕ → Engine, (∀ k, (es k).Shows t (m.engine.heap.table t)) → ∀ k ≤ n,
        ipairsRound es t k = .done (if k < n then
          [.position (k + 1), (m.engine.heap.table t).get (.position (k + 1))] else [.nil])
            (es k)) ∧
      ∀ ts : ℕ → Table, (∀ k, (ts k).get = (m.engine.heap.table t).get) → ∀ k ≤ n,
        inextRound ts k = if k < n then
          some (.position (k + 1), (m.engine.heap.table t).get (.position (k + 1))) else none := by
  refine ⟨fun control i hi => ⟨_, Engine.index_eq hmeta _, Engine.ipairsNext_eq hmeta hi⟩,
    Table.exists_gap (hm.tables t).wellFormed, fun n hn hgap => ⟨fun es hes k hk => ?_,
      fun ts hts k hk => ?_⟩⟩
  · exact hgap.ipairsRound_eq hes hk
  · exact hgap.inextRound_eq hn hts hk

/-- Four entries are written, and the third is cleared. -/
def writeHoley (t : TableRef) : Host :=
  Script.run do
    let _ ← .ask (.setRaw t (.int 1) (.string "a"))
    let _ ← .ask (.setRaw t (.int 2) (.string "b"))
    let _ ← .ask (.setRaw t (.int 3) (.string "c"))
    let _ ← .ask (.setRaw t (.int 4) (.string "d"))
    let _ ← .ask (.setRaw t (.int 3) .nil)
    return []

/-- An engine in which this has been done to a new table. -/
def holeyMachine : Machine :=
  (Operation.serve (writeHoley ⟨2⟩)).start (Engine.new .bare).newTable.2

/-- The border lies behind the gap, and a loop gets two entries. -/
theorem Machine.leading_of_reachable_holey :
    Machine.Reachable .bare holeyMachine ∧
    (holeyMachine.engine.heap.table ⟨2⟩).metatable = none ∧
    (holeyMachine.engine.heap.table ⟨2⟩).length = 4 ∧
    (holeyMachine.engine.heap.table ⟨2⟩).Gap 2 ∧
    holeyMachine.engine.ipairsNext ⟨2⟩ (.string "2") = .done [.nil] holeyMachine.engine ∧
    ipairsRound (fun _ => holeyMachine.engine) ⟨2⟩ 1 =
      .done [.int 2, .string "b"] holeyMachine.engine ∧
    ipairsRound (fun _ => holeyMachine.engine) ⟨2⟩ 2 = .done [.nil] holeyMachine.engine ∧
    inextRound (fun _ => holeyMachine.engine.heap.table ⟨2⟩) 1 = some (.int 2, .string "b") ∧
    inextRound (fun _ => holeyMachine.engine.heap.table ⟨2⟩) 2 = none := by
  have hm : Machine.Reachable .bare holeyMachine :=
    .tail (.tail .refl (.operation (.ok []) (Engine.new .bare) .newTable))
      (.operation _ _ (.serve (writeHoley ⟨2⟩)))
  have hmeta : (holeyMachine.engine.heap.table ⟨2⟩).metatable = none := by decide +kernel
  have hlength : (holeyMachine.engine.heap.table ⟨2⟩).length = 4 := by decide +kernel
  have hgap : (holeyMachine.engine.heap.table ⟨2⟩).Gap 2 := by
    refine ⟨by decide +kernel, fun n hn => ?_⟩
    have hfull : ∀ n < 2, (holeyMachine.engine.heap.table ⟨2⟩).get (.position (n + 1)) ≠ .nil := by
      decide +kernel
    exact Nat.le_of_not_lt fun hlt => hfull n hlt hn
  have hsecond : (holeyMachine.engine.heap.table ⟨2⟩).get (.position (1 + 1)) = .string "b" := by
    decide +kernel
  have hthird : (holeyMachine.engine.heap.table ⟨2⟩).get (.int (2 + 1)) = .nil := by decide +kernel
  obtain ⟨hstep, -, hloop⟩ := Machine.leading_of_reachable hm ⟨2⟩ hmeta
  obtain ⟨v, hindex, hnext⟩ := hstep (.string "2") 2 (by decide +kernel)
  have hv : v = .nil := by
    rw [Engine.index_eq hmeta, hthird] at hindex
    exact (Outcome.done.inj hindex).1.symm
  obtain ⟨hipairs, hinext⟩ := hloop 2 (by decide) hgap
  refine ⟨hm, hmeta, hlength, hgap, ?_, ?_, ?_, ?_, ?_⟩
  · rw [hnext, hv]
    rfl
  · rw [hipairs _ (fun _ => ⟨hmeta, rfl⟩) 1 (by decide), hsecond]
    rfl
  · exact hipairs _ (fun _ => ⟨hmeta, rfl⟩) 2 (by decide)
  · rw [hinext _ (fun _ => rfl) 1 (by decide), hsecond]
    rfl
  · exact hinext _ (fun _ => rfl) 2 (by decide)

end LuaBytecode
