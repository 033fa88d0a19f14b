import LuaBytecode.Proofs.Table.WellFormed
import Mathlib.Data.List.Induction

/-!
# Tables as finite maps

Whatever is done to a new table, reading a key gives what was last written under a key raw-equal
to it.  The sequence of writes, `Table.lastWritten`, knows nothing of array part and fields.

* `Table.Operation` is what a program can do to a table, `Table.after` a sequence of it;
* `Table.Reachable` holds of the tables that come about so, and they are well formed;
* `Table.get_after_operations` is the law of reading.
-/

namespace LuaBytecode

namespace Table

/-- What a program can do to a table: writes, steps of a traversal, and a new metatable. -/
inductive Operation where
  | set (key v : Value)
  | setInt (n : Int64) (v : Value)
  | setString (s : String) (v : Value)
  | next (key : Value)
  | inext (key : Value)
  | setMetatable (meta? : Option TableRef)

/-- The table after an operation; one that fails leaves it as it is. -/
def apply (t : Table) : Operation → Table
  | .set key v =>
    match t.set key v with
    | .ok t => t
    | .error _ => t
  | .setInt n v => t.setInt n v
  | .setString s v => t.setString s v
  | .next key => (t.next key).2
  | .inext _ => t
  | .setMetatable meta? => { t with metatable := meta? }

/-- The table after a sequence of operations. -/
def after (t : Table) (ops : List Operation) : Table := ops.foldl apply t

/-- What an operation writes under keys raw-equal to `key`; a write under nil or NaN fails. -/
def Operation.written? (key : Value) : Operation → Option Value
  | .set key' v => if key'.IsIndex ∧ key'.rawEq key then some v else none
  | .setInt n v => if (Value.int n).rawEq key then some v else none
  | .setString s v => if (Value.string s).rawEq key then some v else none
  | .next _ | .inext _ | .setMetatable _ => none

/-- What the last of the writes under keys raw-equal to `key` has written; nil if there is
none. -/
def lastWritten (key : Value) (ops : List Operation) : Value :=
  (ops.reverse.findSome? (·.written? key)).getD .nil

/-- The tables that come about from a new one. -/
inductive Reachable : Table → Prop where
  | new : Reachable {}
  | withCapacity (slots fields : Nat) : Reachable (withCapacity slots fields)
  | apply {t : Table} (op : Operation) : Reachable t → Reachable (t.apply op)

variable {t : Table} {key v : Value} {k : Key}

/-! ### Operations that only look -/

theorem next_snd_cases (t : Table) (key : Value) :
    (t.next key).2 = t ∨ (t.next key).2 = t.renew := by
  unfold next
  split
  · by_cases hs : (t.snapshot.isNone || t.dirty) = true
    · exact .inr (by simp only [hs, if_true])
    · exact .inl (by simp only [hs, Bool.false_eq_true, if_false])
  · exact .inl rfl
  · by_cases hs : t.snapshot.isNone = true
    · right
      simp only [hs, if_true]
      split <;> rfl
    · left
      simp only [hs, Bool.false_eq_true, if_false]
      split <;> rfl

/-- A step of a traversal changes neither part of the table. -/
theorem parts_next (t : Table) (key : Value) :
    (t.next key).2.array = t.array ∧ (t.next key).2.fields = t.fields := by
  obtain h | h := next_snd_cases t key <;> rw [h] <;> exact ⟨rfl, rfl⟩

/-! ### One operation -/

theorem set_of_isIndex (h : Key.ofValue? key = some k) (v : Value) :
    t.set key v = .ok (t.put k v) := by
  rw [set, h]

theorem set_of_not_isIndex (h : ¬ key.IsIndex) (v : Value) :
    t.set key v = .error (keyFault key) := by
  rw [set, Key.ofValue?_eq_none_iff.2 h]

theorem get_of_key (h : Key.ofValue? key = some k) : t.get key = t.getKey k := by
  rw [get, h]

theorem get_of_not_isIndex (h : ¬ key.IsIndex) : t.get key = .nil := by
  rw [get, Key.ofValue?_eq_none_iff.2 h]

theorem get_empty (key : Value) : ({} : Table).get key = .nil := by
  by_cases hkey : key.IsIndex
  · obtain ⟨k, hk⟩ := Key.exists_key hkey
    rw [get_of_key hk]
    exact getKey_of_not_isWithin Key.not_isWithin_zero
  · exact get_of_not_isIndex hkey

/-- A write shows under the keys that are raw-equal to its own, and under no other. -/
theorem get_put (ht : t.WellFormed) (key' : Value) (hk : Key.ofValue? key' = some k)
    (key v : Value) : (t.put k v).get key = if key'.rawEq key then v else t.get key := by
  have hindex : key'.IsIndex := Key.isSome_ofValue?_iff.1 (by rw [hk]; rfl)
  simp only [Key.rawEq_iff hindex, hk]
  by_cases hkey : key.IsIndex
  · obtain ⟨k', hk'⟩ := Key.exists_key hkey
    rw [get_of_key hk', get_of_key hk', getKey_put ht (Key.isNormal_of_ofValue? hk)]
    simp only [hk', Option.some.injEq, eq_comm]
  · rw [get_of_not_isIndex hkey, get_of_not_isIndex hkey, Key.ofValue?_eq_none_iff.2 hkey]
    simp

theorem WellFormed.apply (ht : t.WellFormed) (op : Operation) : (t.apply op).WellFormed := by
  cases op with
  | set key v =>
    rw [Table.apply]
    cases hk : Key.ofValue? key with
    | none =>
      rw [set_of_not_isIndex (Key.ofValue?_eq_none_iff.1 hk)]
      exact ht
    | some k =>
      rw [set_of_isIndex hk]
      exact ht.put (Key.isNormal_of_ofValue? hk) v
  | setInt n v => exact ht.put (k := .int n) trivial v
  | setString s v => exact ht.put (k := .string s) trivial v
  | next key => exact ht.congr (parts_next t key).1 (parts_next t key).2
  | inext key => exact ht
  | setMetatable meta? => exact ht.congr rfl rfl

theorem get_apply (ht : t.WellFormed) (hkey : key.IsIndex) (op : Operation) :
    (t.apply op).get key = (op.written? key).getD (t.get key) := by
  obtain ⟨k, hk⟩ := Key.exists_key hkey
  cases op with
  | set key' v =>
    rw [apply, Operation.written?]
    cases hk' : Key.ofValue? key' with
    | none =>
      have hbad := Key.ofValue?_eq_none_iff.1 hk'
      rw [set_of_not_isIndex hbad, if_neg fun h => hbad h.1, Option.getD_none]
    | some k' =>
      have hindex : key'.IsIndex := Key.isSome_ofValue?_iff.1 (by rw [hk']; rfl)
      rw [set_of_isIndex hk']
      simp only [get_put ht _ hk', hindex, true_and]
      split <;> rfl
  | setInt n v =>
    rw [apply, setInt, get_put ht (.int n) rfl, Operation.written?]
    split <;> rfl
  | setString s v =>
    rw [apply, setString, get_put ht (.string s) rfl, Operation.written?]
    split <;> rfl
  | next key' =>
    obtain ⟨harray, hfields⟩ := parts_next t key'
    rw [get_of_key hk, get_of_key hk, apply, getKey_congr harray hfields]
    rfl
  | inext key' => rfl
  | setMetatable meta? =>
    rw [get_of_key hk, get_of_key hk]
    exact getKey_congr rfl rfl k

/-! ### Sequences of operations -/

theorem Reachable.wellFormed (h : t.Reachable) : t.WellFormed := by
  induction h with
  | new => exact wellFormed_empty
  | withCapacity slots fields => exact wellFormed_empty.congr rfl rfl
  | apply op _ ih => exact ih.apply op

theorem after_append (t : Table) (ops ops' : List Operation) :
    t.after (ops ++ ops') = (t.after ops).after ops' :=
  List.foldl_append

theorem reachable_after (h : t.Reachable) (ops : List Operation) : (t.after ops).Reachable := by
  induction ops generalizing t with
  | nil => exact h
  | cons op ops ih => exact ih (h.apply op)

theorem get_after (hkey : key.IsIndex) (ops : List Operation) :
    (after {} ops).get key = lastWritten key ops := by
  induction ops using List.reverseRecOn with
  | nil => exact get_empty key
  | append_singleton ops op ih =>
    have hwf := (reachable_after .new ops).wellFormed
    rw [after_append]
    calc ((after {} ops).apply op).get key
        = (op.written? key).getD ((after {} ops).get key) := get_apply hwf hkey op
      _ = (op.written? key).getD (lastWritten key ops) := by rw [ih]
      _ = lastWritten key (ops ++ [op]) := by
          rw [lastWritten, lastWritten, List.reverse_append, List.reverse_singleton,
            List.singleton_append, List.findSome?_cons]
          cases op.written? key <;> rfl

/-- A failing write might as well not be there. -/
theorem after_failing_set (hkey : ¬ key.IsIndex) (ops later : List Operation) :
    after {} (ops ++ .set key v :: later) = after {} (ops ++ later) := by
  rw [after_append, after_append]
  change ((after {} ops).apply (.set key v)).after later = _
  rw [apply, set_of_not_isIndex hkey]

/-- **A table is a finite map up to raw equality.**  After any operations, a key that is neither
nil nor NaN has the value last written under a raw-equal one; a write under nil or NaN fails,
and no later table shows that it was tried. -/
theorem get_after_operations (ops : List Operation) :
    (∀ key, key.IsIndex → (after {} ops).get key = lastWritten key ops) ∧
    (∀ n, (after {} ops).getInt n = (after {} ops).get (.int n)) ∧
    (∀ key, ¬ key.IsIndex → (after {} ops).get key = .nil) ∧
    (∀ key v, key.IsIndex → ∃ t, (after {} ops).set key v = .ok t) ∧
    (∀ v, (after {} ops).set .nil v = .error .nilKey) ∧
    (∀ x v, x.isNaN = true → (after {} ops).set (.float x) v = .error .nanKey) ∧
    ∀ key v later, ¬ key.IsIndex →
      after {} (ops ++ .set key v :: later) = after {} (ops ++ later) := by
  refine ⟨fun key hkey => get_after hkey ops, fun n => rfl, fun key => get_of_not_isIndex, ?_,
    fun v => rfl, ?_, fun key v later hkey => after_failing_set hkey ops later⟩
  · intro key v hkey
    obtain ⟨k, hk⟩ := Key.exists_key hkey
    exact ⟨_, set_of_isIndex hk v⟩
  · intro x v hx
    exact set_of_not_isIndex (by simp [Value.IsIndex, Number.isNaN, hx]) v

/-- Fields are drawn in by the first write of 1, a hole is left at 2 and given up with 3, the
float 2.0 fills it again, and nil is refused as a key in between. -/
def shiftingOperations : List Operation :=
  [.setInt 3 (.string "c"), .setInt 2 (.string "b"), .setInt 1 (.string "a"), .next .nil,
    .setInt 2 .nil, .set (.int 3) .nil, .set .nil (.string "z"),
    .set (.float ⟨0x4000000000000000⟩) (.string "d")]

theorem get_after_shiftingOperations :
    (Value.int 2).IsIndex ∧ (after {} shiftingOperations).get (.int 2) = .string "d" ∧
      (Value.int 3).IsIndex ∧ (after {} shiftingOperations).get (.int 3) = .nil ∧
      ¬ (Value.float .nan).IsIndex ∧ (after {} shiftingOperations).get (.float .nan) = .nil := by
  obtain ⟨hget, -, hbad, -⟩ := get_after_operations shiftingOperations
  refine ⟨by decide, ?_, by decide, ?_, by decide, hbad _ (by decide)⟩
  · rw [hget (.int 2) (by decide)]
    decide +kernel
  · rw [hget (.int 3) (by decide)]
    decide +kernel

end Table

end LuaBytecode
