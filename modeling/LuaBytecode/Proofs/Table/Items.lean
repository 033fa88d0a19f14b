import LuaBytecode.Proofs.Table.Border
import Mathlib.Data.List.GetD

/-!
# Items in a row

Values that are written to consecutive integers, one after the other, come to stand there, and no
other entry changes, whichever part of the table each of them is kept in.

* `Table.setItems` : write values from a position on.
* `Table.Stores` : what this makes of a table; `Table.stores_setItems` is the step along the list.
* `Table.Stores.append` : writes that go on where others have stopped are like one.
* `Table.length_of_stores` : the border behind items of which none is nil.
-/

namespace LuaBytecode

/-- The integer that tells a position. -/
def Value.position (p : Nat) : Value := .int (Int64.ofNat p)

namespace Table

/-- Write values to consecutive positions from `n` on. -/
def setItems (t : Table) (n : Nat) : List Value → Table
  | [] => t
  | v :: vs => (t.setInt (Int64.ofNat n) v).setItems (n + 1) vs

/-- The values have been written to the positions from `n` on, whatever raw-equal key they are read
by; nothing else has changed, nor has the metatable. -/
structure Stores (old : Table) (n : Nat) (vs : List Value) (t : Table) : Prop where
  item : ∀ k < vs.length, ∀ key, (Value.position (n + k)).rawEq key → t.get key = vs.getD k .nil
  other : ∀ key, (∀ k < vs.length, ¬ (Value.position (n + k)).rawEq key) → t.get key = old.get key
  metatable : t.metatable = old.metatable

variable {t t' old : Table} {key v : Value} {vs ws : List Value} {n p q : Nat}

/-! ### Positions -/

theorem toInt_ofNat_position (hp : p < 0x8000000000000000) : (Int64.ofNat p).toInt = p :=
  Int64.toInt_ofNat_of_lt hp

theorem rawEq_position_iff :
    (Value.position p).rawEq key ↔ Key.ofValue? key = some (.int (Int64.ofNat p)) :=
  Key.rawEq_iff (Key.isSome_ofValue?_iff.1 rfl)

theorem rawEq_position_self (p : Nat) : (Value.position p).rawEq (.position p) :=
  rawEq_position_iff.2 rfl

/-- No key tells two positions. -/
theorem eq_of_rawEq_position (hp : p < 0x8000000000000000) (hq : q < 0x8000000000000000)
    (h : (Value.position p).rawEq key) (h' : (Value.position q).rawEq key) : p = q := by
  rw [rawEq_position_iff] at h h'
  have hkey : Key.int (Int64.ofNat p) = .int (Int64.ofNat q) := Option.some.inj (h.symm.trans h')
  have hint := congrArg Int64.toInt (Key.int.inj hkey)
  rw [toInt_ofNat_position hp, toInt_ofNat_position hq] at hint
  exact Int.ofNat.inj hint

/-! ### Writing items -/

theorem stores_nil (t : Table) (n : Nat) : t.Stores n [] t where
  item k hk := absurd hk (Nat.not_lt_zero k)
  other _ _ := rfl
  metatable := rfl

theorem stores_setInt (ht : t.WellFormed) (n : Nat) (v : Value) :
    t.Stores n [v] (t.setInt (Int64.ofNat n) v) := by
  have hget := get_put ht (.position n) rfl
  refine ⟨fun k hk key hkey => ?_, fun key hkey => ?_, ?_⟩
  · obtain rfl : k = 0 := Nat.lt_one_iff.1 hk
    exact (hget key v).trans (if_pos hkey)
  · exact (hget key v).trans (if_neg (hkey 0 Nat.one_pos))
  · rw [setInt, put_eq]

/-- **Writes that go on where others have stopped** are like one write of all the values. -/
theorem Stores.append (h : old.Stores n vs t) (h' : t.Stores (n + vs.length) ws t')
    (hlast : n + vs.length + ws.length ≤ 0x8000000000000000) : old.Stores n (vs ++ ws) t' := by
  refine ⟨fun k hk key hkey => ?_, fun key hkey => ?_, h'.metatable.trans h.metatable⟩
  · rw [List.length_append] at hk
    by_cases hfirst : k < vs.length
    · -- the later writes pass by the earlier items
      have hbefore : ∀ j < ws.length, ¬ (Value.position (n + vs.length + j)).rawEq key := by
        intro j hj hkey'
        have := eq_of_rawEq_position (by omega) (by omega) hkey hkey'
        omega
      rw [h'.other key hbefore, h.item k hfirst key hkey, List.getD_append _ _ _ _ hfirst]
    · obtain ⟨j, rfl⟩ := Nat.exists_eq_add_of_le (Nat.le_of_not_lt hfirst)
      rw [List.getD_append_right _ _ _ _ (Nat.le_add_right ..), Nat.add_sub_cancel_left]
      rw [← Nat.add_assoc] at hkey
      exact h'.item j (by omega) key hkey
  · have hlength : (vs ++ ws).length = vs.length + ws.length := List.length_append
    rw [h'.other key, h.other key]
    · exact fun k hk => hkey k (by omega)
    · intro k hk
      rw [Nat.add_assoc]
      exact hkey _ (by omega)

theorem WellFormed.setItems (ht : t.WellFormed) (n : Nat) (vs : List Value) :
    (t.setItems n vs).WellFormed := by
  induction vs generalizing t n with
  | nil => exact ht
  | cons v vs ih => exact ih (ht.apply (.setInt (Int64.ofNat n) v)) (n + 1)

/-- **Items come to stand at their positions**, as long as these are 64-bit integers. -/
theorem stores_setItems (ht : t.WellFormed) (n : Nat) (vs : List Value)
    (hlast : n + vs.length ≤ 0x8000000000000000) : t.Stores n vs (t.setItems n vs) := by
  induction vs generalizing t n with
  | nil => exact stores_nil t n
  | cons v vs ih =>
    rw [List.length_cons] at hlast
    have hrest := ih (ht.apply (.setInt (Int64.ofNat n) v)) (n + 1) (by omega)
    exact (stores_setInt ht n v).append hrest (by rw [List.length_singleton]; omega)

/-! ### Tables that hold nothing but items -/

/-- The entries of a table that was empty are the items. -/
theorem Stores.get_position (h : Stores {} 1 vs t) (hp : 1 ≤ p) (hp' : p < 0x8000000000000000) :
    t.get (.position p) = vs.getD (p - 1) .nil := by
  obtain ⟨k, rfl⟩ := Nat.exists_eq_add_of_le hp
  rw [Nat.add_sub_cancel_left]
  by_cases hk : k < vs.length
  · exact h.item k hk _ (rawEq_position_self _)
  · rw [List.getD_eq_default _ _ (Nat.le_of_not_lt hk), h.other, get_empty]
    intro j hj hkey
    have := eq_of_rawEq_position (by omega) hp' hkey (rawEq_position_self _)
    omega

/-- Behind items of which none is nil the table ends. -/
theorem length_of_stores (ht : t.WellFormed) (h : Stores {} 1 vs t)
    (hvs : vs.length < 0x8000000000000000) (hitems : ∀ v ∈ vs, v ≠ .nil) :
    t.length = vs.length := by
  have hlength := ht.size_lt
  rw [← length] at hlength
  obtain hlt | heq | hgt := Nat.lt_trichotomy t.length vs.length
  · -- just past the border an item would be nil
    have hpast : t.get (.position (t.length + 1)) = .nil :=
      get_past_eq_nil ht (toInt_ofNat_position (by omega))
    rw [h.get_position (by omega) (by omega), Nat.add_sub_cancel,
      List.getD_eq_getElem _ _ hlt] at hpast
    exact absurd hpast (hitems _ (List.getElem_mem hlt))
  · exact heq
  · -- at the border something else would stand
    have hint := toInt_ofNat_position hlength
    have hborder : t.get (.position t.length) ≠ .nil :=
      get_last_ne_nil ht (by rw [hint]; omega) hint
    rw [h.get_position (by omega) hlength, List.getD_eq_default _ _ (by omega)] at hborder
    exact absurd rfl hborder

end Table

end LuaBytecode
