import Mathlib.Data.List.Basic
import Mathlib.Data.List.Induction
import Mathlib.Data.Nat.Digits.Defs
import LuaBytecode.Text.Digit

/-!
# The values of digits

The digits of all bases up to 36 are one alphabet, and the value of a digit is its place there.
A run of digits is read as its positional value, wrapped around to 64 bits.

* `Text.digitValue`, `Text.value` : the values of a digit and of a run of digits.
* `Text.readDigits?_eq` : reading a run of digits as a 64-bit integer.
* `Text.decimalValue_eq` : the value of a run of decimal digits.
-/

namespace LuaBytecode.Text

/-- The digits in order. -/
def alphabet : List Char :=
  ['0', '1', '2', '3', '4', '5', '6', '7', '8', '9', 'a', 'b', 'c', 'd', 'e', 'f', 'g', 'h', 'i',
    'j', 'k', 'l', 'm', 'n', 'o', 'p', 'q', 'r', 's', 't', 'u', 'v', 'w', 'x', 'y', 'z']

/-- The value of a digit, which may be a letter of either case; 36 for other characters. -/
def digitValue (c : Char) : Nat := alphabet.idxOf c.toLower

/-- The value that digits have by their positions. -/
def value (base : Nat) (ds : List Char) : Nat := Nat.ofDigits base (ds.reverse.map digitValue)

/-- One or more digits of a base. -/
structure IsRun (base : Nat) (ds : List Char) : Prop where
  ne_nil : ds ≠ []
  isDigit : ∀ c ∈ ds, digitValue c < base

instance (base : Nat) (ds : List Char) : Decidable (IsRun base ds) :=
  decidable_of_iff (ds ≠ [] ∧ ds.all (digitValue · < base) = true)
    ⟨fun ⟨hne, hall⟩ => ⟨hne, by simpa using hall⟩, fun h => ⟨h.ne_nil, by simpa using h.isDigit⟩⟩

variable {base : Nat} {c : Char}

/-! ### One digit -/

/-- The digits are ASCII characters. -/
theorem digitValue_of_le (h : 128 ≤ c.toNat) : digitValue c = 36 := by
  have hupper : ¬ (c.val ≥ 'A'.val ∧ c.val ≤ 'Z'.val) := by
    rintro ⟨-, hle⟩
    have : c.toNat ≤ 'Z'.toNat := hle
    exact absurd this (by simp; omega)
  have hmem : c ∉ alphabet := by
    intro hmem
    have hsmall : alphabet.all (·.toNat < 128) = true := by decide +kernel
    exact absurd (List.all_eq_true.1 hsmall c hmem) (by simpa using h)
  have hlower : c.toLower = c := dif_neg hupper
  rw [digitValue, hlower]
  exact List.idxOf_of_notMem hmem

theorem not_between_of_le (h : 128 ≤ c.toNat) (a : Char) {b : Char} (hb : b.toNat < 128) :
    ¬ (a ≤ c ∧ c ≤ b) := by
  rintro ⟨-, hle⟩
  have : c.toNat ≤ b.toNat := hle
  omega

/-- What holds of the ASCII characters and of the rest holds of all characters. -/
theorem ascii_cases {p : Char → Prop} (ascii : ∀ n < 128, p (Char.ofNat n))
    (rest : ∀ c, 128 ≤ c.toNat → p c) (c : Char) : p c := by
  obtain h | h := Nat.lt_or_ge c.toNat 128
  · exact Char.ofNat_toNat c ▸ ascii c.toNat h
  · exact rest c h

theorem digit?_36 (c : Char) :
    digit? 36 c = if digitValue c < 36 then some (digitValue c) else none := by
  induction c using ascii_cases with
  | ascii n hn => revert n; decide +kernel
  | rest c hc =>
    rw [digitValue_of_le hc, if_neg (Nat.lt_irrefl 36), digit?,
      if_neg (not_between_of_le hc _ (by decide)), if_neg (not_between_of_le hc _ (by decide)),
      if_neg (not_between_of_le hc _ (by decide))]
    rfl

/-- A digit is read as its place in the alphabet. -/
theorem digit?_eq (hbase : base ≤ 36) (c : Char) :
    digit? base c = if digitValue c < base then some (digitValue c) else none := by
  have hfilter : digit? base c = (digit? 36 c).filter (· < base) := by
    rw [digit?, digit?, Option.filter_filter]
    congr 1
    funext d
    rw [← Bool.decide_and, decide_eq_decide]
    omega
  rw [hfilter, digit?_36]
  by_cases hc : digitValue c < base
  · rw [if_pos (Nat.lt_of_lt_of_le hc hbase), if_pos hc]
    exact Option.filter_some_pos (decide_eq_true hc)
  · rw [if_neg hc, Option.filter_eq_none_iff]
    intro d hd
    split at hd
    · obtain rfl := Option.some.inj hd
      simpa using hc
    · exact absurd hd (by simp)

theorem between_iff_digitValue_lt (c : Char) : ('0' ≤ c ∧ c ≤ '9') ↔ digitValue c < 10 := by
  induction c using ascii_cases with
  | ascii n hn => revert n; decide +kernel
  | rest c hc =>
    rw [digitValue_of_le hc]
    exact iff_of_false (not_between_of_le hc _ (by decide)) (by decide)

theorem decimalDigit_eq (hc : digitValue c < 10) : decimalDigit c = digitValue c := by
  induction c using ascii_cases with
  | ascii n hn => revert n; decide +kernel
  | rest c hlarge =>
    rw [digitValue_of_le hlarge] at hc
    exact absurd hc (by decide)

/-! ### Runs -/

theorem IsRun.exists_cons {ds : List Char} (h : IsRun base ds) :
    ∃ c rest, ds = c :: rest ∧ digitValue c < base := by
  obtain ⟨c, rest, rfl⟩ := List.exists_cons_of_ne_nil h.ne_nil
  exact ⟨c, rest, rfl, h.isDigit c List.mem_cons_self⟩

theorem value_append_singleton (ds : List Char) (c : Char) :
    value base (ds ++ [c]) = value base ds * base + digitValue c := by
  rw [value, List.reverse_append, List.reverse_singleton, List.singleton_append, List.map_cons,
    Nat.ofDigits_cons, value, Nat.add_comm, Nat.mul_comm]

theorem value_eq_foldl (ds : List Char) :
    value base ds = ds.foldl (fun n c => n * base + digitValue c) 0 := by
  induction ds using List.reverseRecOn with
  | nil => rfl
  | append_singleton ds c ih => rw [value_append_singleton, ih, List.foldl_append]; rfl

theorem appendDigits?_eq (hbase : base ≤ 36) (n : Nat) (cs : List Char) :
    appendDigits? base (Int64.ofNat n) cs =
      if cs.all (digitValue · < base)
      then some (Int64.ofNat (cs.foldl (fun n c => n * base + digitValue c) n)) else none := by
  induction cs generalizing n with
  | nil => simp [appendDigits?]
  | cons c cs ih =>
    rw [appendDigits?, digit?_eq hbase]
    by_cases hc : digitValue c < base
    · rw [if_pos hc, Option.bind_eq_bind, Option.bind_some, ← Int64.ofNat_mul, ← Int64.ofNat_add,
        ih, List.foldl_cons, List.all_cons, decide_eq_true hc, Bool.true_and]
    · simp [hc]

/-- **Reading a run of digits.**  The run must not be empty and may have no other character; its
value is wrapped around to 64 bits. -/
theorem readDigits?_eq (hbase : base ≤ 36) (cs : List Char) :
    readDigits? base cs = if IsRun base cs then some (Int64.ofNat (value base cs)) else none := by
  by_cases hcs : cs = []
  · rw [if_neg fun h => h.ne_nil hcs, hcs]
    rfl
  · rw [readDigits?, if_neg (by simpa using hcs), value_eq_foldl]
    exact (appendDigits?_eq hbase 0 cs).trans
      (if_congr ⟨fun h => ⟨hcs, by simpa using h⟩, fun h => by simpa using h.isDigit⟩ rfl rfl)

/-- The value of a run of decimal digits is exact. -/
theorem decimalValue_eq {ds : List Char} (hds : ∀ c ∈ ds, digitValue c < 10) :
    decimalValue ds = value 10 ds := by
  rw [decimalValue_eq_foldl, value_eq_foldl]
  refine List.foldl_ext _ _ 0 fun n c hc => ?_
  rw [decimalDigit_eq (hds c hc)]

end LuaBytecode.Text
