import LuaBytecode.Proofs.Prototype.Building

/-!
# The pools of a builder

A prototype has pools of constants, upvalues and nested functions, and its code.  A step puts at
most one item behind the others of one pool and moves none, so an item stays where it was put.
Constants are shared: the pool of constants never holds one twice.  The numbers by which a builder
names positions have fewer bits than positions may need.

* `Constant.Identical` : when two constants share an index.
* `Builder.Extends` : what later steps keep of the pools.
* `Builder.interned` : the constants that steps pass, with the indices that they get.
* `Builder.interned_exact` : indices are equal for identical constants only, and lead to them.
* `Builder.item_stays` : the items behind the numbers of all four operations, and when a number is
  the position of its item.
* `Builder.upvalue_index_wraps` : the number of an upvalue may belong to another one.
-/

namespace LuaBytecode

/-- The same kind and, within it, the same truth value, integer, text or float word. -/
def Constant.Identical : Constant → Constant → Prop
  | .nil, .nil => True
  | .bool a, .bool b => a = b
  | .number (.int m), .number (.int n) => m = n
  | .number (.float x), .number (.float y) => x.bits = y.bits
  | .string s, .string t => s = t
  | _, _ => False

theorem Double.bits_inj {x y : Double} : x.bits = y.bits ↔ x = y :=
  ⟨congrArg Double.mk, congrArg Double.bits⟩

/-- Being identical is the equality by which the pool is searched. -/
theorem Constant.identical_iff {c d : Constant} : c.Identical d ↔ c = d := by
  cases c with
  | number m =>
    cases m <;> cases d with
    | number n => cases n <;> simp [Identical, Double.bits_inj]
    | _ => simp [Identical]
  | _ =>
    cases d with
    | number n => cases n <;> simp [Identical]
    | _ => simp [Identical]

instance : DecidableRel Constant.Identical := fun c d =>
  decidable_of_iff (c = d) Constant.identical_iff.symm

namespace Builder

variable {b b' : Builder} {c d : Constant} {pc k : Nat}

/-! ### Pools grow -/

/-- Whatever stands in a pool is there afterwards, at the same position. -/
structure Extends (b b' : Builder) : Prop where
  constants : ∀ {k : Nat} {c}, b.proto.constants[k]? = some c → b'.proto.constants[k]? = some c
  upvalues : ∀ {k : Nat} {u}, b.proto.upvalues[k]? = some u → b'.proto.upvalues[k]? = some u
  protos : ∀ {k : Nat} {p}, b.proto.protos[k]? = some p → b'.proto.protos[k]? = some p

theorem Extends.refl (b : Builder) : b.Extends b := ⟨id, id, id⟩

theorem Extends.trans {b'' : Builder} (h : b.Extends b') (h' : b'.Extends b'') : b.Extends b'' :=
  ⟨h'.constants ∘ h.constants, h'.upvalues ∘ h.upvalues, h'.protos ∘ h.protos⟩

theorem getElem?_push_of_some {α : Type} {pool : Array α} {x y : α} (h : pool[k]? = some x) :
    (pool.push y)[k]? = some x := by
  obtain ⟨hk, rfl⟩ := Array.getElem?_eq_some_iff.1 h
  rw [Array.getElem?_eq_getElem (Array.size_push y ▸ Nat.lt_succ_of_lt hk),
    Array.getElem_push_lt hk]

theorem extends_constant (b : Builder) (c : Constant) : b.Extends (b.constant c).2 := by
  unfold constant
  split
  · exact .refl b
  · exact ⟨getElem?_push_of_some, id, id⟩

theorem extends_apply (b : Builder) (s : Step) : b.Extends (b.apply s) := by
  cases s with
  | constant c => exact b.extends_constant c
  | upvalue u => exact ⟨id, getElem?_push_of_some, id⟩
  | nested p => exact ⟨id, id, getElem?_push_of_some⟩
  | _ => exact ⟨id, id, id⟩

theorem extends_after (b : Builder) (steps : List Step) : b.Extends (b.after steps) := by
  induction steps generalizing b with
  | nil => exact .refl b
  | cons s steps ih => exact (b.extends_apply s).trans (ih _)

/-! ### Constants -/

/-- The pool of constants holds none twice. -/
def Interning (b : Builder) : Prop := b.proto.constants.toList.Nodup

/-- The constant that a step passes, with the index that it gets. -/
def Step.interned (b : Builder) : Step → List (Constant × UInt32)
  | .constant c => [(c, (b.constant c).1)]
  | _ => []

/-- The constants that some steps pass, each with the index that it gets. -/
def interned (b : Builder) : List Step → List (Constant × UInt32)
  | [] => []
  | s :: steps => s.interned b ++ (b.apply s).interned steps

/-- Either the constant is there and nothing changes, or it is put behind the others. -/
theorem constant_cases (b : Builder) (c : Constant) :
    (∃ k, b.proto.constants[k]? = some c ∧ b.constant c = (UInt32.ofNat k, b)) ∨
    (c ∉ b.proto.constants ∧ (b.constant c).1 = UInt32.ofNat b.proto.constants.size ∧
      (b.constant c).2.proto.constants = b.proto.constants.push c) := by
  unfold constant
  split
  case h_1 k hk =>
    obtain ⟨hlt, hc, -⟩ := Array.findIdx?_eq_some_iff_getElem.1 hk
    refine .inl ⟨k, ?_, rfl⟩
    rw [Array.getElem?_eq_getElem hlt, of_decide_eq_true hc]
  case h_2 hnone =>
    refine .inr ⟨fun hmem => ?_, rfl, rfl⟩
    exact absurd (Array.findIdx?_eq_none_iff.1 hnone c hmem) (by simp)

/-- The index of a constant stands for a position where the constant is. -/
theorem exists_position_constant (b : Builder) (c : Constant) :
    ∃ k, (b.constant c).1 = UInt32.ofNat k ∧ k < (b.constant c).2.proto.constants.size ∧
      (b.constant c).2.proto.constants[k]? = some c := by
  obtain ⟨k, hk, heq⟩ | ⟨-, hindex, hpool⟩ := b.constant_cases c
  · rw [heq]
    exact ⟨k, rfl, (Array.getElem?_eq_some_iff.1 hk).1, hk⟩
  · refine ⟨_, hindex, ?_, ?_⟩
    · rw [hpool, Array.size_push]
      exact Nat.lt_succ_self _
    · rw [hpool, Array.getElem?_push_size]

theorem interning_new (source : String) : (new source).Interning := List.nodup_nil

theorem Interning.apply (h : b.Interning) (s : Step) : (b.apply s).Interning := by
  cases s with
  | constant c =>
    obtain ⟨k, -, heq⟩ | ⟨hc, -, hpool⟩ := b.constant_cases c
    · rwa [Builder.apply, heq]
    · rw [Interning, Builder.apply, hpool, Array.toList_push]
      refine List.nodup_append.2 ⟨h, List.pairwise_singleton _ c, ?_⟩
      rintro d hd e he rfl
      exact hc (List.mem_singleton.1 he ▸ Array.mem_toList_iff.1 hd)
  | _ => exact h

theorem Interning.after (h : b.Interning) (steps : List Step) : (b.after steps).Interning := by
  induction steps generalizing b with
  | nil => exact h
  | cons s steps ih => exact ih (h.apply s)

/-- A constant stands at one position only. -/
theorem Interning.position_unique (h : b.Interning) {k l : Nat}
    (hk : b.proto.constants[k]? = some c) (hl : b.proto.constants[l]? = some c) : k = l := by
  obtain ⟨hlt, -⟩ := Array.getElem?_eq_some_iff.1 hk
  rw [← Array.getElem?_toList] at hk hl
  exact (List.getElem?_inj hlt h).1 (hk.trans hl.symm)

theorem size_constants_apply_le (b : Builder) (s : Step) :
    (b.apply s).proto.constants.size ≤ b.proto.constants.size + (s.interned b).length := by
  cases s with
  | constant c =>
    obtain ⟨k, -, heq⟩ | ⟨-, -, hpool⟩ := b.constant_cases c
    · rw [Builder.apply, heq]
      exact Nat.le_add_right _ _
    · rw [Builder.apply, hpool, Array.size_push]
      exact Nat.le_refl _
  | _ => exact Nat.le_refl _

/-- As long as positions have 32 bits, an index leads to the constant that was passed. -/
theorem getElem?_interned {steps : List Step} {n : UInt32}
    (hsize : b.proto.constants.size + (b.interned steps).length ≤ 0x100000000)
    (h : (c, n) ∈ b.interned steps) : (b.after steps).proto.constants[n.toNat]? = some c := by
  induction steps generalizing b with
  | nil => exact absurd h List.not_mem_nil
  | cons s steps ih =>
    rw [interned, List.length_append] at hsize
    have hle := b.size_constants_apply_le s
    obtain h | h := List.mem_append.1 h
    · -- the step that passes the constant; later ones keep it
      cases s with
      | constant d =>
        obtain ⟨rfl, rfl⟩ := Prod.mk.inj (List.mem_singleton.1 h)
        obtain ⟨k, hindex, hlt, hk⟩ := b.exists_position_constant c
        rw [Builder.apply] at hle
        rw [hindex, UInt32.toNat_ofNat_of_lt' (by rw [UInt32.size]; omega)]
        exact ((b.constant c).2.extends_after steps).constants hk
      | _ => exact absurd h List.not_mem_nil
    · exact ih (by omega) h

/-- **Interning is exact.**  If steps pass fewer than 2^32 constants, the index of each one leads to
an identical constant in the pool, two of them get the same index exactly if they are identical, and
no two constants of the pool are.  An integer and a float are never identical, nor are the two
zeros, although they are raw-equal; a float is identical to itself, even a NaN. -/
theorem interned_exact (source : String) (steps : List Step)
    (h : ((new source).interned steps).length < 0x100000000) :
    let pool := ((new source).after steps).proto.constants
    (∀ c n, (c, n) ∈ (new source).interned steps →
      ∃ d, pool[n.toNat]? = some d ∧ d.Identical c) ∧
    (∀ c n d m, (c, n) ∈ (new source).interned steps → (d, m) ∈ (new source).interned steps →
      (n = m ↔ c.Identical d)) ∧
    pool.toList.Pairwise (fun c d => ¬ c.Identical d) ∧
    (∀ i x, ¬ (Constant.number (.int i)).Identical (.number (.float x))) ∧
    ¬ (Constant.number (.float (.zero false))).Identical (.number (.float (.zero true))) ∧
    (∀ x, (Constant.number (.float x)).Identical (.number (.float x))) := by
  intro pool
  have hindex : ∀ c n, (c, n) ∈ (new source).interned steps → pool[n.toNat]? = some c :=
    fun c n hmem => getElem?_interned
      (Nat.le_of_lt ((Nat.zero_add _).symm ▸ h)) hmem
  have hpool : ((new source).after steps).Interning := (interning_new source).after steps
  refine ⟨fun c n hc => ⟨c, hindex c n hc, Constant.identical_iff.2 rfl⟩, ?_, ?_, ?_, ?_, ?_⟩
  · intro c n d m hc hd
    rw [Constant.identical_iff]
    constructor
    · rintro rfl
      exact Option.some.inj ((hindex c n hc).symm.trans (hindex d n hd))
    · rintro rfl
      exact UInt32.toNat_inj.1 (hpool.position_unique (hindex c n hc) (hindex c m hd))
  · exact List.Pairwise.imp (fun hne hid => hne (Constant.identical_iff.1 hid)) hpool
  · exact fun _ _ => id
  · decide
  · exact fun _ => rfl

theorem interned_exact_numbers :
    let number (n : Number) : Step := .constant (.number n)
    let steps : List Step :=
      [number (.int 1), number (.float (.ofInt 1)), .upvalue (.register 0),
        number (.float (.zero false)), number (.float (.zero true)), number (.float .nan),
        .emit (.abc .ret 0 1 0), number (.float .nan), number (.int 1)]
    let b := new "t"
    (b.interned steps).length < 0x100000000 ∧
    (b.interned steps).map (·.2) = [0, 1, 2, 3, 4, 4, 0] ∧
    (b.after steps).proto.constants.toList.Pairwise (fun c d => ¬ c.Identical d) :=
  ⟨by decide +kernel, by decide +kernel, (interned_exact "t" _ (by decide +kernel)).2.2.1⟩

/-! ### All pools -/

/-- The instruction at a position after a step, from the one before it. -/
def Step.patched (pc : Nat) (i : Instruction) : Step → Instruction
  | .patch target j => if target = pc then j else i
  | _ => i

/-- The instruction at a position after some steps: the last one that they put there, or else the
one before them. -/
def lastPatched (pc : Nat) (i : Instruction) : List Step → Instruction
  | [] => i
  | s :: steps => lastPatched pc (s.patched pc i) steps

theorem code_constant (b : Builder) (c : Constant) :
    (b.constant c).2.proto.code = b.proto.code := by
  unfold constant
  split <;> rfl

theorem getElem?_code_apply {i : Instruction} (h : b.proto.code[pc]? = some i) (s : Step) :
    (b.apply s).proto.code[pc]? = some (s.patched pc i) := by
  cases s with
  | emit j => exact getElem?_push_of_some h
  | patch target j =>
    obtain ⟨hlt, -⟩ := Array.getElem?_eq_some_iff.1 h
    rw [Builder.apply, patch, Array.getElem?_setIfInBounds, Step.patched]
    split
    case isTrue htarget => rw [htarget, if_pos hlt]
    case isFalse => exact h
  | constant c => exact (congrArg (·[pc]?) (b.code_constant c)).trans h
  | _ => exact h

theorem getElem?_code_after {i : Instruction} (h : b.proto.code[pc]? = some i)
    (steps : List Step) : (b.after steps).proto.code[pc]? = some (lastPatched pc i steps) := by
  induction steps generalizing b i with
  | nil => exact h
  | cons s steps ih => exact ih (getElem?_code_apply h s)

/-- **Items stay where they are put**, whatever steps follow; an instruction may be patched.  The
number that a builder gives for a constant or a nested function is its position as long as that has
32 bits, and the number for an upvalue as long as it has eight bits. -/
theorem item_stays (source : String) (before later : List Step) :
    let b := (new source).after before
    (∀ i, ((b.emit i).2.after later).proto.code[(b.emit i).1]? =
      some (lastPatched (b.emit i).1 i later)) ∧
    (∀ c, ∃ k, (b.constant c).1 = UInt32.ofNat k ∧
      ((b.constant c).2.after later).proto.constants[k]? = some c ∧
      (((b.constant c).2.after later).proto.constants[(b.constant c).1.toNat]? = some c ↔
        k < 0x100000000)) ∧
    (∀ u, ((b.upvalue u).2.after later).proto.upvalues[b.proto.upvalues.size]? = some u ∧
      ((b.upvalue u).1.toNat = b.proto.upvalues.size ↔ b.proto.upvalues.size < 0x100)) ∧
    (∀ p, ((b.nested p).2.after later).proto.protos[b.proto.protos.size]? = some p ∧
      ((b.nested p).1.toNat = b.proto.protos.size ↔ b.proto.protos.size < 0x100000000)) := by
  intro b
  refine ⟨fun i => ?_, fun c => ?_, fun u => ⟨?_, ?_⟩, fun p => ⟨?_, ?_⟩⟩
  · exact getElem?_code_after Array.getElem?_push_size later
  · obtain ⟨k, hindex, -, hk⟩ := b.exists_position_constant c
    have hlater := ((b.constant c).2.extends_after later).constants hk
    refine ⟨k, hindex, hlater, ?_⟩
    have hpool : ((b.constant c).2.after later).Interning :=
      (((interning_new source).after before).apply (.constant c)).after later
    rw [hindex, UInt32.toNat_ofNat']
    constructor
    · intro h
      rw [hpool.position_unique hlater h]
      exact Nat.mod_lt _ (by decide)
    · intro h
      rwa [Nat.mod_eq_of_lt h]
  · exact ((b.upvalue u).2.extends_after later).upvalues Array.getElem?_push_size
  · rw [upvalue, UInt8.toNat_ofNat']
    exact Nat.mod_eq_iff_lt (by decide)
  · exact ((b.nested p).2.extends_after later).protos Array.getElem?_push_size
  · rw [nested, UInt32.toNat_ofNat']
    exact Nat.mod_eq_iff_lt (by decide)

/-- **The number of an upvalue may be that of another one**: the upvalue behind 256 others gets the
number 0. -/
theorem upvalue_index_wraps :
    let b := (new "t").after (List.replicate 256 (.upvalue (.register 0)))
    let u := UpvalueSource.enclosing 0
    (b.upvalue u).1 = 0 ∧ (b.upvalue u).2.proto.upvalues[0]? = some (.register 0) ∧
    (b.upvalue u).2.proto.upvalues[(b.upvalue u).1.toNat]? ≠ some u := by
  decide +kernel

end Builder

end LuaBytecode
