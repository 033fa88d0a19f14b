import LuaBytecode.Fault
import LuaBytecode.Table.Snapshot

/-!
# Tables

A `Table` keeps the entries of the keys `1`, …, `n` in its array part and all others in its
fields.  The array part never ends in nil, although it may have holes, and the fields never hold
the key just past it; so its size is a border of the table.

* `Table.get` and `Table.set` read and write an entry; writing nil removes it.
* `Table.next` steps through the entries in the order of a snapshot of the keys, which is taken
  when a traversal starts after a write.  Entries that have gone since are passed over, and keys
  that are new since are not visited.
-/

namespace LuaBytecode

/-- The entries of a table outside its array part. -/
abbrev Fields := Std.TreeMap Key Value Key.order

/-- A table. -/
structure Table where
  /-- The values of the keys from 1 on. -/
  array : Array Value := #[]
  /-- All other entries. -/
  fields : Fields := ∅
  metatable : Option TableRef := none
  /-- The last snapshot of the keys. -/
  snapshot : Option Table.Snapshot := none
  /-- The table was written since the last snapshot. -/
  dirty : Bool := false

namespace Table

instance : Inhabited Table := ⟨{}⟩

/-- An empty table with room for a number of entries in each part; room never shows. -/
def withCapacity (slots _fields : Nat) : Table := { array := Array.emptyWithCapacity slots }

/-- The key of a position, which must be a 64-bit integer. -/
def positionKey? (n : Nat) : Option Key :=
  if n < 0x8000000000000000 then some (.int (Int64.ofNat n)) else none

/-! ### Reading -/

/-- The entry of an integer. -/
def getInt (t : Table) (n : Int64) : Value :=
  let i := n.toInt
  if 1 ≤ i ∧ i ≤ t.array.size then t.array.getD (i.toNat - 1) .nil
  else t.fields.getD (.int n) .nil

/-- The entry of a key. -/
def getKey (t : Table) : Key → Value
  | .int n => t.getInt n
  | k => t.fields.getD k .nil

/-- The entry of a value; nil and NaN have none. -/
def get (t : Table) (key : Value) : Value :=
  match Key.ofValue? key with
  | some k => t.getKey k
  | none => .nil

/-- The border that the array part gives. -/
def length (t : Table) : Nat := t.array.size

/-- The number of entries outside the array part. -/
def fieldCount (t : Table) : Nat := t.fields.size

/-- There is no entry at all. -/
def isEmpty (t : Table) : Bool := t.array.isEmpty && t.fields.isEmpty

/-! ### Writing -/

/-- Move the entry just past the array part, and those that follow it, out of the fields; there
are at most `count` of them. -/
def absorb : Nat → Array Value → Fields → Array Value × Fields
  | 0, array, fields => (array, fields)
  | count + 1, array, fields =>
    match positionKey? (array.size + 1) with
    | none => (array, fields)
    | some k =>
      match fields[k]? with
      | some v => absorb count (array.push v) (fields.erase k)
      | none => (array, fields)

/-- Write a field. -/
def setField (t : Table) (k : Key) (v : Value) : Table :=
  if v.isNil then { t with fields := t.fields.erase k }
  else { t with fields := t.fields.insert k v }

/-- Write within the array part, which gives up the nils at its end. -/
def setSlot (t : Table) (i : Nat) (v : Value) : Table :=
  let array := t.array.setIfInBounds i v
  if i + 1 = array.size ∧ v.isNil then { t with array := array.popWhile Value.isNil }
  else { t with array }

/-- Write just past the array part: a value extends it, and draws in the fields that follow. -/
def extend (t : Table) (k : Key) (v : Value) : Table :=
  let fields := t.fields.erase k
  if v.isNil then { t with fields }
  else
    let (array, fields) := absorb fields.size (t.array.push v) fields
    { t with array, fields }

/-- Write the entry of a key. -/
def setKey (t : Table) (k : Key) (v : Value) : Table :=
  match k with
  | .int n =>
    let i := n.toInt
    if 1 ≤ i ∧ i ≤ t.array.size then t.setSlot (i.toNat - 1) v
    else if i = t.array.size + 1 then t.extend k v
    else t.setField k v
  | k => t.setField k v

/-- Write an entry that has a key. -/
def put (t : Table) (k : Key) (v : Value) : Table := { t with dirty := true }.setKey k v

/-- Write the entry of an integer. -/
def setInt (t : Table) (n : Int64) (v : Value) : Table := t.put (.int n) v

/-- Write the entry of a string. -/
def setString (t : Table) (s : String) (v : Value) : Table := t.put (.string s) v

/-- Why a value is no key. -/
def keyFault (key : Value) : Cause := if key.isNil then .nilKey else .nanKey

/-- Write an entry; nil and NaN are no keys. -/
def set (t : Table) (key v : Value) : Except Cause Table :=
  match Key.ofValue? key with
  | some k => .ok (t.put k v)
  | none => .error (keyFault key)

/-! ### Traversal -/

/-- The positions of the values that are not nil. -/
def positions : Nat → List Value → List Key
  | _, [] => []
  | n, v :: vs =>
    let rest := positions (n + 1) vs
    if v.isNil then rest else .int (Int64.ofNat n) :: rest

/-- The keys of all entries: the array part in order, then the fields. -/
def keys (t : Table) : List Key := positions 1 t.array.toList ++ t.fields.keys

/-- Take a snapshot of the keys. -/
def renew (t : Table) : Table := { t with snapshot := some { keys := t.keys }, dirty := false }

/-- The last snapshot; one without keys if there is none. -/
def lastSnapshot (t : Table) : Snapshot := t.snapshot.getD { keys := [] }

/-- The first of some keys that still has an entry, with its value. -/
def firstEntry (t : Table) : List Key → Option (Value × Value)
  | [] => none
  | k :: ks =>
    let v := t.getKey k
    if v.isNil then t.firstEntry ks else some (k.toValue, v)

/-- The entry behind a key in the traversal, and the table with the snapshot in use; nil starts
a traversal. -/
def next (t : Table) (key : Value) : Except Complaint (Option (Value × Value)) × Table :=
  match key, Key.ofValue? key with
  | .nil, _ =>
    let t := if t.snapshot.isNone || t.dirty then t.renew else t
    (.ok (t.firstEntry t.lastSnapshot.keys), t)
  | _, none => (.error .staleKey, t)
  | _, some k =>
    let t := if t.snapshot.isNone then t.renew else t
    match t.lastSnapshot.behind? k with
    | none => (.error .staleKey, t)
    | some ks => (.ok (t.firstEntry ks), t)

/-- The entry of the integer that follows; nil comes before 1. -/
def inext (t : Table) (key : Value) : Option (Value × Value) := do
  let i ← if key.isNil then some 0 else key.toInt?
  if i = Int64.maxValue then none
  let v := t.getInt (i + 1)
  if v.isNil then none else some (.int (i + 1), v)

end Table

end LuaBytecode
