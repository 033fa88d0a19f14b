import LuaBytecode.Table.Key
import Std.Data.TreeMap

/-!
# Traversal snapshots

A traversal of a table runs through a `Snapshot` of its keys, one key at a time, and each step
starts from nothing but the last key.  So a snapshot finds the keys behind a key without a
search through the list.

* `Table.Snapshot.behind?_eq`: the keys found behind a key are those that follow it in the list.
-/

namespace LuaBytecode.Table

/-- The keys that follow the first occurrence of a key. -/
def keysAfter (k : Key) : List Key → Option (List Key)
  | [] => none
  | k' :: ks => if k' = k then some ks else keysAfter k ks

/-- For each of some keys, the keys that follow it. -/
def tails : List Key → Std.TreeMap Key (List Key) Key.order
  | [] => ∅
  | k :: ks => (tails ks).insert k ks

theorem getElem?_tails (k : Key) (ks : List Key) : (tails ks)[k]? = keysAfter k ks := by
  induction ks with
  | nil => simp only [tails, keysAfter, Std.TreeMap.getElem?_emptyc]
  | cons k' ks ih =>
    simp only [tails, keysAfter, Std.TreeMap.getElem?_insert, ih,
      Std.LawfulEqCmp.compare_eq_iff_eq]

/-- The keys of a table in traversal order. -/
structure Snapshot where
  keys : List Key
  /-- The keys behind each key. -/
  followers : Std.TreeMap Key (List Key) Key.order := tails keys
  followers_eq : followers = tails keys := by rfl

namespace Snapshot

/-- The keys behind a key, if it is there. -/
def behind? (s : Snapshot) (k : Key) : Option (List Key) := s.followers[k]?

theorem behind?_eq (s : Snapshot) (k : Key) : s.behind? k = keysAfter k s.keys := by
  rw [behind?, s.followers_eq, getElem?_tails]

end Snapshot

end LuaBytecode.Table
