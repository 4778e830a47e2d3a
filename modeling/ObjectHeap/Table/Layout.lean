import ObjectHeap.Table.Update

/-!
# The layout of a table

What is true of every table that can be made, and what its operations rely on. Two of the clauses
are about searches. There is always an empty bucket, so a search ends. And no empty bucket lies
between the home bucket of a key and the bucket that holds it, so a search does not end too early.
The second is the delicate one: it speaks about a stretch of the array that can wrap around, and it
is the reason why deletion leaves tombstones.

Beside the layout stands the plain reading of a table, `Table.lookup`, which knows nothing of homes
and searches and just looks through the entries.
-/

set_option autoImplicit false

namespace ObjectHeap

namespace Table

/-- The bucket that a search for a hash looks at after so many steps. -/
def probe (capacity : Nat) (hash : UInt32) (steps : Nat) : Nat :=
  (home capacity hash + steps) % capacity

/-- A bucket is the entry of a key, with this value. -/
def HoldsAt (t : Table) (index : Nat) (key : Symbol) (value : Value) : Prop :=
  t.buckets[index]? = some (.entry key value)

/-- The value of a key, found by looking through all entries. -/
def lookup (t : Table) (key : Symbol) : Option Value := t.entries.lookup key

structure Layout (t : Table) : Prop where
  /-- The number of buckets is zero, or the least number doubled some number of times. -/
  capacity_eq : t.capacity = 0 ∨ ∃ doublings, t.capacity = leastCapacity * Nat.pow 2 doublings
  /-- The count of used buckets is right. -/
  used_eq : t.used = t.buckets.countP fun b => !b.isEmpty
  /-- The count of entries is right. -/
  size_eq : t.size = t.buckets.countP Bucket.isEntry
  /-- At most three quarters of the buckets are used. -/
  load : 4 * t.used ≤ 3 * t.capacity
  /-- A key is in one bucket at most. -/
  distinct : ∀ i j key v w, t.HoldsAt i key v → t.HoldsAt j key w → i = j
  /-- A search for a key comes to its bucket before it comes to an empty one. -/
  reached : ∀ i key v, t.HoldsAt i key v → ∃ steps < t.capacity,
    probe t.capacity key.hash steps = i ∧
    ∀ earlier < steps, t.buckets[probe t.capacity key.hash earlier]? ≠ some .empty

/-- The tables that can be made from the empty one. -/
inductive Built : Table → Prop
  | empty : Built ∅
  | insert {t : Table} (key : Symbol) (value : Value) : Built t → Built (t.insert key value).1
  | erase {t : Table} (key : Symbol) : Built t → Built (t.erase key).1
  | merge {t other : Table} : Built t → Built other → Built (t.merge other)
  | prune {t : Table} (keep : Symbol → Bool) : Built t → Built (t.prune keep).1

end Table

end ObjectHeap
