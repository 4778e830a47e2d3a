import ObjectHeap.Table.Probe

/-!
# Changing a table

An insertion first makes sure that after it at most three quarters of the buckets are in use. It
does so before it knows whether the key is there already, hence replacing a value can make a table
grow, too. Growing doubles the number of buckets, puts every entry at its place in the new array and
leaves the tombstones behind.

Deletion and pruning turn entries into tombstones: they lower `size` and leave `used` as it is. An
insertion that takes the place of a tombstone raises `size` alone, since the bucket was counted
before.
-/

set_option autoImplicit false

namespace ObjectHeap

/-- The bucket is an entry whose key is not to be kept. -/
def Bucket.isStale (keep : Symbol → Bool) : Bucket → Bool
  | .entry key _ => !keep key
  | .empty | .tombstone => false

namespace Table

/-- The least number of buckets of a table that has any. -/
def leastCapacity : Nat := 8

/-- The number of buckets after growing. -/
def grown (capacity : Nat) : Nat :=
  if capacity < leastCapacity then leastCapacity else capacity * 2

theorem lt_grown (capacity : Nat) : capacity < grown capacity := by
  unfold grown leastCapacity
  split <;> omega

/-- More than three quarters of the buckets are in use. -/
def overloaded (used capacity : Nat) : Bool := used * 4 > capacity * 3

/-- Puts an entry at its place in an array that does not hold its key. -/
def settle (buckets : Array Bucket) (key : Symbol) (value : Value) : Array Bucket :=
  match locate? buckets key with
  | some place => buckets.setIfInBounds place.index (.entry key value)
  | none => buckets

/-- The table with its entries in a new array. -/
def rebuild (t : Table) (capacity : Nat) : Table :=
  { t with
    buckets := t.entries.foldl (fun buckets (key, value) => settle buckets key value)
      (Array.replicate capacity .empty)
    used := t.entries.length }

/-- Makes room for one more key. -/
def reserve (t : Table) : Table :=
  if overloaded (t.used + 1) t.capacity then t.rebuild (grown t.capacity) else t

/-- Binds a key to a value. Also answers whether the key is new. -/
def insert (t : Table) (key : Symbol) (value : Value) : Table × Bool :=
  let t := t.reserve
  let put (index : Nat) := t.buckets.setIfInBounds index (.entry key value)
  match locate? t.buckets key with
  | some (.held index _) => ({ t with buckets := put index }, false)
  | some (.reusable index) => ({ t with buckets := put index, size := t.size + 1 }, true)
  | some (.vacant index) =>
    ({ buckets := put index, used := t.used + 1, size := t.size + 1 }, true)
  | none => (t, false)

/-- Removes a key. Also answers whether it was there. -/
def erase (t : Table) (key : Symbol) : Table × Bool :=
  match locate? t.buckets key with
  | some (.held index _) =>
    ({ t with buckets := t.buckets.setIfInBounds index .tombstone, size := t.size - 1 }, true)
  | _ => (t, false)

/-- Inserts every entry of another table, in the order of its buckets. -/
def merge (t other : Table) : Table :=
  other.entries.foldl (fun t (key, value) => (t.insert key value).1) t

/-- Removes every key that is not to be kept. Also answers how many there were. -/
def prune (t : Table) (keep : Symbol → Bool) : Table × Nat :=
  let removed := t.buckets.countP (Bucket.isStale keep)
  ({ t with
      buckets := t.buckets.map fun b => if b.isStale keep then .tombstone else b
      size := t.size - removed }, removed)

/-- The growths that lead from one number of buckets to another: each is the number before and the
number after. -/
def growthSteps (small large : Nat) : List (Nat × Nat) :=
  if small < large then (small, grown small) :: growthSteps (grown small) large else []
termination_by large - small
decreasing_by
  have := lt_grown small
  omega

end Table

end ObjectHeap
