import ObjectHeap.Value

/-!
# Tables

A table is a finite map from symbols to values, kept in one array of buckets. A key is looked for
from its home bucket onwards, wrapping around at the end of the array (`Table/Probe`). A bucket that
has never been used ends the search. A deleted entry therefore may not become an unused bucket
again: it leaves a tombstone, which the search passes.

Two counts are kept. `size` is the number of entries. `used` is the number of entries and
tombstones, and it is the one that decides when the table must grow, because it is the unused
buckets that end a search.
-/

set_option autoImplicit false

namespace ObjectHeap

inductive Bucket
  /-- Never used since the array was made. Ends a search. -/
  | empty
  /-- Held an entry once. A search goes on past it. -/
  | tombstone
  | entry (key : Symbol) (value : Value)
  deriving DecidableEq, Repr, Inhabited

namespace Bucket

def isEmpty : Bucket → Bool
  | .empty => true
  | .tombstone | .entry .. => false

def isEntry : Bucket → Bool
  | .entry .. => true
  | .empty | .tombstone => false

/-- The key and the value of an entry. -/
def binding? : Bucket → Option (Symbol × Value)
  | .entry key value => some (key, value)
  | .empty | .tombstone => none

end Bucket

structure Table where
  buckets : Array Bucket := #[]
  /-- The number of buckets that are not empty. -/
  used : Nat := 0
  /-- The number of entries. -/
  size : Nat := 0
  deriving DecidableEq, Repr, Inhabited

namespace Table

/-- The table without entries, which has no buckets either. -/
def empty : Table := {}

instance : EmptyCollection Table := ⟨empty⟩

/-- The number of buckets. -/
def capacity (t : Table) : Nat := t.buckets.size

def isEmpty (t : Table) : Bool := t.size == 0

/-- The entries in the order of their buckets. -/
def entries (t : Table) : List (Symbol × Value) := t.buckets.toList.filterMap Bucket.binding?

/-- The slots that the entries of a table refer to: of each its key and then, if it is a reference,
its value. -/
def targets (t : Table) : List Nat :=
  t.entries.flatMap fun (key, value) => key.str.slot :: value.target?.toList

end Table

end ObjectHeap
