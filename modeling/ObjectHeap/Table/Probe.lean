import ObjectHeap.Table.Basic

/-!
# Probing

A search starts at the home bucket of a hash and goes on bucket by bucket, around the end of the
array, until it meets the key or an empty bucket. On the way it remembers the first tombstone. If
the key is absent, this is where it should be put, so that the place of a deleted entry is used
again; but the search may not stop there, since the key itself can still follow.

A search makes at most as many steps as there are buckets. It takes all of them without an answer
only in an array without an empty bucket, and a table is kept from ever becoming one.
-/

set_option autoImplicit false

namespace ObjectHeap

/-- Where the search for a key ends. -/
inductive Place
  /-- The key is in this bucket, with this value. -/
  | held (index : Nat) (value : Value)
  /-- The key is absent, and this is the first tombstone that was passed. -/
  | reusable (index : Nat)
  /-- The key is absent, no tombstone was passed, and this is the empty bucket. -/
  | vacant (index : Nat)
  deriving DecidableEq, Repr

namespace Place

/-- The bucket of a place. -/
def index : Place → Nat
  | .held i _ | .reusable i | .vacant i => i

/-- The place of an absent key, given the first tombstone passed and the empty bucket. -/
def absent (spare : Option Nat) (index : Nat) : Place :=
  match spare with
  | some i => .reusable i
  | none => .vacant index

end Place

namespace Table

/-- The bucket at which a search for a key with this hash starts. -/
def home (capacity : Nat) (hash : UInt32) : Nat := hash.toNat % capacity

/-- The bucket after the given one, which for the last is the first. -/
def next (capacity index : Nat) : Nat := (index + 1) % capacity

/-- The search for a key from a bucket onwards, for at most `steps` buckets. The first tombstone
passed so far is `spare`. -/
def locateFrom (buckets : Array Bucket) (key : Symbol) :
    (steps index : Nat) → (spare : Option Nat) → Option Place
  | 0, _, _ => none
  | steps + 1, index, spare =>
    match buckets[index]? with
    | none => none
    | some .empty => some (.absent spare index)
    | some .tombstone =>
      locateFrom buckets key steps (next buckets.size index) (spare.or (some index))
    | some (.entry k v) =>
      if k = key then some (.held index v)
      else locateFrom buckets key steps (next buckets.size index) spare

/-- The place of a key: where it is, or where it should be put. -/
def locate? (buckets : Array Bucket) (key : Symbol) : Option Place :=
  locateFrom buckets key buckets.size (home buckets.size key.hash) none

/-- The value of a key. -/
def get? (t : Table) (key : Symbol) : Option Value :=
  match locate? t.buckets key with
  | some (.held _ value) => some value
  | _ => none

end Table

end ObjectHeap
