import ObjectHeap.Table.Probe

/-!
# Searching by content

Before a text is interned there is no symbol for it, so the table of interned strings has to be
searched by content. The walk is that of a key with the same hash. What differs is the test at an
entry: the hashes are compared first, and only if they agree is the key resolved to its text.

Resolving a key can have effects of its own, such as failing, and it runs in whatever monad it
brings along. The search resolves nothing but keys of entries with the given hash.
-/

set_option autoImplicit false

namespace ObjectHeap

namespace Table

/-- The search for a text from a bucket onwards, for at most `steps` buckets. -/
def findFrom {m : Type → Type} [Monad m] (buckets : Array Bucket) (text : String) (hash : UInt32)
    (resolve : Symbol → m String) : (steps index : Nat) → m (Option Symbol)
  | 0, _ => pure none
  | steps + 1, index =>
    match buckets[index]? with
    | none | some .empty => pure none
    | some .tombstone => findFrom buckets text hash resolve steps (next buckets.size index)
    | some (.entry key _) => do
      if key.hash = hash then
        if (← resolve key) = text then return some key
      findFrom buckets text hash resolve steps (next buckets.size index)

/-- The first key on the way from the hash's home bucket that has this hash and this text. -/
def findText? {m : Type → Type} [Monad m] (t : Table) (text : String) (hash : UInt32)
    (resolve : Symbol → m String) : m (Option Symbol) :=
  findFrom t.buckets text hash resolve t.capacity (home t.capacity hash)

end Table

end ObjectHeap
