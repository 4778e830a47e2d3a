import ObjectHeap.Fault
import ObjectHeap.Object

/-!
# The heap

Objects live in numbered slots. An object stays in its slot from its allocation until a collection
releases it; then the slot is empty and its number goes on the free stack, from which the next
allocation takes it. So a reference can outlive its object, and what it means is whatever its slot
holds now. Following it fails if the slot is empty or the kinds differ. To change an object is to
follow a reference to it first, so a change fails in the same cases.

Every slot number that the heap hands out is below the number of slots, which never falls. Slots
beyond them are treated as empty ones.
-/

set_option autoImplicit false

namespace ObjectHeap

/-- When collections are due. -/
structure Policy where
  /-- The threshold of a new heap, below which no later threshold falls. -/
  initialThreshold : Nat := 1048576
  /-- After a collection the threshold is the surviving bytes times this factor. -/
  growthFactor : Nat := 2
  /-- A collection is always due. -/
  stress : Bool := false
  deriving DecidableEq, Repr

/-- An occupied slot. -/
structure Cell where
  object : Object
  /-- The bytes charged at the allocation, which are given back at the release. -/
  charge : Nat
  /-- The current collection, or the preparation of the next, has reached the object. -/
  marked : Bool := false
  deriving DecidableEq, Repr

structure Heap where
  policy : Policy
  cells : Array (Option Cell) := #[]
  /-- The empty slots, those released last first. -/
  free : List Nat := []
  /-- The marked objects whose references have not been marked yet, the last marked first. -/
  grey : List Nat := []
  /-- The interned strings. Its values mean nothing, and its keys keep nothing alive. -/
  strings : Table := ∅
  /-- The sum of all charges. -/
  bytes : Nat := 0
  /-- The bytes above which a collection is due. -/
  threshold : Nat
  /-- The number of completed collections. -/
  cycles : Nat := 0
  deriving DecidableEq, Repr

namespace Heap

/-- The heap without objects. -/
def new (policy : Policy) : Heap := { policy, threshold := policy.initialThreshold }

/-! ## Looking at slots -/

/-- What a slot holds. -/
def cell? (h : Heap) (slot : Nat) : Option Cell := h.cells[slot]?.join

/-- The object in a slot. -/
def object? (h : Heap) (slot : Nat) : Option Object := (h.cell? slot).map Cell.object

/-- Whether the slot of a reference holds anything. -/
def contains {k : Kind} (h : Heap) (r : Ref k) : Bool := (h.cell? r.slot).isSome

/-- The number of objects. -/
def objectCount (h : Heap) : Nat := h.cells.countP Option.isSome

/-- What the object in a slot was charged. -/
def chargeAt (h : Heap) (slot : Nat) : Nat := ((h.cell? slot).map Cell.charge).getD 0

/-- What the objects in several slots were charged together. -/
def chargesAt (h : Heap) : (slots : List Nat) → Nat
  | [] => 0
  | slot :: rest => h.chargeAt slot + h.chargesAt rest

/-- A collection should come before the next allocation. -/
def due (h : Heap) : Bool := h.policy.stress || h.bytes > h.threshold

/-! ## Following references -/

/-- The object that a reference refers to. -/
def deref {k : Kind} (h : Heap) (r : Ref k) : Except Fault k.Payload :=
  match h.object? r.slot with
  | none => .error (.dangling r.slot)
  | some (.box _) => .error .boxed
  | some o =>
    match o.as? k with
    | some p => .ok p
    | none => .error (.dangling r.slot)

/-- Puts another object into the slot of a reference, in place of whatever is there. What that was
charged stays. -/
def replace {k : Kind} (h : Heap) (r : Ref k) (p : k.Payload) : Heap :=
  { h with cells := h.cells.modify r.slot (Option.map fun c => { c with object := .of k p }) }

/-- Opens the object that a reference refers to for a change. Answers what it is, and the heap with
another object in its place. -/
def access {k : Kind} (h : Heap) (r : Ref k) : Except Fault (k.Payload × (k.Payload → Heap)) := do
  let p ← h.deref r
  return (p, h.replace r)

/-- The text of a symbol. -/
def textOf (h : Heap) (s : Symbol) : Except Fault String := do
  let str ← h.deref s.str
  return str.text

end Heap

end ObjectHeap
