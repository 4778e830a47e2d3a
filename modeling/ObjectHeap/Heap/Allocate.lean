import ObjectHeap.Heap.Basic
import ObjectHeap.Outcome

/-!
# Allocation

An object goes into the slot that was released last, or into a new one if no slot is free, and is
charged its footprint and a fixed amount for its cell. Allocation never collects. Those that
allocate on behalf of a program ask `Heap.due` first, because only they know what is in use.
-/

set_option autoImplicit false

namespace ObjectHeap

namespace Heap

/-- The bytes that a cell takes beside its object. -/
def cellBytes : Nat := 32

/-- What an object is charged at its allocation. -/
def chargeOf (o : Object) : Nat := o.footprint + cellBytes

/-- Puts an object into a slot. Also answers which. -/
def place (h : Heap) (o : Object) : Heap × Nat :=
  let cell : Cell := { object := o, charge := chargeOf o }
  let h := { h with bytes := h.bytes + chargeOf o }
  match h.free with
  | slot :: free => ({ h with cells := h.cells.setIfInBounds slot (some cell), free }, slot)
  | [] => ({ h with cells := h.cells.push (some cell) }, h.cells.size)

/-- Allocates an object of the given kind. -/
def allocate (h : Heap) (k : Kind) (p : k.Payload) : Outcome (Heap × Ref k) := do
  let (after, slot) := h.place (.of k p)
  Outcome.report [.allocated slot (chargeOf (.of k p))]
  return (after, ⟨slot⟩)

end Heap

end ObjectHeap
