import ObjectHeap.Heap.Mark
import ObjectHeap.Outcome

/-!
# Collection

A collection starts from what has been marked. It traces all that can be reached from there, drops
the interned strings that were not reached, and releases every object that is still white. The
strings are dropped before anything is released, while their cells still tell whether they were
reached: the table of interned strings then never refers to an empty slot.

At the end the threshold of the next collection is set. Only this can fail, after all the work has
been done.
-/

set_option autoImplicit false

namespace ObjectHeap

namespace Heap

/-- The slots of the white objects, in ascending order. -/
def garbage (h : Heap) : List Nat := (List.range h.cells.size).filter h.isWhite

/-- What a sweep leaves in a slot: a marked object, ready for the next collection. -/
def sweptCell : Option Cell → Option Cell
  | some c => if c.marked then some { c with marked := false } else none
  | none => none

/-- Releases the white objects. -/
def sweep (h : Heap) : Heap :=
  { h with
    cells := h.cells.map sweptCell
    free := h.garbage.reverse ++ h.free
    bytes := h.bytes - h.chargesAt h.garbage }

/-- Drops the interned strings that are not marked. Also answers how many. -/
def dropStrings (h : Heap) : Heap × Nat :=
  let (strings, dropped) := h.strings.prune fun key => h.isMarked key.str.slot
  ({ h with strings }, dropped)

/-- The threshold after a collection, unless the surviving bytes times the growth factor do not fit
in a word of 64 bits. -/
def nextThreshold (h : Heap) : Except Fault Nat :=
  let scaled := h.bytes * h.policy.growthFactor
  if scaled < UInt64.size then .ok (max scaled h.policy.initialThreshold)
  else .error .thresholdOverflow

/-- Collects what cannot be reached from the marked objects. -/
def collect (h : Heap) : Outcome Heap := do
  Outcome.report [.cycleBegan]
  let (traced, steps) := h.trace
  Outcome.report steps
  let (pruned, dropped) := traced.dropStrings
  let swept := pruned.sweep
  Outcome.report (pruned.garbage.map .freed)
  let threshold ← swept.nextThreshold
  let done := { swept with cycles := swept.cycles + 1, threshold }
  Outcome.report [.cycleEnded
    { cycle := done.cycles, bytesBefore := h.bytes, bytesAfter := done.bytes,
      stringsDropped := dropped, threshold }]
  return done

end Heap

end ObjectHeap
