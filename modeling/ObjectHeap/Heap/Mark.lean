import ObjectHeap.Heap.Basic
import ObjectHeap.Journal

/-!
# Marking

An object is *white* until it is marked. Marking a white object also puts it on the grey stack, from
which tracing takes it to mark what it refers to. Marking anything else changes nothing: an object
that is marked already has been on the stack, and an empty slot has nothing to mark. So an object is
put on the stack once at most, and tracing ends. What makes this precise is `pending`, the number of
objects that are white or grey: marking keeps it, and every step of tracing lowers it by one.
-/

set_option autoImplicit false

namespace ObjectHeap

/-- The slot holds an object that has not been marked. -/
def Cell.isWhite : Option Cell → Bool
  | some c => !c.marked
  | none => false

namespace Heap

/-- The slot holds an object that has not been marked. -/
def isWhite (h : Heap) (slot : Nat) : Bool := Cell.isWhite (h.cell? slot)

/-- The slot holds an object that has been marked. -/
def isMarked (h : Heap) (slot : Nat) : Bool := (h.cell? slot).any Cell.marked

/-- Marks the object in a slot. -/
def mark (h : Heap) (slot : Nat) : Heap :=
  match h.cell? slot with
  | some c =>
    if c.marked then h
    else
      { h with
        cells := h.cells.setIfInBounds slot (some { c with marked := true })
        grey := slot :: h.grey }
  | none => h

/-- Marks the objects in several slots, one after the other. -/
def markAll (h : Heap) (slots : List Nat) : Heap := slots.foldl mark h

/-- Marks the object that a value refers to. -/
def markValue (h : Heap) (v : Value) : Heap := h.markAll v.target?.toList

/-- Marks the keys and the values of a table. -/
def markTable (h : Heap) (t : Table) : Heap := h.markAll t.targets

/-- Something that can be marked: an object, what a value refers to, or all that a table refers to.
-/
inductive Root
  | object {k : Kind} (r : Ref k)
  | value (v : Value)
  | table (t : Table)

/-- The slots of a root, in the order in which they are marked. -/
def Root.slots : Root → List Nat
  | .object r => [r.slot]
  | .value v => v.target?.toList
  | .table t => t.targets

def markRoot (h : Heap) : Root → Heap
  | .object r => h.mark r.slot
  | .value v => h.markValue v
  | .table t => h.markTable t

/-- Marks several roots, one after the other. -/
def markRoots (h : Heap) (roots : List Root) : Heap := roots.foldl markRoot h

/-- The marks that lead from one state of the heap to another: the slots that have been put on the
grey stack in between. -/
def marksSince (before after : Heap) : List Event :=
  ((after.grey.take (after.grey.length - before.grey.length)).reverse).map .marked

/-! ## Tracing -/

/-- Puts an object into a slot or takes it out. -/
def setCell (h : Heap) (slot : Nat) (o : Option Cell) : Heap :=
  { h with cells := h.cells.setIfInBounds slot o }

/-- Marks what the object in a slot refers to. The object is out of its slot meanwhile, so it cannot
mark itself. -/
def blacken (h : Heap) (slot : Nat) : Heap :=
  match h.cell? slot with
  | some c => ((h.setCell slot none).markAll c.object.targets).setCell slot (some c)
  | none => h

/-- The number of white objects. -/
def whiteCount (h : Heap) : Nat := h.cells.countP Cell.isWhite

/-- The number of objects that are white or grey. -/
def pending (h : Heap) : Nat := h.whiteCount + h.grey.length

theorem cell?_lt_size {h : Heap} {slot : Nat} {c : Cell} (hc : h.cell? slot = some c) :
    slot < h.cells.size := by
  rw [cell?, Option.join_eq_some_iff] at hc
  exact (Array.getElem?_eq_some_iff.1 hc).1

theorem whiteCount_setCell {h : Heap} {slot : Nat} (hlt : slot < h.cells.size) (o : Option Cell) :
    (h.setCell slot o).whiteCount + (if Cell.isWhite (h.cell? slot) then 1 else 0) =
      h.whiteCount + if Cell.isWhite o then 1 else 0 := by
  have hcell : h.cell? slot = h.cells[slot] := by
    rw [cell?, Array.getElem?_eq_getElem hlt]
    rfl
  have hpos : Cell.isWhite h.cells[slot] = true → 0 < h.cells.countP Cell.isWhite :=
    fun hw => Array.countP_pos_iff.2 ⟨_, Array.getElem_mem hlt, hw⟩
  rw [hcell, whiteCount, whiteCount, setCell, Array.setIfInBounds_def, dif_pos hlt,
    Array.countP_set]
  split
  · next hw =>
    have := hpos hw
    omega
  · omega

theorem whiteCount_setCell_le (h : Heap) (slot : Nat) (o : Option Cell) :
    (h.setCell slot o).whiteCount ≤ h.whiteCount + if Cell.isWhite o then 1 else 0 := by
  by_cases hlt : slot < h.cells.size
  · exact (whiteCount_setCell hlt o).symm ▸ Nat.le_add_right _ _
  · rw [setCell, Array.setIfInBounds_def, dif_neg hlt]
    exact Nat.le_add_right _ _

theorem whiteCount_set {h : Heap} {slot : Nat} {c : Cell} (hc : h.cell? slot = some c)
    (hw : c.marked = false) :
    (h.setCell slot (some { c with marked := true })).whiteCount + 1 = h.whiteCount := by
  have hset := whiteCount_setCell (cell?_lt_size hc) (some { c with marked := true })
  simpa [Cell.isWhite, hc, hw] using hset

@[simp] theorem pending_mark (h : Heap) (slot : Nat) : (h.mark slot).pending = h.pending := by
  unfold mark
  split
  · next c hc =>
    split
    · rfl
    · next hw =>
      have := whiteCount_set hc (Bool.eq_false_iff.2 hw)
      simp only [pending, whiteCount, setCell, List.length_cons] at this ⊢
      omega
  · rfl

@[simp] theorem pending_markAll (h : Heap) (slots : List Nat) :
    (h.markAll slots).pending = h.pending := by
  induction slots generalizing h with
  | nil => rfl
  | cons slot rest ih => exact (ih (h.mark slot)).trans (pending_mark h slot)

/-- An object that is put back is no more pending than when it was taken out. -/
theorem pending_blacken_le (h : Heap) (slot : Nat) : (h.blacken slot).pending ≤ h.pending := by
  unfold blacken
  split
  · next c hc =>
    have hout := whiteCount_setCell (cell?_lt_size hc) none
    have hmarked := pending_markAll (h.setCell slot none) c.object.targets
    have hback := whiteCount_setCell_le ((h.setCell slot none).markAll c.object.targets) slot
      (some c)
    rw [hc, show Cell.isWhite none = false from rfl, if_neg Bool.false_ne_true] at hout
    simp only [pending, setCell] at hout hmarked hback ⊢
    omega
  · exact Nat.le_refl _

/-- Taking an object off the stack makes up for that. -/
theorem pending_blacken_lt {h : Heap} {slot : Nat} {grey : List Nat} (hg : h.grey = slot :: grey) :
    ({ h with grey }.blacken slot).pending < h.pending := by
  refine Nat.lt_of_le_of_lt (pending_blacken_le _ slot) ?_
  rw [pending, pending, hg]
  exact Nat.lt_succ_self _

/-- Takes objects off the grey stack and marks what they refer to, until the stack is empty. Also
answers what happened. -/
def trace (h : Heap) : Heap × List Event :=
  match hg : h.grey with
  | [] => (h, [])
  | slot :: grey =>
    let taken := { h with grey }
    let blackened := taken.blacken slot
    let (traced, later) := blackened.trace
    (traced, .blackened slot :: marksSince taken blackened ++ later)
termination_by h.pending
decreasing_by
  exact pending_blacken_lt hg

end Heap

end ObjectHeap
