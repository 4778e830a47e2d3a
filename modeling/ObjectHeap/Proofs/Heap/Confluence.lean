import ObjectHeap.Proofs.Heap.Collection
import ObjectHeap.Proofs.Heap.Ledger

/-!
# A collection depends on what can be reached alone

Roots can be marked in any order, more than once, as objects, as values or as tables, and the grey
stack comes out different each time. Tracing then takes objects off it in another order, and each is
out of its slot while others are in theirs. None of this is left in the end: tracing is done when
the stack is empty, and by then exactly what can be reached is marked. Since nothing but marks and
the stack has changed, the traced heaps are equal (`Repainted.eq_of_isMarked`), and so is all that
is made from them, down to the order of the free slots.
-/

set_option autoImplicit false

namespace ObjectHeap

namespace Heap

variable {h g g' : Heap} {policy : Policy} {overwrites : Bool}

/-! ## Heaps slot by slot -/

theorem cells_ext (hsize : g.cells.size = h.cells.size)
    (hcell : ∀ slot, g.cell? slot = h.cell? slot) : g.cells = h.cells := by
  refine Array.ext hsize fun slot hg hh => ?_
  have hslot := hcell slot
  rwa [cell?, cell?, Array.getElem?_eq_getElem hg, Array.getElem?_eq_getElem hh] at hslot

/-- A slot is told by what it holds apart from the mark, and by whether it is marked. -/
theorem cell?_ext {slot : Nat} (hbare : (g.cell? slot).map Cell.bare = (h.cell? slot).map Cell.bare)
    (hmarked : g.isMarked slot = h.isMarked slot) : g.cell? slot = h.cell? slot := by
  rw [isMarked, isMarked] at hmarked
  rcases hg : g.cell? slot with _ | ⟨object, charge, marked⟩ <;>
    rcases hh : h.cell? slot with _ | ⟨object', charge', marked'⟩ <;>
    simp_all [Cell.bare]

/-- A heap can be painted in given marks and a given grey stack in one way only. -/
theorem Repainted.eq_of_isMarked (hg : Repainted h g) (hg' : Repainted h g')
    (hmarked : ∀ slot, g.isMarked slot = g'.isMarked slot) (hgrey : g.grey = g'.grey) :
    g = g' := by
  have hcells : g.cells = g'.cells := by
    refine cells_ext (hg.size_eq.trans hg'.size_eq.symm) fun slot => ?_
    exact cell?_ext ((hg.cells slot).trans (hg'.cells slot).symm) (hmarked slot)
  calc g = { h with cells := g.cells, grey := g.grey } := by rw [← hg.rest]
    _ = { h with cells := g'.cells, grey := g'.grey } := by rw [hcells, hgrey]
    _ = g' := by rw [← hg'.rest]

/-! ## Tracing -/

/-- From two states of marking tracing leads to the same heap, if the same can be reached from
what is marked in them. -/
theorem Repainted.trace_eq (hg : Repainted h g) (hg' : Repainted h g') (ht : g.Traced)
    (ht' : g'.Traced) (hreach : ∀ slot, h.Reach g.markedSlots slot ↔ h.Reach g'.markedSlots slot) :
    g.trace.1 = g'.trace.1 := by
  refine (hg.trans (repainted_trace g)).eq_of_isMarked (hg'.trans (repainted_trace g')) ?_ ?_
  · intro slot
    rw [Bool.eq_iff_iff, isMarked_trace_iff ht, isMarked_trace_iff ht']
    calc g.Reach g.markedSlots slot ↔ h.Reach g.markedSlots slot :=
          (reach_congr hg fun _ _ => Iff.rfl).symm
      _ ↔ h.Reach g'.markedSlots slot := hreach slot
      _ ↔ g'.Reach g'.markedSlots slot := reach_congr hg' fun _ _ => Iff.rfl
  · rw [grey_trace, grey_trace]

/-- What a collection releases, leaves or fails with is decided once the heap has been traced. -/
theorem collect_congr (htrace : g.trace.1 = g'.trace.1) :
    g.collect.result = g'.collect.result ∧ g.collect.releases = g'.collect.releases := by
  have hswept : g.swept = g'.swept := by rw [swept, swept, htrace]
  rw [collect_result, collect_result, releases_collect, releases_collect, hswept, htrace]
  exact ⟨rfl, rfl⟩

/-- **A collection depends on what can be reached alone.** In whatever ways roots are marked, if the
same can be reached from what is marked, then the collection releases the same objects in the same
order, and leaves the same heap in all its parts or overflows in both cases. It does not matter what
had been marked before, nor whether texts have been overwritten. -/
theorem Arises.collects_confluently (ha : h.Arises overwrites policy) {roots roots' : List Root}
    (hreach : ∀ slot, h.Reach (h.markRoots roots).markedSlots slot ↔
      h.Reach (h.markRoots roots').markedSlots slot) :
    (h.markRoots roots).collect.result = (h.markRoots roots').collect.result ∧
      (h.markRoots roots).collect.releases = (h.markRoots roots').collect.releases := by
  have htidy := ha.sound.tidy
  rw [markRoots_eq, markRoots_eq] at hreach ⊢
  exact collect_congr ((repainted_markAll h _).trace_eq (repainted_markAll h _)
    (htidy.markAll _).traced (htidy.markAll _).traced hreach)

/-! ## A ring marked at both ends -/

/-- The instance refers to its class, and the class has the instance for a method. -/
theorem reach_ring_iff {slot : Nat} : ring.Reach [2] slot ↔ ring.Reach [1] slot := by
  have hclass : ring.object? 1 = some (.cls
      { name := ringName, methods := ((∅ : Table).insert ringName (.inst ⟨2⟩)).1 }) := by
    decide +kernel
  have hinstance : ring.object? 2 = some (.inst { cls := ⟨1⟩ }) := by decide +kernel
  have ho : ring.Occupied 1 := occupied_iff_object?.2 ⟨_, hclass⟩
  have ho' : ring.Occupied 2 := occupied_iff_object?.2 ⟨_, hinstance⟩
  have hmethod : (ringName, .inst ⟨2⟩) ∈ ((∅ : Table).insert ringName (.inst ⟨2⟩)).1.entries := by
    decide +kernel
  have hthere : ring.Reach [1] 2 :=
    .step (.start List.mem_cons_self ho) hclass (.method hmethod (.inst ⟨2⟩)) ho'
  have hback : ring.Reach [2] 1 := .step (.start List.mem_cons_self ho') hinstance (.cls _) ho
  exact ⟨fun hr => hr.trans (List.forall_mem_singleton.2 fun _ => hthere),
    fun hr => hr.trans (List.forall_mem_singleton.2 fun _ => hback)⟩

/-- It makes no difference whether the instance is marked, or its class twice over. -/
theorem collects_confluently_ring : ∃ after,
    (ring.markRoots [.value (.inst ⟨2⟩)]).collect.result = .ok after ∧
    (ring.markRoots [.object (⟨1⟩ : Ref .cls), .value .nil, .value (.cls ⟨1⟩)]).collect.result =
      .ok after ∧ after.objectCount = 3 := by
  have hreach : ∀ slot, ring.Reach (ring.markRoots [.value (.inst ⟨2⟩)]).markedSlots slot ↔
      ring.Reach (ring.markRoots
        [.object (⟨1⟩ : Ref .cls), .value .nil, .value (.cls ⟨1⟩)]).markedSlots slot := by
    intro slot
    rw [show (ring.markRoots [.value (.inst ⟨2⟩)]).markedSlots = [2] by decide +kernel,
      show (ring.markRoots
        [.object (⟨1⟩ : Ref .cls), .value .nil, .value (.cls ⟨1⟩)]).markedSlots = [1] by
          decide +kernel]
    exact reach_ring_iff
  have hsame := (Arises.collects_confluently arises_ring hreach).1
  have hdone : (ring.markRoots [.value (.inst ⟨2⟩)]).collect.result =
      .ok { (ring.markRoots [.value (.inst ⟨2⟩)]).swept with
        cycles := 1, threshold := 1048576 } := by
    decide +kernel
  exact ⟨_, hdone, hsame.symm.trans hdone, by decide +kernel⟩

end Heap

end ObjectHeap
