import ObjectHeap.Proofs.Heap.Confluence
import ObjectHeap.Proofs.Heap.History
import ObjectHeap.Proofs.Machine.Closure
import ObjectHeap.Proofs.Renaming.Machine

/-!
# Collecting twice

A collection leaves what can be reached from the roots, and from the same roots the same can be
reached in what it leaves (`Sound.reach_collect`). So a second collection right after it marks every
object there is. It finds nothing to drop or to release, and its sweep does no more than to take the
marks off again (`Repainted.swept_eq`): it leaves what it found, having counted itself.

The threshold needs no argument of its own. It is computed from the bytes that are left, which are
the same both times, and so the second collection cannot overflow if the first one did not.
-/

set_option autoImplicit false

namespace ObjectHeap

namespace Heap

variable {h g : Heap}

/-! ## Sweeping where all is marked -/

/-- All objects of the heap are marked. -/
def AllMarked (h : Heap) : Prop := ∀ slot, h.Occupied slot → h.isMarked slot = true

theorem AllMarked.garbage_eq (ha : h.AllMarked) : h.garbage = [] := by
  refine List.filter_eq_nil_iff.2 fun slot _ hwhite => ?_
  have ho : h.Occupied slot := (isWhite_iff.1 hwhite).imp fun _ => And.left
  exact (isWhite_iff_not_isMarked ho).1 hwhite (ha slot ho)

theorem Repainted.dropStrings_eq (hg : Repainted h g) (ha : g.AllMarked)
    (hkeys : ∀ key, h.Interned key → h.Occupied key.str.slot) : g.dropStrings = (g, 0) := by
  have hkept : (g.strings.prune fun key => g.isMarked key.str.slot) = (g.strings, 0) := by
    refine Table.prune_eq_self fun e he => ha _ (hg.occupied_iff.2 (hkeys e.1 ⟨e.2, ?_⟩))
    rwa [hg.strings_eq] at he
  rw [dropStrings, hkept]

/-- Nothing is released, so that only the marks change. -/
theorem AllMarked.repainted_sweep (ha : h.AllMarked) : Repainted h h.sweep where
  cells slot := by
    rw [cell?_sweep]
    cases hc : h.cell? slot with
    | none => rfl
    | some c =>
      have hm : c.marked = true := by simpa [isMarked, hc] using ha slot ⟨c, hc⟩
      simp only [sweptCell, hm, if_true]
      rfl
  size_eq := Array.size_map
  rest := by
    rw [sweep, ha.garbage_eq]
    rfl

/-- If tracing reaches all objects, then a sweep leaves the heap as it was before the marking. -/
theorem Repainted.swept_eq (hg : Repainted h g) (hclean : h.Clean) (ha : g.trace.1.AllMarked)
    (hkeys : ∀ key, h.Interned key → h.Occupied key.str.slot) : g.swept = h := by
  have htraced : Repainted h g.trace.1 := hg.trans (repainted_trace g)
  have hswept : Repainted h g.swept := by
    rw [swept, htraced.dropStrings_eq ha hkeys]
    exact htraced.trans ha.repainted_sweep
  refine hswept.eq_of_isMarked (.refl h) (fun slot => ?_) ?_
  · rw [(clean_swept g).unmarked, hclean.unmarked]
  · rw [(clean_swept g).grey_eq, hclean.grey_eq]

end Heap

namespace Machine

variable {m once : Machine} {policy : Policy}

/-! ## The second collection -/

theorem roots_collect (hc : m.collect.result = .ok once) : once.roots = m.roots := by
  obtain ⟨heap, -, rfl⟩ := of_collect_eq_ok hc
  rfl

/-- From the roots the same can be reached after a collection as before. -/
theorem Sound.reach_collect (hm : m.Sound) (hc : m.collect.result = .ok once) {slot : Nat} :
    once.heap.Reach once.roots slot ↔ m.heap.Reach m.roots slot := by
  rw [roots_collect hc]
  refine ⟨fun hr => (hm.occupied_collect hc).1 hr.occupied, fun hr => ?_⟩
  have hleft : ∀ s, m.heap.Reach m.roots s → once.heap.Occupied s :=
    fun s => (hm.occupied_collect hc).2
  induction hr with
  | start hs ho => exact .start hs (hleft _ (.start hs ho))
  | step hr hobject hrefers ho ih =>
    exact .step ih ((hm.object?_collect hc).2 ⟨hr, hobject⟩) hrefers
      (hleft _ (.step hr hobject hrefers ho))

/-- So the second collection reaches everything. -/
theorem Sound.allMarked_collect (hm : m.Sound) (hc : m.collect.result = .ok once) :
    (once.heap.markAll once.roots).trace.1.AllMarked := by
  have hcleared := hm.collect_cleared hc
  have hpaint : Heap.Repainted once.heap (once.heap.markAll once.roots).trace.1 :=
    (Heap.repainted_markAll _ _).trans (Heap.repainted_trace _)
  intro slot ho
  rw [Heap.isMarked_trace_iff (hcleared.heap.tidy.markAll _).traced,
    Heap.reach_markAll_of_clean hcleared.clean, hm.reach_collect hc, ← hm.occupied_collect hc]
  exact hpaint.occupied_iff.1 ho

/-- The threshold that a collection has left is the one that would be set again. -/
theorem nextThreshold_collect (hc : m.collect.result = .ok once) :
    once.heap.nextThreshold = .ok once.heap.threshold := by
  obtain ⟨heap, hheap, rfl⟩ := of_collect_eq_ok hc
  obtain ⟨threshold, hnext, rfl⟩ := Heap.of_collect_eq_ok hheap
  exact hnext

/-- **Collecting twice is collecting once.** After a collection of a machine that arises, under
whatever policy, another one completes. It releases no object, drops no interned string and changes
nothing about the machine but the number of completed collections. -/
theorem Arises.collects_once (ha : m.Arises policy) (hc : m.collect.result = .ok once) :
    once.collect.result =
      .ok { once with heap := { once.heap with cycles := once.heap.cycles + 1 } } ∧
    once.collect.releases = [] ∧
    ∃ summary, .cycleEnded summary ∈ once.collect.events ∧ summary.stringsDropped = 0 ∧
      summary.bytesAfter = summary.bytesBefore := by
  have hcleared := ha.sound.collect_cleared hc
  have hall := ha.sound.allMarked_collect hc
  have hkeys : ∀ key, once.heap.Interned key → once.heap.Occupied key.str.slot :=
    fun _ => hcleared.canonical.occupied
  have hpaint := Heap.repainted_markAll once.heap once.roots
  have hswept := hpaint.swept_eq hcleared.clean hall hkeys
  have hdropped := (hpaint.trans (Heap.repainted_trace _)).dropStrings_eq hall hkeys
  have hheap : (once.heap.markAll once.roots).collect.result =
      .ok { once.heap with cycles := once.heap.cycles + 1 } := by
    rw [Heap.collect_result, hswept, nextThreshold_collect hc]
    rfl
  have hsummary : ∃ summary,
      .cycleEnded summary ∈ (once.heap.markAll once.roots).collect.events ∧
        summary.stringsDropped = 0 ∧ summary.bytesAfter = summary.bytesBefore := by
    rw [Heap.events_collect hheap]
    exact ⟨_, List.mem_append_right _ List.mem_cons_self, congrArg Prod.snd hdropped,
      hpaint.bytes_eq.symm⟩
  refine ⟨by rw [collect_result, hheap]; rfl, ?_, hsummary.imp fun _ hs => ⟨?_, hs.2⟩⟩
  · rw [releases_collect, Heap.releases_collect, hall.garbage_eq]
  · exact Outcome.mem_events_bind.2 (.inr ⟨(), rfl, Outcome.mem_events_bind.2 (.inl hs.1)⟩)

/-- A class and its name are kept, an instance of the class is released. After that there is nothing
left to collect. -/
theorem collects_once_pair : ∃ once,
    (collect { heap := Heap.pair, stack := [.cls ⟨1⟩] }).result = .ok once ∧
    (collect { heap := Heap.pair, stack := [.cls ⟨1⟩] }).releases = [2] ∧
    once.collect.result =
      .ok { once with heap := { once.heap with cycles := 2 } } ∧
    once.collect.releases = [] := by
  have hpushed : Arises {} { heap := Heap.pair, stack := [.cls ⟨1⟩] } :=
    .handle arises_pair (show Accepts _ (.push (.cls ⟨1⟩)) from ⟨{ name := Heap.ringName }, rfl⟩)
      rfl
  have hc : (collect { heap := Heap.pair, stack := [.cls ⟨1⟩] }).result =
      .ok { heap := { (Heap.pair.markAll [1]).swept with cycles := 1 }, stack := [.cls ⟨1⟩] } := by
    decide +kernel
  have hagain := hpushed.collects_once hc
  exact ⟨_, hc, by decide +kernel, hagain.1, hagain.2.1⟩

end Machine

end ObjectHeap
