import ObjectHeap.Proofs.Heap.Collection
import ObjectHeap.Proofs.Machine.Sound

/-!
# Collections of a machine

Between two requests nothing is marked, so a collection keeps exactly what can be reached from the
roots (`cell?_collect`). It fails only if its threshold does not fit in a word, and if it does not
fail, its journal lists every object that is gone.
-/

set_option autoImplicit false

namespace ObjectHeap

namespace Heap

variable {h after : Heap}

theorem Clean.markedSlots_eq (hc : h.Clean) : h.markedSlots = [] :=
  List.eq_nil_iff_forall_not_mem.2 fun slot hslot => by
    rw [mem_markedSlots, hc.unmarked slot] at hslot
    cases hslot

theorem Clean.map_bare (hc : h.Clean) (slot : Nat) :
    (h.cell? slot).map Cell.bare = h.cell? slot := by
  cases hslot : h.cell? slot with
  | none => rfl
  | some c => exact congrArg some (hc.bare_eq hslot)

/-- From a heap without marks a collection keeps what can be reached from the slots that are marked
for it. -/
theorem reach_markAll_of_clean (hc : h.Clean) {slots : List Nat} {slot : Nat} :
    (h.markAll slots).Reach (h.markAll slots).markedSlots slot ↔ h.Reach slots slot := by
  rw [reach_markAll, hc.markedSlots_eq, List.nil_append]

/-- The journal of a collection lists the white objects that are left after tracing. -/
theorem mem_releases_collect {slot : Nat} (ho : h.Occupied slot)
    (hm : ¬h.trace.1.isMarked slot = true) : slot ∈ h.collect.releases := by
  have hpruned : slot ∈ h.trace.1.dropStrings.1.garbage := by
    have ht : h.trace.1.Occupied slot := (repainted_trace h).occupied_iff.2 ho
    exact List.mem_filter.2 ⟨List.mem_range.2 ht.lt_size, (isWhite_iff_not_isMarked ht).2 hm⟩
  have hevent : Event.freed slot ∈ h.trace.1.dropStrings.1.garbage.map Event.freed :=
    List.mem_map.2 ⟨slot, hpruned, rfl⟩
  unfold collect
  refine Outcome.mem_releases_bind.2 (.inr ⟨(), rfl, ?_⟩)
  refine Outcome.mem_releases_bind.2 (.inr ⟨(), rfl, ?_⟩)
  exact Outcome.mem_releases_bind.2 (.inl (Outcome.mem_releases.2 hevent))

end Heap

namespace Machine

variable {m after : Machine}

theorem collect_result (m : Machine) : m.collect.result =
    (m.heap.markAll m.roots).collect.result.map fun heap => { m with heap } := by
  simp only [collect, Outcome.result_bind, Outcome.result_report, Outcome.result_pure]
  cases (m.heap.markAll m.roots).collect.result <;> rfl

theorem of_collect_eq_ok (hc : m.collect.result = .ok after) : ∃ heap,
    (m.heap.markAll m.roots).collect.result = .ok heap ∧ after = { m with heap } := by
  rw [collect_result] at hc
  cases hheap : (m.heap.markAll m.roots).collect.result with
  | error f => rw [hheap] at hc; cases hc
  | ok heap => rw [hheap] at hc; cases hc; exact ⟨heap, rfl, rfl⟩

theorem of_collect_eq_error {f : Fault} (hc : m.collect.result = .error f) :
    f = .thresholdOverflow := by
  rw [collect_result] at hc
  cases hheap : (m.heap.markAll m.roots).collect.result with
  | error f' => rw [hheap] at hc; cases hc; exact Heap.of_collect_eq_error hheap
  | ok heap => rw [hheap] at hc; cases hc

/-- After a collection there are the objects that can be reached from the roots, under the same
charges, and no others. -/
theorem Sound.cell?_collect (hm : m.Sound) (hc : m.collect.result = .ok after) {slot : Nat}
    {c : Cell} : after.heap.cell? slot = some c ↔
      m.heap.Reach m.roots slot ∧ m.heap.cell? slot = some c := by
  obtain ⟨heap, hheap, rfl⟩ := of_collect_eq_ok hc
  obtain ⟨threshold, -, rfl⟩ := Heap.of_collect_eq_ok hheap
  have htraced := (hm.heap.tidy.markAll m.roots).traced
  rw [← Heap.reach_markAll_of_clean hm.clean, ← hm.clean.map_bare slot,
    ← (Heap.repainted_markAll m.heap m.roots).cells]
  exact Heap.cell?_swept htraced

theorem Sound.object?_collect (hm : m.Sound) (hc : m.collect.result = .ok after) {slot : Nat}
    {o : Object} : after.heap.object? slot = some o ↔
      m.heap.Reach m.roots slot ∧ m.heap.object? slot = some o := by
  simp only [Heap.object?, Option.map_eq_some_iff, hm.cell?_collect hc, and_assoc, exists_and_left]

theorem Sound.occupied_collect (hm : m.Sound) (hc : m.collect.result = .ok after) {slot : Nat} :
    after.heap.Occupied slot ↔ m.heap.Reach m.roots slot := by
  obtain ⟨heap, hheap, rfl⟩ := of_collect_eq_ok hc
  obtain ⟨threshold, -, rfl⟩ := Heap.of_collect_eq_ok hheap
  rw [← Heap.reach_markAll_of_clean hm.clean]
  exact Heap.occupied_swept (hm.heap.tidy.markAll m.roots).traced

/-- After a collection the interned symbols are those whose strings are left. -/
theorem Sound.interned_collect (hm : m.Sound) (hc : m.collect.result = .ok after) {key : Symbol} :
    after.heap.Interned key ↔ m.heap.Reach m.roots key.str.slot ∧ m.heap.Interned key := by
  obtain ⟨heap, hheap, rfl⟩ := of_collect_eq_ok hc
  obtain ⟨threshold, -, rfl⟩ := Heap.of_collect_eq_ok hheap
  have htraced := (hm.heap.tidy.markAll m.roots).traced
  rw [← Heap.reach_markAll_of_clean hm.clean]
  refine (Heap.interned_swept htraced).trans (and_congr_right fun _ => ?_)
  rw [Heap.Interned, (Heap.repainted_markAll m.heap m.roots).strings_eq, Heap.Interned]

theorem Sound.occupied_of_not_mem_releases (hm : m.Sound) (hc : m.collect.result = .ok after)
    {slot : Nat} (ho : m.heap.Occupied slot) (hr : slot ∉ m.collect.releases) :
    after.heap.Occupied slot := by
  rw [hm.occupied_collect hc, ← Heap.reach_markAll_of_clean hm.clean,
    ← Heap.isMarked_trace_iff (hm.heap.tidy.markAll m.roots).traced]
  -- What is not marked after tracing is in the journal.
  refine Decidable.byContradiction fun hmarked => hr ?_
  have hmem := Heap.mem_releases_collect
    ((Heap.repainted_markAll m.heap m.roots).occupied_iff.2 ho) hmarked
  exact Outcome.mem_releases_bind.2 (.inr ⟨(), rfl, Outcome.mem_releases_bind.2 (.inl hmem)⟩)

theorem Sound.collect_cleared (hm : m.Sound) (hc : m.collect.result = .ok after) :
    m.Cleared m.collect.releases after := by
  have hoccupied : ∀ slot, after.heap.Occupied slot ↔ m.heap.Reach m.roots slot :=
    fun slot => hm.occupied_collect hc
  have hobject : ∀ slot o, after.heap.object? slot = some o →
      m.heap.Reach m.roots slot ∧ m.heap.object? slot = some o :=
    fun slot o ho => (hm.object?_collect hc).1 ho
  obtain ⟨heap, hheap, heq⟩ := of_collect_eq_ok hc
  have hmarked := hm.heap.mark m.roots
  exact
    { stack_eq := by rw [heq]
      globals_eq := by rw [heq]
      heap := by rw [heq]; exact hmarked.collect hheap
      clean := by rw [heq]; exact Heap.clean_collect hheap
      canonical := by rw [heq]; exact (hm.canonical.markAll m.roots).collect hmarked hheap
      object?_eq := fun slot ho => by
        obtain ⟨o, ho⟩ := Heap.occupied_iff_object?.1 ho
        rw [ho, (hobject slot o ho).2]
      reached := fun slot hr => (hoccupied slot).2 hr
      targets := fun slot o target ho ht htarget => by
        obtain ⟨hr, hold⟩ := hobject slot o ho
        exact (hoccupied target).2 (.step hr hold ht htarget)
      interned := fun key hkey ho => (hm.interned_collect hc).2 ⟨(hoccupied _).1 ho, hkey⟩
      unreleased := fun slot ho hr => hm.occupied_of_not_mem_releases hc ho hr }

/-- Making room is a collection or nothing, and can fail only as a collection can. -/
theorem Sound.makeRoom_cases (hm : m.Sound) :
    m.makeRoom.result = .error .thresholdOverflow ∨
    ∃ after, m.makeRoom.result = .ok after ∧ m.Cleared m.makeRoom.releases after := by
  unfold makeRoom
  split
  · cases hc : m.collect.result with
    | error f => rw [of_collect_eq_error hc]; exact .inl rfl
    | ok after => exact .inr ⟨after, rfl, hm.collect_cleared hc⟩
  · exact .inr ⟨m, rfl, hm.cleared_self _⟩

end Machine

end ObjectHeap
