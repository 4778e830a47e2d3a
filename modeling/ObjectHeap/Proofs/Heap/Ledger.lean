import Mathlib.Algebra.BigOperators.Group.Finset.Basic
import Mathlib.Algebra.Order.BigOperators.Group.Finset
import ObjectHeap.Proofs.Heap.Allocator
import ObjectHeap.Proofs.Heap.Collection

/-!
# The ledger

An object is charged once, for what it is at its allocation, although its tables and its text change
later. Told with a history, this is a statement about the past: the bytes of a heap are the charges
of the objects as they were put into their slots (`History.ledger`). So no release takes off more
than is left, the heap is charged nothing if and only if it is empty, and what a collection reports
to have collected are the charges of the objects that it released.
-/

set_option autoImplicit false

namespace ObjectHeap

/-- Pruning drops no more entries than there are. -/
theorem Table.Layout.dropped_le {t : Table} (h : t.Layout) (keep : Symbol → Bool) :
    (t.prune keep).2 ≤ t.size := by
  rw [h.size_eq]
  refine Array.countP_mono_left ?_
  intro b _ hstale
  cases b with
  | empty | tombstone => cases hstale
  | entry key v => rfl

namespace Heap

variable {h after : Heap} {overwrites : Bool} {policy : Policy} {slot : Nat}

/-! ## Charges as sums -/

theorem chargesAt_eq_sum {slots : List Nat} (hn : slots.Nodup) :
    h.chargesAt slots = ∑ slot ∈ slots.toFinset, h.chargeAt slot := by
  rw [List.sum_toFinset _ hn]
  clear hn
  induction slots with
  | nil => rfl
  | cons slot rest ih => rw [chargesAt, List.map_cons, List.sum_cons, ih]

/-- The bytes are the charges of the live slots. -/
theorem Balanced.bytes_eq (hb : h.Balanced) : h.bytes = ∑ slot ∈ h.liveSlots, h.chargeAt slot := by
  have hrange : (List.range h.cells.size).toFinset = Finset.range h.cells.size := by
    ext slot
    simp
  rw [hb, chargesAt_eq_sum List.nodup_range, hrange]
  symm
  apply Finset.sum_subset (Finset.filter_subset _ _)
  intro slot _ hempty
  apply chargeAt_of_empty
  by_contra hne
  exact hempty (mem_liveSlots.2 (Option.ne_none_iff_exists'.1 hne))

/-- Releases take off, one after the other, no more than is left. -/
theorem Balanced.chargeAt_le (hb : h.Balanced) {before rest : List Nat}
    (hn : (before ++ slot :: rest).Nodup) (hlive : ∀ s ∈ before ++ slot :: rest, h.Occupied s) :
    h.chargeAt slot ≤ h.bytes - h.chargesAt before := by
  have hsub : (before ++ slot :: rest).toFinset ⊆ h.liveSlots := by
    intro s hs
    exact mem_liveSlots.2 (hlive s (List.mem_toFinset.1 hs))
  have hle : h.chargesAt (before ++ slot :: rest) ≤ h.bytes := by
    rw [hb.bytes_eq, chargesAt_eq_sum hn]
    exact Finset.sum_le_sum_of_subset hsub
  rw [chargesAt_append, chargesAt] at hle
  omega

/-! ## Releases -/

/-- An event that says nothing about any slot releases none. -/
theorem released?_eq_none {e : Event} (he : ∀ slot, e.verdict? slot = none) :
    e.released? = none := by
  cases e with
  | freed s =>
    have hs := he s
    rw [Event.verdict?, if_pos rfl] at hs
    cases hs
  | grew | allocated | marked | blackened | cycleBegan | cycleEnded | machineReset => rfl

/-- A collection releases what is white after tracing, even if it fails in the end. -/
theorem releases_collect (h : Heap) : h.collect.releases = h.trace.1.garbage := by
  have htrace : h.trace.2.filterMap Event.released? = [] := by
    rw [List.filterMap_eq_nil_iff]
    intro e he
    exact released?_eq_none fun slot => verdict?_trace h e he
  have hfreed : ∀ slots : List Nat, (slots.map Event.freed).filterMap Event.released? = slots := by
    intro slots
    rw [List.filterMap_map]
    exact List.filterMap_some
  have hgarbage : h.trace.1.dropStrings.1.garbage = h.trace.1.garbage := rfl
  unfold collect Outcome.releases
  simp only [Outcome.events_bind, Outcome.events_report, Outcome.result_report,
    Outcome.events_liftM, Outcome.result_liftM, List.filterMap_append, htrace, hgarbage, hfreed]
  cases h.trace.1.dropStrings.1.sweep.nextThreshold <;> exact List.append_nil _

theorem nodup_releases (h : Heap) : h.collect.releases.Nodup := by
  rw [releases_collect]
  exact List.nodup_range.filter _

theorem occupied_of_mem_releases (hr : slot ∈ h.collect.releases) : h.Occupied slot := by
  rw [releases_collect, mem_garbage, isWhite_iff] at hr
  obtain ⟨c, hc, -⟩ := hr
  exact (repainted_trace h).occupied_iff.1 ⟨c, hc⟩

/-- At every release of a collection at least its charge is left. -/
theorem Balanced.covered (hb : h.Balanced) {before rest : List Nat}
    (hsplit : h.collect.releases = before ++ slot :: rest) :
    h.chargeAt slot ≤ h.bytes - h.chargesAt before := by
  have hn := nodup_releases h
  rw [hsplit] at hn
  refine hb.chargeAt_le hn ?_
  intro s hs
  rw [← hsplit] at hs
  exact occupied_of_mem_releases hs

/-- What is live after a collection was live before and has not been released. -/
theorem occupied_collect_iff (hc : h.collect.result = .ok after) :
    after.Occupied slot ↔ h.Occupied slot ∧ slot ∉ h.collect.releases := by
  rw [Occupied, Occupied, ← Option.isSome_iff_exists, ← Option.isSome_iff_exists,
    cell?_collect hc, isSome_cell?_swept, releases_collect]
  split
  · next hr => simp [hr]
  · next hr => simp [hr]

theorem toFinset_releases (hc : h.collect.result = .ok after) :
    h.collect.releases.toFinset = h.liveSlots \ after.liveSlots := by
  ext slot
  rw [List.mem_toFinset, Finset.mem_sdiff, mem_liveSlots, mem_liveSlots, occupied_collect_iff hc]
  constructor
  · intro hr
    exact ⟨occupied_of_mem_releases hr, fun hlive => hlive.2 hr⟩
  · rintro ⟨ho, hgone⟩
    by_contra hr
    exact hgone ⟨ho, hr⟩

/-- A collection takes off the charges of what it releases. -/
theorem Balanced.bytes_collect (hb : h.Balanced) (hc : h.collect.result = .ok after) :
    h.chargesAt h.collect.releases ≤ h.bytes ∧
      after.bytes = h.bytes - h.chargesAt h.collect.releases := by
  constructor
  · rw [hb.bytes_eq, chargesAt_eq_sum (nodup_releases h), toFinset_releases hc]
    exact Finset.sum_le_sum_of_subset Finset.sdiff_subset
  · have hpaint := repainted_trace h
    have hcharges : h.trace.1.dropStrings.1.chargesAt h.trace.1.garbage =
        h.chargesAt h.trace.1.garbage :=
      chargesAt_congr fun slot _ => hpaint.chargeAt_eq slot
    obtain ⟨threshold, -, rfl⟩ := of_collect_eq_ok hc
    rw [releases_collect, ← hcharges, ← hpaint.bytes_eq]
    rfl

/-! ## What was charged, and when -/

/-- The object in a slot as it was put there, read off the states of a run, the last one first. What
was in the slot before the last operation was put there earlier. -/
def origin? : List Heap → Nat → Option Object
  | [], _ => none
  | [h], slot => h.object? slot
  | h :: g :: past, slot =>
    if (g.cell? slot).isSome then origin? (g :: past) slot else h.object? slot

theorem origin?_of_occupied {past : List Heap} (ho : h.Occupied slot) :
    origin? (after :: h :: past) slot = origin? (h :: past) slot := by
  rw [origin?, if_pos (Option.isSome_iff_exists.2 ho)]

theorem origin?_of_empty {past : List Heap} (he : h.cell? slot = none) :
    origin? (after :: h :: past) slot = after.object? slot := by
  rw [origin?, he]
  rfl

/-- An object that is there after an operation was there before, under the same charge, or it is
new and was charged for what it is. -/
theorem Step.charge (hs : h.Sound) (hstep : Step overwrites h after) {c : Cell}
    (hc : after.cell? slot = some c) :
    (∃ c', h.cell? slot = some c' ∧ c'.charge = c.charge) ∨
      (h.cell? slot = none ∧ c.charge = chargeOf c.object) := by
  have hplace : ∀ o, (h.place o).1.cell? slot = some c →
      (∃ c', h.cell? slot = some c' ∧ c'.charge = c.charge) ∨
        (h.cell? slot = none ∧ c.charge = chargeOf c.object) := by
    intro o hplaced
    rw [cell?_place hs.slotted] at hplaced
    split at hplaced
    · next heq =>
      cases hplaced
      exact .inr ⟨heq ▸ place_slot_empty hs.slotted, rfl⟩
    · exact .inl ⟨c, hplaced, rfl⟩
  cases hstep with
  | intern hi =>
    rcases of_internReserving_eq_ok hi with ⟨rfl, -⟩ | ⟨rfl, -⟩
    · exact .inl ⟨c, hc, rfl⟩
    · exact hplace _ hc
  | allocate _ hok => cases hok; exact hplace _ hc
  | mark target =>
    rw [cell?_mark] at hc
    split at hc
    · obtain ⟨c', hc', rfl⟩ := Option.map_eq_some_iff.1 hc
      exact .inl ⟨c', hc', rfl⟩
    · exact .inl ⟨c, hc, rfl⟩
  | edit q _ _ ha =>
    obtain ⟨-, rfl⟩ := of_access_eq_ok ha
    rw [cell?_replace] at hc
    split at hc
    · obtain ⟨c', hc', rfl⟩ := Option.map_eq_some_iff.1 hc
      exact .inl ⟨c', hc', rfl⟩
    · exact .inl ⟨c, hc, rfl⟩
  | collect hcollect =>
    obtain ⟨threshold, -, rfl⟩ := of_collect_eq_ok hcollect
    obtain ⟨c', hc', rfl⟩ := Option.map_eq_some_iff.1 ((cell?_swept hs.tidy.traced).1 hc).2
    exact .inl ⟨c', hc', rfl⟩

variable {past : List Heap} {handed : List Nat} {journal : List Event}

/-- Every object is charged for what it was when it was put into its slot. -/
theorem History.charge_origin (hh : History overwrites policy (h :: past) handed journal) {c : Cell}
    (hc : h.cell? slot = some c) :
    ∃ o, origin? (h :: past) slot = some o ∧ c.charge = chargeOf o := by
  generalize hs : h :: past = states at hh
  induction hh generalizing h past c with
  | new =>
    cases hs
    rw [cell?_of_size_le (Nat.zero_le slot)] at hc
    cases hc
  | step hprev hp ih =>
    cases hs
    rcases hp.step.charge hprev.arises.sound hc with ⟨c', hc', heq⟩ | ⟨hempty, hcharge⟩
    · obtain ⟨o, ho, hcharge⟩ := ih hc' rfl
      exact ⟨o, (origin?_of_occupied ⟨c', hc'⟩).trans ho, heq ▸ hcharge⟩
    · refine ⟨c.object, ?_, hcharge⟩
      rw [origin?_of_empty hempty, object?, hc]
      rfl

/-- What was charged for the object in a slot when it was put there. -/
def originCharge (states : List Heap) (slot : Nat) : Nat :=
  ((origin? states slot).map chargeOf).getD 0

theorem History.chargeAt_eq (hh : History overwrites policy (h :: past) handed journal)
    (ho : h.Occupied slot) : h.chargeAt slot = originCharge (h :: past) slot := by
  obtain ⟨c, hc⟩ := ho
  obtain ⟨o, horigin, hcharge⟩ := hh.charge_origin hc
  rw [chargeAt, originCharge, hc, horigin]
  exact hcharge

theorem History.sum_chargeAt (hh : History overwrites policy (h :: past) handed journal)
    {slots : Finset Nat} (hsub : slots ⊆ h.liveSlots) :
    ∑ slot ∈ slots, h.chargeAt slot = ∑ slot ∈ slots, originCharge (h :: past) slot :=
  Finset.sum_congr rfl fun _ hslot => hh.chargeAt_eq (mem_liveSlots.1 (hsub hslot))

/-- Nothing is free of charge. -/
theorem History.bytes_eq_zero_iff (hh : History overwrites policy (h :: past) handed journal) :
    h.bytes = 0 ↔ h.liveSlots = ∅ := by
  rw [hh.arises.sound.balanced.bytes_eq]
  constructor
  · intro hzero
    rw [Finset.eq_empty_iff_forall_notMem]
    intro slot hslot
    obtain ⟨c, hc⟩ := mem_liveSlots.1 hslot
    obtain ⟨o, -, hcharge⟩ := hh.charge_origin hc
    have hnone := Finset.sum_eq_zero_iff.1 hzero slot hslot
    rw [chargeAt, hc] at hnone
    simp only [Option.map_some, Option.getD_some, hcharge, chargeOf, cellBytes] at hnone
    omega
  · intro hempty
    rw [hempty, Finset.sum_empty]

/-- **The ledger.** In every heap that arises, whatever was edited in between, the bytes are the
charges of the live objects as they were put into their slots. The bytes are zero if and only if no
object is live. A collection that starts there takes off the charges of the objects that it
releases, and at each of them as much is left. Pruning removes no more strings than there are. If
the collection completes, then the bytes that it reports to have collected are the charges of the
objects that are gone. -/
theorem History.ledger (hh : History overwrites policy (h :: past) handed journal) :
    (∀ slot, h.Occupied slot → ∃ o, origin? (h :: past) slot = some o ∧
      originCharge (h :: past) slot = cellBytes + o.footprint) ∧
    h.bytes = ∑ slot ∈ h.liveSlots, originCharge (h :: past) slot ∧
    h.objectCount = h.liveSlots.card ∧
    (h.bytes = 0 ↔ h.objectCount = 0) ∧
    (∀ before slot rest, h.collect.releases = before ++ slot :: rest →
      h.chargeAt slot ≤ h.bytes - h.chargesAt before) ∧
    (∀ keep, (h.strings.prune keep).2 ≤ h.strings.size) ∧
    ∀ after, h.collect.result = .ok after → ∃ summary, .cycleEnded summary ∈ h.collect.events ∧
      summary.bytesAfter ≤ summary.bytesBefore ∧
      summary.bytesBefore - summary.bytesAfter =
        ∑ slot ∈ h.liveSlots \ after.liveSlots, originCharge (h :: past) slot := by
  have hsound := hh.arises.sound
  have hbytes := hsound.balanced.bytes_eq
  refine ⟨?_, ?_, objectCount_eq h, ?_, ?_, hsound.strings.layout.dropped_le, ?_⟩
  · rintro slot ⟨c, hc⟩
    obtain ⟨o, horigin, -⟩ := hh.charge_origin hc
    refine ⟨o, horigin, ?_⟩
    rw [originCharge, horigin]
    exact Nat.add_comm _ _
  · rw [hbytes, hh.sum_chargeAt (Finset.Subset.refl _)]
  · rw [hh.bytes_eq_zero_iff, objectCount_eq, Finset.card_eq_zero]
  · exact fun before slot rest => hsound.balanced.covered
  · intro after hc
    obtain ⟨hle, hafter⟩ := hsound.balanced.bytes_collect hc
    refine ⟨_, by rw [events_collect hc]; exact List.mem_append_right _ List.mem_cons_self, ?_, ?_⟩
    · show after.bytes ≤ h.bytes
      omega
    · show h.bytes - after.bytes = _
      rw [← hh.sum_chargeAt Finset.sdiff_subset, ← toFinset_releases hc,
        ← chargesAt_eq_sum (nodup_releases h)]
      omega

/-! ## A class that has grown -/

/-- A heap with a string and a class of that name. -/
def classed : Heap :=
  (((Heap.new {}).withString (.ofText "A" 0)).1.place (.cls { name := ringName })).1

/-- The class now has itself for a method. -/
def grown : Heap :=
  classed.replace (k := .cls) ⟨1⟩
    { name := ringName, methods := ((∅ : Table).insert ringName (.cls ⟨1⟩)).1 }

theorem history_grown : ∃ handed journal, History true {}
    [grown, classed, ((Heap.new {}).withString (.ofText "A" 0)).1, .new {}] handed journal := by
  have hnamed : ((Heap.new {}).internReserving "A" 0).result =
      .ok (((Heap.new {}).withString (.ofText "A" 0)).1, ringName) := by decide +kernel
  have hclass : classed.deref (k := .cls) ⟨1⟩ = .ok { name := ringName } := by decide +kernel
  have hclassed : (((Heap.new {}).withString (.ofText "A" 0)).1.allocate .cls
      { name := ringName }).result = .ok (classed, ⟨1⟩) := rfl
  have hbuilt : (Object.of .cls { name := ringName }).HasBuiltTables := Table.Built.empty
  have hstart : History true {} [.new {}] [] [] := .new
  have hallocated := (hstart.step (.intern hnamed)).step (.allocate hbuilt hclassed)
  exact ⟨_, _, hallocated.step (.edit (k := .cls)
    { name := ringName, methods := ((∅ : Table).insert ringName (.cls ⟨1⟩)).1 } (by decide)
    (.insert _ _ .empty) (access_of_deref hclass))⟩

/-- The class takes more than before, and is charged what it was. -/
theorem ledger_grown : grown.bytes = 153 ∧
    (grown.object? 1).map chargeOf = some 408 ∧ grown.chargeAt 1 = 88 ∧
    grown.bytes = ∑ slot ∈ grown.liveSlots, originCharge
      [grown, classed, ((Heap.new {}).withString (.ofText "A" 0)).1, .new {}] slot := by
  obtain ⟨handed, journal, hh⟩ := history_grown
  exact ⟨by decide +kernel, by decide +kernel, by decide +kernel, hh.ledger.2.1⟩

end Heap

end ObjectHeap
