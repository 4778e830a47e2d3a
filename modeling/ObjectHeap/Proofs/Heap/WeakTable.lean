import ObjectHeap.Proofs.Heap.Interning
import ObjectHeap.Proofs.Heap.Ledger

/-!
# The table of interned strings is weak

To be interned keeps nothing alive. What a collection leaves is the same whatever is interned
(`collect_withStrings`), and of the table it leaves the entries whose strings are left. For this the
strings have to be dropped between tracing and sweep: the marks that decide about an entry are then
those that decide about its string.

Dropping entries leaves tombstones, so the table keeps its buckets and its count of used ones, and
a search still comes past them to every string that is left. What the collection reports to have
dropped is the number of interned strings that are gone, since no two symbols share a string.
-/

set_option autoImplicit false

namespace ObjectHeap

namespace Heap

variable {h after : Heap} {policy : Policy} {key : Symbol} {text : String}

/-! ## Whatever is interned -/

theorem mark_withStrings (h : Heap) (strings : Table) (slot : Nat) :
    { h with strings }.mark slot = { h.mark slot with strings } := by
  simp only [mark, cell?]
  split
  · split <;> rfl
  · rfl

theorem markAll_withStrings (h : Heap) (strings : Table) (slots : List Nat) :
    { h with strings }.markAll slots = { h.markAll slots with strings } := by
  induction slots generalizing h with
  | nil => rfl
  | cons slot rest ih =>
    have hrest := ih (h.mark slot)
    rw [← mark_withStrings] at hrest
    exact hrest

theorem blacken_withStrings (h : Heap) (strings : Table) (slot : Nat) :
    { h with strings }.blacken slot = { h.blacken slot with strings } := by
  have hcell : { h with strings }.cell? slot = h.cell? slot := rfl
  rw [blacken, blacken, hcell]
  cases h.cell? slot with
  | none => rfl
  | some c =>
    exact congrArg (setCell · slot (some c))
      (markAll_withStrings (h.setCell slot none) strings c.object.targets)

theorem trace_withStrings (h : Heap) (strings : Table) :
    { h with strings }.trace.1 = { h.trace.1 with strings } := by
  induction h using trace.induct with
  | case1 h hg => rw [trace_nil hg, trace_nil (h := { h with strings }) hg]
  | case2 h slot grey hg taken blackened traced later heq ih =>
    have hadvance : { h with strings }.advance slot grey = { h.advance slot grey with strings } :=
      blacken_withStrings { h with grey } strings slot
    rw [trace_cons hg, trace_cons (h := { h with strings }) hg, hadvance]
    exact ih

theorem sweep_withStrings (h : Heap) (strings : Table) :
    { h with strings }.sweep = { h.sweep with strings } := by
  have hcharges : { h with strings }.chargesAt h.garbage = h.chargesAt h.garbage :=
    chargesAt_congr fun _ _ => rfl
  have hgarbage : { h with strings }.garbage = h.garbage := rfl
  rw [sweep, hgarbage, hcharges]
  rfl

theorem swept_withStrings (h : Heap) (strings : Table) :
    { h with strings }.swept = { h.swept with
      strings := (strings.prune fun key => h.trace.1.isMarked key.str.slot).1 } := by
  have hswept : h.swept = { h.trace.1.sweep with strings := h.swept.strings } :=
    sweep_withStrings h.trace.1 _
  rw [hswept, swept, trace_withStrings]
  exact sweep_withStrings h.trace.1 _

/-- Whatever is interned, a collection succeeds or fails in the same way, and leaves the same heap
otherwise. -/
theorem collect_withStrings (h : Heap) (strings : Table) :
    { h with strings }.collect.result = h.collect.result.map fun after =>
      { after with strings := (strings.prune fun key => h.trace.1.isMarked key.str.slot).1 } := by
  have hnext : { h with strings }.swept.nextThreshold = h.swept.nextThreshold := by
    rw [swept_withStrings h strings]
    rfl
  rw [collect_result, collect_result, hnext, swept_withStrings h strings]
  cases h.swept.nextThreshold <;> rfl

/-! ## What is dropped -/

/-- The slots of the interned strings. -/
def internedSlots (h : Heap) : Finset Nat := (h.strings.entries.map fun e => e.1.str.slot).toFinset

theorem Canonical.nodup_slots (hc : h.Canonical) (hs : h.Sound) :
    (h.strings.entries.map fun e => e.1.str.slot).Nodup := by
  refine List.pairwise_map.2 (hs.strings.layout.searchable.pairwise_entries.imp_of_mem ?_)
  intro e f he hf hne hslot
  exact hne (hc.eq_of_slot ⟨e.2, he⟩ ⟨f.2, hf⟩ hslot)

theorem Sound.occupied_collect (hs : h.Sound) (hc : h.collect.result = .ok after) {slot : Nat} :
    after.Occupied slot ↔ h.Reach h.markedSlots slot := by
  obtain ⟨threshold, -, rfl⟩ := of_collect_eq_ok hc
  exact occupied_swept hs.tidy.traced

theorem Sound.mem_entries_collect (hs : h.Sound) (hc : h.collect.result = .ok after)
    {e : Symbol × Value} : e ∈ after.strings.entries ↔
      e ∈ h.strings.entries ∧ after.Occupied e.1.str.slot := by
  rw [hs.occupied_collect hc, ← isMarked_trace_iff hs.tidy.traced, and_comm]
  obtain ⟨threshold, -, rfl⟩ := of_collect_eq_ok hc
  have hstrings : e ∈ h.swept.strings.entries ↔
      h.trace.1.isMarked e.1.str.slot = true ∧ e ∈ h.strings.entries := by
    rw [swept_strings, Table.mem_entries_prune]
  exact hstrings

/-- As many entries are dropped as interned strings are gone. -/
theorem Canonical.dropped_eq (hc : h.Canonical) (hs : h.Sound)
    (hcollect : h.collect.result = .ok after) :
    (h.strings.prune fun key => h.trace.1.isMarked key.str.slot).2 =
      (h.internedSlots \ after.liveSlots).card := by
  have hgone : h.internedSlots \ after.liveSlots =
      ((h.strings.entries.map fun e => e.1.str.slot).filter
        fun slot => !h.trace.1.isMarked slot).toFinset := by
    ext slot
    rw [Finset.mem_sdiff, internedSlots, List.mem_toFinset, List.mem_toFinset, List.mem_filter,
      mem_liveSlots, hs.occupied_collect hcollect, ← isMarked_trace_iff hs.tidy.traced,
      Bool.not_eq_true', Bool.not_eq_true]
  rw [hgone, List.toFinset_card_of_nodup ((hc.nodup_slots hs).filter _), Table.prune_dropped_eq,
    List.filter_map, List.length_map, List.countP_eq_length_filter]
  rfl

/-! ## Weak collections -/

/-- A collection that treats the table of interned strings as weak. -/
structure CollectsWeakly (h after : Heap) : Prop where
  /-- What is left is what can be reached, interned or not. -/
  occupied_iff : ∀ slot, after.Occupied slot ↔ h.Reach h.markedSlots slot
  /-- Had anything else been interned, the same would be left. -/
  indifferent : ∀ strings, ∃ other, { h with strings }.collect.result = .ok other ∧
    ∀ slot, other.cell? slot = after.cell? slot
  /-- The entries that are left are those whose strings are left. -/
  mem_entries : ∀ e, e ∈ after.strings.entries ↔
    e ∈ h.strings.entries ∧ after.Occupied e.1.str.slot
  /-- A text is found if it was found before and its string can be reached. -/
  finds : ∀ text, ∃ before found, h.find? text = .ok before ∧ after.find? text = .ok found ∧
    ∀ key, found = some key ↔ before = some key ∧ h.Reach h.markedSlots key.str.slot
  capacity_eq : after.strings.capacity = h.strings.capacity
  used_eq : after.strings.used = h.strings.used
  /-- The collection reports how many entries and how many interned strings are gone. -/
  reported : ∃ summary, .cycleEnded summary ∈ h.collect.events ∧
    after.strings.size + summary.stringsDropped = h.strings.size ∧
    summary.stringsDropped = (h.internedSlots \ after.liveSlots).card

/-- What a text is found by can be reached, if it is found afterwards. -/
theorem Canonical.find?_collect (hc : h.Canonical) (hs : h.Sound)
    (hcollect : h.collect.result = .ok after) (text : String) :
    ∃ before found, h.find? text = .ok before ∧ after.find? text = .ok found ∧
      ∀ key, found = some key ↔ before = some key ∧ h.Reach h.markedSlots key.str.slot := by
  obtain ⟨before, hbefore, hwas⟩ := hc.find?_eq hs text
  obtain ⟨found, hfound, his⟩ := (hc.collect hs hcollect).find?_eq (hs.collect hcollect) text
  refine ⟨before, found, hbefore, hfound, ?_⟩
  obtain ⟨threshold, -, rfl⟩ := of_collect_eq_ok hcollect
  have ht := hs.tidy.traced
  intro key
  have hinterned : h.swept.Interned key ↔ h.Reach h.markedSlots key.str.slot ∧ h.Interned key :=
    interned_swept ht
  rw [his, hwas]
  constructor
  · rintro ⟨hkey, s, ho, hspells⟩
    obtain ⟨hr, hold⟩ := hinterned.1 hkey
    exact ⟨⟨hold, s, ((object?_swept ht).1 ho).2, hspells⟩, hr⟩
  · rintro ⟨⟨hkey, s, ho, hspells⟩, hr⟩
    exact ⟨hinterned.2 ⟨hr, hkey⟩, s, (object?_swept ht).2 ⟨hr, ho⟩, hspells⟩

theorem Canonical.reported_dropped (hc : h.Canonical) (hs : h.Sound)
    (hcollect : h.collect.result = .ok after) :
    ∃ summary, .cycleEnded summary ∈ h.collect.events ∧
      after.strings.size + summary.stringsDropped = h.strings.size ∧
      summary.stringsDropped = (h.internedSlots \ after.liveSlots).card := by
  have hdropped : h.trace.1.dropStrings.2 =
      (h.strings.prune fun key => h.trace.1.isMarked key.str.slot).2 := by
    rw [← (repainted_trace h).strings_eq]
    rfl
  refine ⟨_, by rw [events_collect hcollect]; exact List.mem_append_right _ List.mem_cons_self,
    ?_, ?_⟩
  · have hle := hs.strings.layout.dropped_le fun key => h.trace.1.isMarked key.str.slot
    obtain ⟨threshold, -, rfl⟩ := of_collect_eq_ok hcollect
    show h.swept.strings.size + h.trace.1.dropStrings.2 = h.strings.size
    rw [hdropped, swept_strings]
    exact Nat.sub_add_cancel hle
  · exact hdropped.trans (hc.dropped_eq hs hcollect)

/-- **The table of interned strings is weak, and exactly so.** This holds of every heap in which no
text of a string has been overwritten, whatever has been marked in it. -/
theorem Arises.collects_weakly (ha : h.Arises false policy) (hc : h.collect.result = .ok after) :
    h.CollectsWeakly after where
  occupied_iff _ := ha.sound.occupied_collect hc
  indifferent strings := by
    have hother := collect_withStrings h strings
    rw [hc] at hother
    exact ⟨_, hother, fun _ => rfl⟩
  mem_entries _ := ha.sound.mem_entries_collect hc
  finds := ha.canonical.find?_collect ha.sound hc
  capacity_eq := by
    obtain ⟨threshold, -, rfl⟩ := of_collect_eq_ok hc
    show h.swept.strings.capacity = h.strings.capacity
    rw [swept_strings]
    exact Array.size_map
  used_eq := by
    obtain ⟨threshold, -, rfl⟩ := of_collect_eq_ok hc
    show h.swept.strings.used = h.strings.used
    rw [swept_strings]
    rfl
  reported := ha.canonical.reported_dropped ha.sound hc

/-! ## One string of two -/

theorem Arises.markRoots {overwrites : Bool} (ha : h.Arises overwrites policy)
    (roots : List Root) : (h.markRoots roots).Arises overwrites policy := by
  rw [markRoots_eq]
  exact ha.markAll _

/-- A heap with two strings. -/
def double : Heap := (single.withString (.ofText "b" 0)).1

theorem arises_double : double.Arises false {} := by
  have hsingle : single.Arises false {} := .step .new (.intern
    (show ((Heap.new {}).internReserving "a" 0).result =
      .ok (single, { str := ⟨0⟩, hash := Text.hash "a" }) by decide +kernel))
  exact .step hsingle (.intern (show (single.internReserving "b" 0).result =
    .ok (double, { str := ⟨1⟩, hash := Text.hash "b" }) by decide +kernel))

/-- The marked string is found after the collection, the other is not. -/
theorem collects_weakly_double : ∃ after,
    (double.markRoots [.value (.str { str := ⟨0⟩, hash := Text.hash "a" })]).collect.result =
      .ok after ∧
    (double.markRoots [.value (.str { str := ⟨0⟩, hash := Text.hash "a" })]).CollectsWeakly after ∧
    after.find? "a" = .ok (some { str := ⟨0⟩, hash := Text.hash "a" }) ∧
    after.find? "b" = .ok none ∧ after.strings.size = 1 ∧ after.strings.used = 2 := by
  have hdone : (double.markRoots
      [.value (.str { str := ⟨0⟩, hash := Text.hash "a" })]).collect.result =
      .ok { (double.markRoots [.value (.str { str := ⟨0⟩, hash := Text.hash "a" })]).swept with
        cycles := 1, threshold := 1048576 } := by
    decide +kernel
  exact ⟨_, hdone, Arises.collects_weakly (arises_double.markRoots _) hdone, by decide +kernel,
    by decide +kernel, by decide +kernel, by decide +kernel⟩

end Heap

end ObjectHeap
