import Mathlib.Data.Finset.Card
import Mathlib.Order.Bounds.Basic
import ObjectHeap.Proofs.Heap.History
import ObjectHeap.Proofs.Table.Content

/-!
# The slot allocator

The slots of a heap are of two kinds, live and free, and the free stack lists those of the second
kind. So a heap has as many slots as it has objects and free slots together, and since a slot is
made only when none is free, there are never more slots than there once were objects at the same
time (`History.isGreatest_size`). A slot that was handed out is one of them, for as long as the heap
lives.
-/

set_option autoImplicit false

namespace ObjectHeap

namespace Table

/-- What a search by content finds is a key of the table, however keys are resolved. -/
theorem of_findFrom_eq_ok {buckets : Array Bucket} {text : String} {hash : UInt32}
    {f : Symbol → Except Fault String} {key : Symbol} {steps index : Nat}
    (hf : findFrom buckets text hash f steps index = .ok (some key)) :
    ∃ (i : Nat) (v : Value), buckets[i]? = some (.entry key v) := by
  induction steps generalizing index with
  | zero => cases hf
  | succ steps ih =>
    unfold findFrom at hf
    split at hf
    · cases hf
    · cases hf
    · exact ih hf
    · next k v hb =>
      split at hf
      · cases htext : f k with
        | error fault => rw [htext] at hf; cases hf
        | ok resolved =>
          rw [htext] at hf
          simp only [bind, Except.bind] at hf
          split at hf
          · cases hf
            exact ⟨index, v, hb⟩
          · exact ih hf
      · exact ih hf

end Table

namespace Heap

variable {h after : Heap} {overwrites : Bool} {policy : Policy}

/-! ## Live slots -/

/-- The slots that are occupied. -/
def liveSlots (h : Heap) : Finset Nat :=
  (Finset.range h.cells.size).filter fun slot => (h.cell? slot).isSome

theorem mem_liveSlots {slot : Nat} : slot ∈ h.liveSlots ↔ h.Occupied slot := by
  rw [liveSlots, Finset.mem_filter, Finset.mem_range, Option.isSome_iff_exists]
  exact ⟨And.right, fun ho => ⟨Occupied.lt_size ho, ho⟩⟩

theorem toList_cells (h : Heap) : h.cells.toList = (List.range h.cells.size).map h.cell? := by
  apply List.ext_getElem
  · simp
  · intro i hi hi'
    rw [Array.length_toList] at hi
    simp [cell?, hi]

theorem objectCount_eq (h : Heap) : h.objectCount = h.liveSlots.card := by
  rw [objectCount, ← Array.countP_toList, toList_cells, List.countP_map, List.countP_eq_length_filter,
    liveSlots, Finset.card_def, Finset.filter_val, Finset.range_val, Multiset.range,
    Multiset.filter_coe, Multiset.coe_card]
  congr 2
  funext slot
  simp

/-- The slots that are not free are live. -/
theorem Slotted.objectCount_add (hs : h.Slotted) :
    h.objectCount + h.free.length = h.cells.size := by
  have hfree : h.free.toFinset =
      (Finset.range h.cells.size).filter fun slot => ¬(h.cell? slot).isSome := by
    ext slot
    rw [List.mem_toFinset, hs.mem_iff, Finset.mem_filter, Finset.mem_range, Option.not_isSome_iff_eq_none]
  rw [objectCount_eq, ← List.toFinset_card_of_nodup hs.nodup, hfree, liveSlots,
    Finset.card_filter_add_card_filter_not, Finset.card_range]

/-! ## Allocation -/

/-- From one heap to another an object has been put into a slot, which was free or is a new one at
the end. No other slot has changed. -/
structure Stores (h : Heap) (o : Object) (slot : Nat) (after : Heap) : Prop where
  vacant : h.cell? slot = none
  source : slot ∈ h.free ∨ slot = h.cells.size
  stored : after.object? slot = some o
  others : ∀ other, other ≠ slot → after.cell? other = h.cell? other

theorem Slotted.stores_place (hs : h.Slotted) (o : Object) :
    h.Stores o (h.place o).2 (h.place o).1 where
  vacant := place_slot_empty hs
  source := by
    cases hf : h.free with
    | nil => rw [place_of_full hf]; exact .inr rfl
    | cons slot free => rw [place_of_free hf]; exact .inl List.mem_cons_self
  stored := by rw [object?_place hs, if_pos rfl]
  others other hne := by rw [cell?_place hs, if_neg hne]

/-- Interning leaves the heap as it is or stores one string. -/
theorem Slotted.stores_internReserving (hs : h.Slotted) {text : String} {reserved : Nat}
    {s : Symbol} (hi : (h.internReserving text reserved).result = .ok (after, s)) :
    (after = h ∧ h.find? text = .ok (some s)) ∨
      h.Stores (.str (.ofText text reserved)) s.str.slot after := by
  rcases of_internReserving_eq_ok hi with ⟨rfl, hfind⟩ | ⟨rfl, rfl⟩
  · exact .inl ⟨rfl, hfind⟩
  · have hstores := hs.stores_place (.str (.ofText text reserved))
    exact .inr ⟨hstores.vacant, hstores.source, hstores.stored, hstores.others⟩

/-! ## Handed out slots -/

/-- An interned symbol refers to an occupied slot, even where texts have been overwritten. -/
def Attached (h : Heap) : Prop := ∀ key v, (key, v) ∈ h.strings.entries → h.Occupied key.str.slot

theorem Attached.mono (ha : h.Attached) (hstrings : after.strings = h.strings)
    (ho : ∀ slot, h.Occupied slot → after.Occupied slot) : after.Attached := by
  intro key v hkey
  rw [hstrings] at hkey
  exact ho _ (ha key v hkey)

theorem occupied_place_self (hs : h.Slotted) (o : Object) : (h.place o).1.Occupied (h.place o).2 :=
  occupied_iff_object?.2 ⟨o, (hs.stores_place o).stored⟩

theorem Occupied.place {slot : Nat} (ho : h.Occupied slot) (hs : h.Slotted) (o : Object) :
    (h.place o).1.Occupied slot := by
  rw [occupied_iff_object?, object?_place_of_occupied hs ho]
  exact occupied_iff_object?.1 ho

theorem Attached.withString (ha : h.Attached) (hs : h.Sound) (s : Str) :
    (h.withString s).1.Attached := by
  have hstrings : (h.place (.str s)).1.strings.Layout := by
    rw [place_strings]
    exact hs.strings.layout
  intro key v hkey
  rcases (Table.mem_entries_insert hstrings).1 hkey with hnew | ⟨-, hold⟩
  · cases hnew
    exact occupied_place_self hs.slotted _
  · rw [place_strings] at hold
    exact (ha key v hold).place hs.slotted _

theorem Attached.step (ha : h.Attached) (hs : h.Sound) (hstep : Step overwrites h after) :
    after.Attached := by
  cases hstep with
  | intern hi =>
    rcases of_internReserving_eq_ok hi with ⟨rfl, -⟩ | ⟨rfl, -⟩
    · exact ha
    · exact ha.withString hs _
  | allocate _ hok =>
    cases hok
    exact ha.mono place_strings fun slot ho => ho.place hs.slotted _
  | mark slot =>
    have hpaint := repainted_mark h slot
    exact ha.mono hpaint.strings_eq fun slot => hpaint.occupied_iff.2
  | edit q _ _ haccess =>
    obtain ⟨-, rfl⟩ := of_access_eq_ok haccess
    refine ha.mono rfl ?_
    intro slot ho
    rw [Occupied, ← Option.isSome_iff_exists, isSome_cell?_replace]
    exact Option.isSome_iff_exists.2 ho
  | collect hc =>
    obtain ⟨threshold, -, rfl⟩ := of_collect_eq_ok hc
    intro key v hkey
    -- A symbol is left in the table if its string is marked, and then the string is left, too.
    have hkey : (key, v) ∈ h.swept.strings.entries := hkey
    rw [swept_strings, Table.mem_entries_prune] at hkey
    exact (occupied_swept hs.tidy.traced).2 ((isMarked_trace_iff hs.tidy.traced).1 hkey.1)

theorem Arises.attached (ha : h.Arises overwrites policy) : h.Attached := by
  induction ha with
  | new => exact fun key v hkey => nomatch hkey
  | step hprev hstep ih => exact ih.step hprev.sound hstep

/-- A slot that is handed out is occupied then. -/
theorem Performs.occupied_of_answer {slot : Nat} {events : List Event} (ha : h.Attached)
    (hs : h.Sound) (hp : h.Performs overwrites (some slot) events after) :
    after.Occupied slot := by
  cases hp with
  | intern hi =>
    rcases hs.slotted.stores_internReserving hi with ⟨rfl, hfind⟩ | hstores
    · obtain ⟨i, v, hi⟩ := Table.of_findFrom_eq_ok hfind
      exact ha _ v (Table.mem_entries.2 ⟨i, hi⟩)
    · exact occupied_iff_object?.2 ⟨_, hstores.stored⟩
  | allocate _ hok =>
    cases hok
    exact occupied_place_self hs.slotted _

/-! ## The number of slots -/

theorem size_place (h : Heap) (o : Object) : (h.place o).1.cells.size = h.cells.size ∨
    ((h.place o).1.free = [] ∧ h.cells.size ≤ (h.place o).1.cells.size) := by
  cases hf : h.free with
  | nil =>
    rw [place_of_full hf, Array.size_push]
    exact .inr ⟨hf, Nat.le_succ _⟩
  | cons slot free =>
    rw [place_of_free hf, Array.size_setIfInBounds]
    exact .inl rfl

/-- A slot is made only if none is free, and then none is free afterwards. -/
theorem Step.size (hstep : Step overwrites h after) : after.cells.size = h.cells.size ∨
    (after.free = [] ∧ h.cells.size ≤ after.cells.size) := by
  cases hstep with
  | intern hi =>
    rcases of_internReserving_eq_ok hi with ⟨rfl, -⟩ | ⟨rfl, -⟩
    · exact .inl rfl
    · exact size_place h _
  | allocate _ hok => cases hok; exact size_place h _
  | mark slot => exact .inl (repainted_mark h slot).size_eq
  | edit q _ _ ha =>
    obtain ⟨-, rfl⟩ := of_access_eq_ok ha
    exact .inl Array.size_modify
  | collect hc =>
    obtain ⟨threshold, -, rfl⟩ := of_collect_eq_ok hc
    exact .inl (Array.size_map.trans (repainted_trace h).size_eq)

theorem Step.size_le (hstep : Step overwrites h after) : h.cells.size ≤ after.cells.size := by
  rcases hstep.size with heq | ⟨-, hle⟩
  · exact Nat.le_of_eq heq.symm
  · exact hle

variable {past : List Heap} {handed : List Nat} {journal : List Event}

/-- There are as many slots as there were objects at most at one time. -/
theorem History.isGreatest_size (hh : History overwrites policy (h :: past) handed journal) :
    IsGreatest (objectCount '' {g | g ∈ h :: past}) h.cells.size := by
  generalize hs : h :: past = states at hh
  induction hh generalizing h past with
  | new =>
    cases hs
    refine ⟨⟨.new policy, List.mem_cons_self, rfl⟩, ?_⟩
    rintro _ ⟨g, hg, rfl⟩
    rw [List.mem_singleton.1 hg]
    exact Nat.le_refl 0
  | step hprev hp ih =>
    cases hs
    obtain ⟨⟨peak, hmem, hpeak⟩, hbound⟩ := ih rfl
    have hcount := (hprev.arises.sound.step hp.step).slotted.objectCount_add
    constructor
    · rcases hp.step.size with heq | ⟨hfull, -⟩
      · exact ⟨peak, List.mem_cons_of_mem _ hmem, hpeak.trans heq.symm⟩
      · rw [hfull, List.length_nil, Nat.add_zero] at hcount
        exact ⟨_, List.mem_cons_self, hcount⟩
    · rintro _ ⟨g, hg, rfl⟩
      rcases List.mem_cons.1 hg with rfl | hold
      · omega
      · exact Nat.le_trans (hbound ⟨g, hold, rfl⟩) hp.step.size_le

theorem History.handed_lt (hh : History overwrites policy (h :: past) handed journal) :
    ∀ slot ∈ handed, slot < h.cells.size := by
  generalize hs : h :: past = states at hh
  induction hh generalizing h past with
  | new => exact fun slot hslot => absurd hslot List.not_mem_nil
  | step hprev hp ih =>
    cases hs
    intro slot hslot
    rcases List.mem_append.1 hslot with hold | hnew
    · exact Nat.lt_of_lt_of_le (ih rfl slot hold) hp.step.size_le
    · rw [Option.mem_toList.1 hnew] at hp
      exact (hp.occupied_of_answer hprev.arises.attached hprev.arises.sound).lt_size

/-- **The slot allocator.** In every heap that arises the free stack lists the empty slots, each
once. So an allocation succeeds and stores the object in an empty slot or in a new one at the end,
and changes no other; interning a text does the same or changes nothing. There are as many slots as
the run had objects at most at one time, and every slot that was handed out is one of them. -/
theorem History.allocates_apart (hh : History overwrites policy (h :: past) handed journal) :
    h.free.Nodup ∧
    (∀ slot, slot ∈ h.free ↔ slot < h.cells.size ∧ h.cell? slot = none) ∧
    (∀ k p, ∃ after r, (h.allocate k p).result = .ok (after, r) ∧
      h.Stores (.of k p) r.slot after) ∧
    (∀ text reserved after s, (h.internReserving text reserved).result = .ok (after, s) →
      after = h ∨ h.Stores (.str (.ofText text reserved)) s.str.slot after) ∧
    IsGreatest (objectCount '' {g | g ∈ h :: past}) h.cells.size ∧
    ∀ slot ∈ handed, slot < h.cells.size := by
  have hslotted := hh.arises.sound.slotted
  refine ⟨hslotted.nodup, hslotted.mem_iff, ?_, ?_, hh.isGreatest_size, hh.handed_lt⟩
  · intro k p
    exact ⟨_, _, rfl, hslotted.stores_place _⟩
  · intro text reserved after s hi
    exact (hslotted.stores_internReserving hi).imp_left And.left

/-! ## A slot that is used again -/

/-- A heap with one string. -/
def single : Heap := ((Heap.new {}).withString (.ofText "a" 0)).1

/-- The string has been collected. -/
def vacated : Heap := { single.swept with cycles := 1, threshold := 1048576 }

/-- Another string is in its slot. -/
def refilled : Heap := (vacated.withString (.ofText "b" 0)).1

theorem history_vacated (overwrites : Bool) :
    History overwrites {} [vacated, single, .new {}] [0]
      [.allocated 0 65, .grew 0 8, .cycleBegan, .freed 0,
        .cycleEnded
          { cycle := 1, bytesBefore := 65, bytesAfter := 0, stringsDropped := 1,
            threshold := 1048576 }] := by
  have hsingle : ((Heap.new {}).internReserving "a" 0).result =
      .ok (single, { str := ⟨0⟩, hash := Text.hash "a" }) := by decide +kernel
  have hvacated : single.collect.result = .ok vacated := by decide +kernel
  have hjournal : [.allocated 0 65, .grew 0 8, .cycleBegan, .freed 0,
      .cycleEnded
        { cycle := 1, bytesBefore := 65, bytesAfter := 0, stringsDropped := 1,
          threshold := 1048576 }] =
      [] ++ ((Heap.new {}).internReserving "a" 0).events ++ single.collect.events := by
    decide +kernel
  rw [hjournal]
  exact (History.new.step (.intern hsingle)).step (.collect hvacated)

theorem history_refilled (overwrites : Bool) :
    History overwrites {} [refilled, vacated, single, .new {}] [0, 0]
      ([.allocated 0 65, .grew 0 8, .cycleBegan, .freed 0,
        .cycleEnded
          { cycle := 1, bytesBefore := 65, bytesAfter := 0, stringsDropped := 1,
            threshold := 1048576 }] ++ [.allocated 0 65]) := by
  have hrefilled : (vacated.internReserving "b" 0).result =
      .ok (refilled, { str := ⟨0⟩, hash := Text.hash "b" }) := by decide +kernel
  have hevents : (vacated.internReserving "b" 0).events = [.allocated 0 65] := by decide +kernel
  have hstep := (history_vacated overwrites).step (.intern hrefilled)
  rwa [hevents] at hstep

/-- There was one object at a time, so there is one slot, and it was handed out twice. -/
theorem allocates_apart_refilled : refilled.cells.size = 1 ∧
    IsGreatest (objectCount '' {g | g ∈ [refilled, vacated, single, .new {}]})
      refilled.cells.size ∧ ∀ slot ∈ [0, 0], slot < refilled.cells.size := by
  have hapart := (history_refilled true).allocates_apart
  exact ⟨by decide +kernel, hapart.2.2.2.2⟩

end Heap

end ObjectHeap
