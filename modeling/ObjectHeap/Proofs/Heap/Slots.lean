import ObjectHeap.Heap.Allocate
import ObjectHeap.Proofs.Heap.Marking

/-!
# Slots

Which slots an operation writes. The free stack lists the empty slots, each once (`Slotted`), and
this is what keeps allocation from writing over an object: it takes an empty slot or makes a new
one, and touches no other (`cell?_place`).

A collection is traced, then drops strings, and then sweeps (`swept`); only after that does it
compute the next threshold, which can fail. So a collection that completes leaves the swept heap
with another threshold and count (`of_collect_eq_ok`). Its cells are those that can be reached from
the marked slots, without their marks (`cell?_swept`), and the slots it frees join the free stack.
-/

set_option autoImplicit false

namespace ObjectHeap

namespace Heap

variable {h : Heap}

/-- The free stack lists the empty slots, each once. -/
structure Slotted (h : Heap) : Prop where
  nodup : h.free.Nodup
  mem_iff : ∀ slot, slot ∈ h.free ↔ slot < h.cells.size ∧ h.cell? slot = none

theorem cell?_of_size_le {slot : Nat} (hle : h.cells.size ≤ slot) : h.cell? slot = none := by
  rw [cell?, Array.getElem?_eq_none hle, Option.join_none]

theorem object?_new (policy : Policy) (slot : Nat) : (Heap.new policy).object? slot = none := by
  rw [object?, cell?_of_size_le (Nat.zero_le slot), Option.map_none]

theorem slotted_new (policy : Policy) : (Heap.new policy).Slotted where
  nodup := List.nodup_nil
  mem_iff slot := by simp [Heap.new]

theorem clean_new (policy : Policy) : (Heap.new policy).Clean where
  grey_eq := rfl
  unmarked slot := by simp [Heap.new, isMarked, cell?]

theorem Repainted.slotted {g : Heap} (hg : Repainted h g) (hs : h.Slotted) : g.Slotted where
  nodup := by rw [hg.free_eq]; exact hs.nodup
  mem_iff slot := by rw [hg.free_eq, hs.mem_iff, hg.size_eq, hg.cell?_eq_none_iff]

/-! ## Following references -/

theorem object?_of_deref {k : Kind} {r : Ref k} {p : k.Payload} (hr : h.deref r = .ok p) :
    h.object? r.slot = some (.of k p) := by
  unfold deref at hr
  split at hr
  · cases hr
  · cases hr
  · next o _ ho =>
    split at hr
    · next q hq =>
      cases hr
      rw [ho, Object.eq_of_as? hq]
    · cases hr

theorem deref_of_object? {k : Kind} {r : Ref k} {p : k.Payload} (hk : k ≠ .box)
    (ho : h.object? r.slot = some (.of k p)) : h.deref r = .ok p := by
  cases k with
  | box => exact absurd rfl hk
  | str | cls | inst => rw [deref, ho]; rfl

/-- What can be followed can be changed. -/
theorem access_of_deref {k : Kind} {r : Ref k} {p : k.Payload} (hr : h.deref r = .ok p) :
    h.access r = .ok (p, h.replace r) := by
  rw [access, hr]
  rfl

theorem access_of_deref_error {k : Kind} {r : Ref k} {f : Fault} (hr : h.deref r = .error f) :
    h.access r = .error f := by
  rw [access, hr]
  rfl

/-- What can be changed can be followed, and to change it is to replace it. -/
theorem of_access_eq_ok {k : Kind} {r : Ref k} {p : k.Payload} {put : k.Payload → Heap}
    (ha : h.access r = .ok (p, put)) : h.deref r = .ok p ∧ put = h.replace r := by
  cases hr : h.deref r with
  | error f =>
    rw [access_of_deref_error hr] at ha
    cases ha
  | ok q =>
    rw [access_of_deref hr] at ha
    cases ha
    exact ⟨rfl, rfl⟩

/-! ## Allocation -/

section Place

variable {o : Object}

theorem place_of_free {slot : Nat} {free : List Nat} (hf : h.free = slot :: free) :
    h.place o = ({ h with
      cells := h.cells.setIfInBounds slot (some { object := o, charge := chargeOf o })
      free
      bytes := h.bytes + chargeOf o }, slot) := by
  simp only [place, hf]

theorem place_of_full (hf : h.free = []) :
    h.place o = ({ h with
      cells := h.cells.push (some { object := o, charge := chargeOf o })
      bytes := h.bytes + chargeOf o }, h.cells.size) := by
  simp only [place, hf]

theorem place_slot_empty (hs : h.Slotted) : h.cell? (h.place o).2 = none := by
  cases hf : h.free with
  | nil => rw [place_of_full hf]; exact cell?_of_size_le (Nat.le_refl _)
  | cons slot free =>
    rw [place_of_free hf]
    exact ((hs.mem_iff slot).1 (hf ▸ List.mem_cons_self)).2

/-- The new object is in the slot that is answered, and all other slots hold what they held. -/
theorem cell?_place (hs : h.Slotted) (slot : Nat) : (h.place o).1.cell? slot =
    if slot = (h.place o).2 then some { object := o, charge := chargeOf o } else h.cell? slot := by
  cases hf : h.free with
  | nil =>
    rw [place_of_full hf, cell?, Array.getElem?_push]
    split <;> rfl
  | cons target free =>
    have hlt := ((hs.mem_iff target).1 (hf ▸ List.mem_cons_self)).1
    rw [place_of_free hf, cell?, Array.getElem?_setIfInBounds]
    by_cases hslot : slot = target
    · rw [if_pos hslot.symm, if_pos hlt, if_pos hslot, Option.join_some]
    · rw [if_neg (Ne.symm hslot), if_neg hslot, cell?]

theorem object?_place (hs : h.Slotted) (slot : Nat) : (h.place o).1.object? slot =
    if slot = (h.place o).2 then some o else h.object? slot := by
  rw [object?, cell?_place hs, object?]
  split <;> rfl

/-- An object that is there after an allocation is the new one, or was there before. -/
theorem of_object?_place (hs : h.Slotted) {slot : Nat} {o' : Object}
    (ho' : (h.place o).1.object? slot = some o') :
    (slot = (h.place o).2 ∧ o' = o) ∨ (slot ≠ (h.place o).2 ∧ h.object? slot = some o') := by
  rw [object?_place hs] at ho'
  split at ho'
  · next heq => exact .inl ⟨heq, (Option.some.inj ho').symm⟩
  · next hne => exact .inr ⟨hne, ho'⟩

theorem object?_place_of_occupied (hs : h.Slotted) {slot : Nat} (ho : h.Occupied slot) :
    (h.place o).1.object? slot = h.object? slot := by
  rw [object?_place hs, if_neg]
  rintro rfl
  obtain ⟨c, hc⟩ := ho
  rw [place_slot_empty hs] at hc
  cases hc

theorem Slotted.place (hs : h.Slotted) : (h.place o).1.Slotted := by
  cases hf : h.free with
  | nil =>
    refine ⟨by rw [place_of_full hf]; exact hs.nodup, ?_⟩
    intro slot
    have hmem := hs.mem_iff slot
    rw [hf] at hmem
    rw [cell?_place hs, place_of_full hf]
    simp only [hf, Array.size_push, List.not_mem_nil, false_iff, not_and] at hmem ⊢
    intro hlt
    split
    · simp
    · exact hmem (by omega)
  | cons target free =>
    have hn := hs.nodup
    rw [hf, List.nodup_cons] at hn
    refine ⟨by rw [place_of_free hf]; exact hn.2, ?_⟩
    intro slot
    have hmem := hs.mem_iff slot
    rw [hf, List.mem_cons] at hmem
    rw [cell?_place hs, place_of_free hf]
    simp only [Array.size_setIfInBounds]
    by_cases hslot : slot = target
    · simp [hslot, hn.1]
    · rw [if_neg hslot, ← hmem]
      simp [hslot]

theorem isMarked_place (hs : h.Slotted) (slot : Nat) :
    (h.place o).1.isMarked slot = h.isMarked slot := by
  rw [isMarked, cell?_place hs, isMarked]
  split
  · next heq => rw [heq, place_slot_empty hs]; rfl
  · rfl

theorem place_grey : (h.place o).1.grey = h.grey := by
  cases hf : h.free with
  | nil => rw [place_of_full hf]
  | cons slot free => rw [place_of_free hf]

theorem place_strings : (h.place o).1.strings = h.strings := by
  cases hf : h.free with
  | nil => rw [place_of_full hf]
  | cons slot free => rw [place_of_free hf]

/-- Allocation changes neither the policy nor the threshold nor the number of collections. -/
theorem place_schedule (h : Heap) (o : Object) : (h.place o).1.policy = h.policy ∧
    (h.place o).1.threshold = h.threshold ∧ (h.place o).1.cycles = h.cycles := by
  cases hf : h.free with
  | nil => rw [place_of_full hf]; exact ⟨rfl, rfl, rfl⟩
  | cons slot free => rw [place_of_free hf]; exact ⟨rfl, rfl, rfl⟩

theorem Tidy.place (ht : h.Tidy) (hs : h.Slotted) : (h.place o).1.Tidy where
  nodup := by rw [place_grey]; exact ht.nodup
  mem_iff slot := by rw [place_grey, isMarked_place hs, ht.mem_iff]

/-- A new object is not marked, and it takes the place of none. -/
theorem Clean.place (hc : h.Clean) (hs : h.Slotted) : (h.place o).1.Clean where
  grey_eq := place_grey.trans hc.grey_eq
  unmarked slot := (isMarked_place hs slot).trans (hc.unmarked slot)

end Place

/-! ## Editing -/

section Replace

variable {k : Kind} {r : Ref k} {p : k.Payload}

theorem cell?_replace (slot : Nat) : (h.replace r p).cell? slot =
    if slot = r.slot then (h.cell? slot).map fun c => { c with object := .of k p }
    else h.cell? slot := by
  simp only [replace, cell?, Array.getElem?_modify]
  by_cases heq : slot = r.slot
  · rw [if_pos heq.symm, if_pos heq]
    cases h.cells[slot]? with
    | none => rfl
    | some c => rfl
  · rw [if_neg (Ne.symm heq), if_neg heq]

theorem object?_replace (slot : Nat) : (h.replace r p).object? slot =
    if slot = r.slot then (h.object? slot).map fun _ => .of k p else h.object? slot := by
  rw [object?, cell?_replace, object?]
  split
  · rw [Option.map_map, Option.map_map]
    rfl
  · rfl

/-- An object that is there after a change is the changed one, or was there before. -/
theorem of_object?_replace {slot : Nat} {o : Object} (ho : (h.replace r p).object? slot = some o) :
    (slot = r.slot ∧ o = .of k p) ∨ (slot ≠ r.slot ∧ h.object? slot = some o) := by
  rw [object?_replace] at ho
  split at ho
  · next heq =>
    obtain ⟨_, -, rfl⟩ := Option.map_eq_some_iff.1 ho
    exact .inl ⟨heq, rfl⟩
  · next hne => exact .inr ⟨hne, ho⟩

theorem isMarked_replace (slot : Nat) : (h.replace r p).isMarked slot = h.isMarked slot := by
  rw [isMarked, cell?_replace, isMarked]
  split
  · cases h.cell? slot <;> rfl
  · rfl

theorem Slotted.replace (hs : h.Slotted) : (h.replace r p).Slotted where
  nodup := hs.nodup
  mem_iff slot := by
    have hcell : (h.replace r p).cell? slot = none ↔ h.cell? slot = none := by
      rw [cell?_replace]
      split
      · exact Option.map_eq_none_iff
      · rfl
    rw [hcell, Heap.replace, Array.size_modify]
    exact hs.mem_iff slot

theorem Tidy.replace (ht : h.Tidy) : (h.replace r p).Tidy where
  nodup := ht.nodup
  mem_iff slot := by rw [isMarked_replace, ← ht.mem_iff]; rfl

theorem Clean.replace (hc : h.Clean) : (h.replace r p).Clean where
  grey_eq := hc.grey_eq
  unmarked slot := (isMarked_replace slot).trans (hc.unmarked slot)

end Replace

/-! ## Collection -/

/-- The heap after the sweep of a collection. -/
def swept (h : Heap) : Heap := h.trace.1.dropStrings.1.sweep

theorem swept_policy (h : Heap) : h.swept.policy = h.policy :=
  (repainted_trace h).policy_eq

theorem swept_cycles (h : Heap) : h.swept.cycles = h.cycles :=
  (repainted_trace h).cycles_eq

theorem collect_result (h : Heap) : h.collect.result = do
    let threshold ← h.swept.nextThreshold
    return { h.swept with cycles := h.swept.cycles + 1, threshold } := by
  simp only [collect, Outcome.result_bind, Outcome.result_report, Outcome.result_liftM,
    Outcome.result_pure]
  rfl

theorem of_collect_eq_ok {after : Heap} (hc : h.collect.result = .ok after) :
    ∃ threshold, h.swept.nextThreshold = .ok threshold ∧
      after = { h.swept with cycles := h.swept.cycles + 1, threshold } := by
  rw [collect_result] at hc
  cases ht : h.swept.nextThreshold with
  | error f => rw [ht] at hc; cases hc
  | ok threshold => rw [ht] at hc; cases hc; exact ⟨threshold, rfl, rfl⟩

/-- The only fault of a collection is that of its threshold. -/
theorem of_collect_eq_error {f : Fault} (hc : h.collect.result = .error f) :
    f = .thresholdOverflow := by
  rw [collect_result] at hc
  by_cases hfits : h.swept.bytes * h.swept.policy.growthFactor < UInt64.size
  · simp only [nextThreshold, hfits, if_true] at hc
    cases hc
  · simp only [nextThreshold, hfits, if_false] at hc
    cases hc
    rfl

/-- The threshold after a collection is told by the bytes that are left. -/
theorem threshold_collect {after : Heap} (hc : h.collect.result = .ok after) :
    after.threshold = max (after.bytes * h.policy.growthFactor) h.policy.initialThreshold := by
  obtain ⟨threshold, hnext, rfl⟩ := of_collect_eq_ok hc
  rw [← swept_policy h]
  simp only [nextThreshold] at hnext
  split at hnext
  · exact (Except.ok.inj hnext).symm
  · cases hnext

theorem cell?_sweep (h : Heap) (slot : Nat) : h.sweep.cell? slot = sweptCell (h.cell? slot) := by
  simp only [sweep, cell?, Array.getElem?_map]
  cases h.cells[slot]? <;> rfl

theorem cell?_swept_eq (h : Heap) (slot : Nat) :
    h.swept.cell? slot = sweptCell (h.trace.1.cell? slot) :=
  cell?_sweep _ slot

/-- What a sweep leaves is what was marked. -/
theorem sweptCell_eq_some {o : Option Cell} {c : Cell} :
    sweptCell o = some c ↔ ∃ c', o = some c' ∧ c'.marked = true ∧ c'.bare = c := by
  cases o with
  | none => simp [sweptCell]
  | some c' =>
    simp only [sweptCell, Option.some.injEq, exists_eq_left']
    split
    · next hm => simp only [hm, Option.some.injEq, true_and]; rfl
    · next hm => simp [hm]

/-- **What a collection leaves**: the cells that can be reached from the marked slots, unmarked. -/
theorem cell?_swept (ht : h.Traced) {slot : Nat} {c : Cell} :
    h.swept.cell? slot = some c ↔
      h.Reach h.markedSlots slot ∧ (h.cell? slot).map Cell.bare = some c := by
  rw [cell?_swept_eq, sweptCell_eq_some, ← isMarked_trace_iff ht, isMarked_iff,
    ← (repainted_trace h).cells]
  constructor
  · rintro ⟨c', hc, hm, rfl⟩
    exact ⟨⟨c', hc, hm⟩, by rw [hc]; rfl⟩
  · rintro ⟨⟨c', hc, hm⟩, hbare⟩
    rw [hc] at hbare
    exact ⟨c', hc, hm, Option.some.inj hbare⟩

theorem object?_swept (ht : h.Traced) {slot : Nat} {o : Object} :
    h.swept.object? slot = some o ↔ h.Reach h.markedSlots slot ∧ h.object? slot = some o := by
  simp only [object?, Option.map_eq_some_iff]
  constructor
  · rintro ⟨c, hc, rfl⟩
    obtain ⟨hr, hcell⟩ := (cell?_swept ht).1 hc
    obtain ⟨c', hc', rfl⟩ := Option.map_eq_some_iff.1 hcell
    exact ⟨hr, c', hc', rfl⟩
  · rintro ⟨hr, c', hc', rfl⟩
    exact ⟨c'.bare, (cell?_swept ht).2 ⟨hr, by rw [hc']; rfl⟩, rfl⟩

theorem occupied_swept (ht : h.Traced) {slot : Nat} :
    h.swept.Occupied slot ↔ h.Reach h.markedSlots slot := by
  rw [occupied_iff_object?]
  simp only [object?_swept ht]
  exact ⟨fun ⟨_, hr, _⟩ => hr, fun hr =>
    (occupied_iff_object?.1 hr.occupied).imp fun _ ho => ⟨hr, ho⟩⟩

theorem clean_swept (h : Heap) : h.swept.Clean where
  grey_eq := grey_trace h
  unmarked slot := by
    rw [isMarked, cell?_swept_eq]
    cases hc : sweptCell (h.trace.1.cell? slot) with
    | none => rfl
    | some c =>
      obtain ⟨c', _, _, rfl⟩ := sweptCell_eq_some.1 hc
      rfl

/-- Whatever has been marked before, nothing is after a collection. -/
theorem clean_collect {after : Heap} (hc : h.collect.result = .ok after) : after.Clean := by
  obtain ⟨threshold, -, rfl⟩ := of_collect_eq_ok hc
  exact ⟨(clean_swept h).grey_eq, (clean_swept h).unmarked⟩

theorem slotted_swept (hs : h.Slotted) : h.swept.Slotted := by
  have hpaint := repainted_trace h
  have hfree : h.swept.free = h.trace.1.garbage.reverse ++ h.free := by
    rw [← hpaint.free_eq]
    rfl
  have hsize : h.swept.cells.size = h.cells.size := by
    rw [← hpaint.size_eq]
    exact Array.size_map
  have hgarbage : ∀ slot, slot ∈ h.trace.1.garbage ↔ h.trace.1.isWhite slot = true := by
    intro slot
    rw [garbage, List.mem_filter, List.mem_range]
    refine ⟨And.right, fun hw => ⟨?_, hw⟩⟩
    obtain ⟨c, hc, -⟩ := isWhite_iff.1 hw
    exact cell?_lt_size hc
  constructor
  · rw [hfree, List.nodup_append]
    refine ⟨List.pairwise_reverse.2 ((List.nodup_range.filter _).imp Ne.symm), hs.nodup, ?_⟩
    rintro slot hw _ hf rfl
    rw [List.mem_reverse, hgarbage, isWhite_iff] at hw
    obtain ⟨c, hc, -⟩ := hw
    rw [hpaint.cell?_eq_none_iff.2 ((hs.mem_iff slot).1 hf).2] at hc
    cases hc
  · intro slot
    rw [hfree, List.mem_append, List.mem_reverse, hgarbage, hs.mem_iff, hsize, cell?_swept_eq,
      ← hpaint.cell?_eq_none_iff, ← hpaint.size_eq]
    cases hc : h.trace.1.cell? slot with
    | none =>
      have hw : h.trace.1.isWhite slot = false := by rw [isWhite, hc]; rfl
      simp [hw, sweptCell]
    | some c =>
      have hlt := cell?_lt_size hc
      have hw : h.trace.1.isWhite slot = !c.marked := by rw [isWhite, hc]; rfl
      cases hm : c.marked <;> simp [hw, hm, hlt, sweptCell]

end Heap

end ObjectHeap
