import ObjectHeap.Heap.Collect
import ObjectHeap.Heap.Reach

/-!
# Marking and tracing

Marks and the grey stack are the only things that marking and tracing change. This is said once and
for all by `Repainted`, so that objects, charges, edges and reachability of the heap before can be
spoken of throughout.

What they change is said slot by slot (`isMarked_mark`, `mem_grey_mark`). Between the operations of
a heap the grey slots are exactly the marked ones (`Tidy`). Tracing takes slots off the stack, and
what it keeps instead is that the edges of a marked slot that is *not* on the stack lead to marked
slots (`Traced`). Once the stack is empty this holds of all marked slots, and then they are exactly
the slots that can be reached from those marked at first (`isMarked_trace_iff`).

An object is out of its slot while what it refers to is marked, so a reference to itself is lost on
the way. That makes no difference, because the object has been marked before (`blacken_eq`).
-/

set_option autoImplicit false

namespace ObjectHeap

/-- The cell without its mark. -/
def Cell.bare (c : Cell) : Cell := { c with marked := false }

theorem Value.mem_target? {v : Value} {slot : Nat} :
    slot ∈ v.target?.toList ↔ v.RefersTo slot := by
  constructor
  · intro hslot
    cases v <;> simp only [Value.target?, Option.toList_some, Option.toList_none,
      List.mem_singleton, List.not_mem_nil] at hslot
    all_goals subst hslot
    · exact .str _
    · exact .cls _
    · exact .inst _
  · rintro (s | c | i) <;> exact List.mem_singleton.2 rfl

theorem Table.mem_targets {t : Table} {slot : Nat} : slot ∈ t.targets ↔
    ∃ key v, (key, v) ∈ t.entries ∧ (slot = key.str.slot ∨ v.RefersTo slot) := by
  simp only [Table.targets, List.mem_flatMap, List.mem_cons, Value.mem_target?, Prod.exists]

/-- The slots that a collection marks for an object are those that the object refers to. -/
theorem Object.mem_targets {o : Object} {slot : Nat} : slot ∈ o.targets ↔ o.RefersTo slot := by
  cases o with
  | str s => exact ⟨fun hslot => absurd hslot List.not_mem_nil, fun hslot => by cases hslot⟩
  | cls c =>
    rw [Object.targets, List.mem_cons, Table.mem_targets]
    constructor
    · rintro (rfl | ⟨key, v, he, rfl | hv⟩)
      · exact .name c
      · exact .methodName he
      · exact .method he hv
    · intro hrefers
      cases hrefers with
      | name => exact .inl rfl
      | methodName he => exact .inr ⟨_, _, he, .inl rfl⟩
      | method he hv => exact .inr ⟨_, _, he, .inr hv⟩
  | inst i =>
    rw [Object.targets, List.mem_cons, Table.mem_targets]
    constructor
    · rintro (rfl | ⟨key, v, he, rfl | hv⟩)
      · exact .cls i
      · exact .fieldName he
      · exact .field he hv
    · intro hrefers
      cases hrefers with
      | cls => exact .inl rfl
      | fieldName he => exact .inr ⟨_, _, he, .inl rfl⟩
      | field he hv => exact .inr ⟨_, _, he, .inr hv⟩
  | box v =>
    rw [Object.targets, Value.mem_target?]
    exact ⟨.box, fun hrefers => by cases hrefers with | box hv => exact hv⟩

namespace Heap

variable {h g : Heap}

/-! ## Slots -/

/-- The slots that the object in a slot refers to. -/
def targetsAt (h : Heap) (slot : Nat) : List Nat :=
  match h.object? slot with
  | some o => o.targets
  | none => []

theorem mem_targetsAt {slot target : Nat} : target ∈ h.targetsAt slot ↔
    ∃ o, h.object? slot = some o ∧ o.RefersTo target := by
  unfold targetsAt
  split
  · next o ho => simp [ho, Object.mem_targets]
  · next ho => simp [ho]

theorem occupied_iff_object? {slot : Nat} : h.Occupied slot ↔ ∃ o, h.object? slot = some o := by
  simp only [Occupied, object?, Option.map_eq_some_iff]
  exact ⟨fun ⟨c, hc⟩ => ⟨_, c, hc, rfl⟩, fun ⟨_, c, hc, _⟩ => ⟨c, hc⟩⟩

theorem Occupied.lt_size {slot : Nat} (ho : h.Occupied slot) : slot < h.cells.size := by
  obtain ⟨c, hc⟩ := ho
  exact cell?_lt_size hc

theorem isMarked_iff {slot : Nat} :
    h.isMarked slot = true ↔ ∃ c, h.cell? slot = some c ∧ c.marked = true := by
  simp [isMarked, Option.any_eq_true]

theorem isWhite_iff {slot : Nat} :
    h.isWhite slot = true ↔ ∃ c, h.cell? slot = some c ∧ c.marked = false := by
  unfold isWhite Cell.isWhite
  cases h.cell? slot <;> simp

/-- An occupied slot is marked or white, and not both. -/
theorem isWhite_iff_not_isMarked {slot : Nat} (ho : h.Occupied slot) :
    h.isWhite slot = true ↔ ¬h.isMarked slot = true := by
  obtain ⟨c, hc⟩ := ho
  simp [isWhite_iff, isMarked_iff, hc]

theorem occupied_of_isMarked {slot : Nat} (hm : h.isMarked slot = true) : h.Occupied slot :=
  (isMarked_iff.1 hm).imp fun _ => And.left

theorem mem_markedSlots {slot : Nat} : slot ∈ h.markedSlots ↔ h.isMarked slot = true := by
  rw [markedSlots, List.mem_filter, List.mem_range]
  exact ⟨And.right, fun hm => ⟨(occupied_of_isMarked hm).lt_size, hm⟩⟩

/-! ## The same heap with other marks -/

/-- The heaps differ at most in their marks and grey stacks. -/
structure Repainted (h g : Heap) : Prop where
  cells : ∀ slot, (g.cell? slot).map Cell.bare = (h.cell? slot).map Cell.bare
  size_eq : g.cells.size = h.cells.size
  rest : { g with cells := h.cells, grey := h.grey } = h

namespace Repainted

theorem refl (h : Heap) : Repainted h h := ⟨fun _ => rfl, rfl, rfl⟩

theorem trans {k : Heap} (hg : Repainted h g) (gk : Repainted g k) : Repainted h k where
  cells slot := (gk.cells slot).trans (hg.cells slot)
  size_eq := gk.size_eq.trans hg.size_eq
  rest := by rw [← hg.rest, ← gk.rest]

theorem object?_eq (hg : Repainted h g) (slot : Nat) : g.object? slot = h.object? slot := by
  have hcells := congrArg (Option.map Cell.object) (hg.cells slot)
  rw [Option.map_map, Option.map_map] at hcells
  exact hcells

theorem chargeAt_eq (hg : Repainted h g) (slot : Nat) : g.chargeAt slot = h.chargeAt slot := by
  have hcells := congrArg (Option.map Cell.charge) (hg.cells slot)
  rw [Option.map_map, Option.map_map] at hcells
  exact congrArg (Option.getD · 0) hcells

theorem cell?_eq_none_iff (hg : Repainted h g) {slot : Nat} :
    g.cell? slot = none ↔ h.cell? slot = none := by
  rw [← Option.map_eq_none_iff (f := Cell.bare), hg.cells, Option.map_eq_none_iff]

theorem targetsAt_eq (hg : Repainted h g) (slot : Nat) : g.targetsAt slot = h.targetsAt slot := by
  rw [targetsAt, targetsAt, hg.object?_eq]

theorem occupied_iff (hg : Repainted h g) {slot : Nat} : g.Occupied slot ↔ h.Occupied slot := by
  rw [occupied_iff_object?, occupied_iff_object?, hg.object?_eq]

theorem free_eq (hg : Repainted h g) : g.free = h.free := by
  have hrest := congrArg Heap.free hg.rest
  exact hrest

theorem strings_eq (hg : Repainted h g) : g.strings = h.strings := by
  have hrest := congrArg Heap.strings hg.rest
  exact hrest

theorem policy_eq (hg : Repainted h g) : g.policy = h.policy := by
  have hrest := congrArg Heap.policy hg.rest
  exact hrest

theorem cycles_eq (hg : Repainted h g) : g.cycles = h.cycles := by
  have hrest := congrArg Heap.cycles hg.rest
  exact hrest

theorem bytes_eq (hg : Repainted h g) : g.bytes = h.bytes := by
  have hrest := congrArg Heap.bytes hg.rest
  exact hrest

end Repainted

/-- What can be reached does not depend on marks, nor on slots in the start that are empty. -/
theorem reach_congr {start start' : List Nat} (hg : Repainted h g)
    (hstart : ∀ slot, h.Occupied slot → (slot ∈ start ↔ slot ∈ start')) {slot : Nat} :
    h.Reach start slot ↔ g.Reach start' slot := by
  constructor
  · intro hr
    induction hr with
    | start hs ho => exact .start ((hstart _ ho).1 hs) (hg.occupied_iff.2 ho)
    | step _ hobj hb ho ih => exact .step ih (by rwa [hg.object?_eq]) hb (hg.occupied_iff.2 ho)
  · intro hr
    induction hr with
    | start hs ho =>
      have ho := hg.occupied_iff.1 ho
      exact .start ((hstart _ ho).2 hs) ho
    | step _ hobj hb ho ih => exact .step ih (by rwa [← hg.object?_eq]) hb (hg.occupied_iff.1 ho)

theorem Reach.occupied {start : List Nat} {slot : Nat} (hr : h.Reach start slot) :
    h.Occupied slot := by
  cases hr with
  | start _ ho => exact ho
  | step _ _ _ ho => exact ho

/-- What can be reached from slots that can be reached, can be reached. -/
theorem Reach.trans {start start' : List Nat} {slot : Nat} (hr : h.Reach start slot)
    (hstart : ∀ s ∈ start, h.Occupied s → h.Reach start' s) : h.Reach start' slot := by
  induction hr with
  | start hs ho => exact hstart _ hs ho
  | step _ hobject hrefers ho ih => exact .step ih hobject hrefers ho

/-! ## Marking one slot -/

theorem cell?_setCell {slot : Nat} (hlt : slot < h.cells.size) (o : Option Cell) (s : Nat) :
    (h.setCell slot o).cell? s = if s = slot then o else h.cell? s := by
  simp only [setCell, cell?, Array.getElem?_setIfInBounds]
  by_cases heq : slot = s
  · subst heq
    rw [if_pos rfl, if_pos hlt, if_pos rfl, Option.join_some]
  · rw [if_neg heq, if_neg (Ne.symm heq)]

theorem cell?_mark (h : Heap) (target slot : Nat) : (h.mark target).cell? slot =
    if slot = target then (h.cell? slot).map fun c => { c with marked := true }
    else h.cell? slot := by
  have hself : ∀ c : Cell, c.marked = true → { c with marked := true } = c := by
    rintro ⟨o, n, m⟩ rfl
    rfl
  unfold mark
  split
  · next c hc =>
    split
    · next hm =>
      split
      · next heq => rw [heq, hc, Option.map_some, hself c hm]
      · rfl
    · next hm =>
      refine (cell?_setCell (cell?_lt_size hc) (some { c with marked := true }) slot).trans ?_
      split
      · next heq => rw [heq, hc, Option.map_some]
      · rfl
  · next hc =>
    split
    · next heq => rw [heq, hc, Option.map_none]
    · rfl

theorem repainted_mark (h : Heap) (target : Nat) : Repainted h (h.mark target) where
  cells slot := by
    rw [cell?_mark]
    split
    · rw [Option.map_map]
      rfl
    · rfl
  size_eq := by
    unfold mark
    split
    · split
      · rfl
      · exact Array.size_setIfInBounds
    · rfl
  rest := by
    unfold mark
    split
    · split <;> rfl
    · rfl

theorem isMarked_mark {target slot : Nat} : (h.mark target).isMarked slot = true ↔
    h.isMarked slot = true ∨ (slot = target ∧ h.Occupied slot) := by
  rw [isMarked_iff, isMarked_iff, cell?_mark, Occupied]
  split
  · next heq =>
    simp only [Option.map_eq_some_iff, heq, true_and]
    constructor
    · rintro ⟨_, ⟨c, hc, _⟩, _⟩
      exact .inr ⟨c, hc⟩
    · rintro (⟨c, hc, _⟩ | ⟨c, hc⟩) <;> exact ⟨_, ⟨c, hc, rfl⟩, rfl⟩
  · next hne => simp [hne]

theorem mem_grey_mark {target slot : Nat} : slot ∈ (h.mark target).grey ↔
    slot ∈ h.grey ∨ (slot = target ∧ h.isWhite slot = true) := by
  unfold mark
  split
  · next c hc =>
    split
    · next hm =>
      refine ⟨.inl, fun hs => hs.elim id ?_⟩
      rintro ⟨rfl, hw⟩
      obtain ⟨c', hc', hw⟩ := isWhite_iff.1 hw
      rw [hc] at hc'
      cases hc'
      rw [hm] at hw
      cases hw
    · next hm =>
      have hw : h.isWhite target = true := isWhite_iff.2 ⟨c, hc, by simpa using hm⟩
      rw [List.mem_cons, or_comm]
      exact or_congr Iff.rfl ⟨fun heq => ⟨heq, heq ▸ hw⟩, And.left⟩
  · next hc =>
    refine ⟨.inl, fun hs => hs.elim id ?_⟩
    rintro ⟨rfl, hw⟩
    obtain ⟨c', hc', -⟩ := isWhite_iff.1 hw
    rw [hc] at hc'
    cases hc'

theorem nodup_grey_mark (hn : h.grey.Nodup) (hm : ∀ slot ∈ h.grey, h.isMarked slot = true)
    (target : Nat) : (h.mark target).grey.Nodup := by
  unfold mark
  split
  · next c hc =>
    split
    · exact hn
    · next hw =>
      refine List.nodup_cons.2 ⟨fun hmem => ?_, hn⟩
      obtain ⟨c', hc', hm'⟩ := isMarked_iff.1 (hm target hmem)
      rw [hc] at hc'
      cases hc'
      exact hw hm'
  · exact hn

/-! ## Marking several slots -/

theorem repainted_markAll (h : Heap) (slots : List Nat) : Repainted h (h.markAll slots) := by
  induction slots generalizing h with
  | nil => exact .refl h
  | cons slot rest ih => exact (repainted_mark h slot).trans (ih (h.mark slot))

theorem isMarked_markAll {slots : List Nat} {slot : Nat} :
    (h.markAll slots).isMarked slot = true ↔
      h.isMarked slot = true ∨ (slot ∈ slots ∧ h.Occupied slot) := by
  induction slots generalizing h with
  | nil => simp [markAll]
  | cons target rest ih =>
    have hstep : (h.markAll (target :: rest)) = (h.mark target).markAll rest := rfl
    rw [hstep, ih, isMarked_mark, (repainted_mark h target).occupied_iff, List.mem_cons, or_assoc,
      or_and_right]

theorem mem_grey_markAll {slots : List Nat} {slot : Nat} : slot ∈ (h.markAll slots).grey ↔
    slot ∈ h.grey ∨ (slot ∈ slots ∧ h.isWhite slot = true) := by
  induction slots generalizing h with
  | nil => simp [markAll]
  | cons target rest ih =>
    have hstep : h.markAll (target :: rest) = (h.mark target).markAll rest := rfl
    rw [hstep, ih, mem_grey_mark, List.mem_cons]
    -- Marking the target takes it out of the white slots and nothing else.
    have hwhite : (h.mark target).isWhite slot = true ↔
        h.isWhite slot = true ∧ slot ≠ target := by
      rw [isWhite_iff, isWhite_iff, cell?_mark]
      split
      · next heq => simp [heq]
      · next hne => simp [hne]
    rw [hwhite]
    by_cases heq : slot = target <;> simp [heq]

theorem nodup_grey_markAll (hn : h.grey.Nodup) (hm : ∀ slot ∈ h.grey, h.isMarked slot = true)
    (slots : List Nat) : (h.markAll slots).grey.Nodup := by
  induction slots generalizing h with
  | nil => exact hn
  | cons target rest ih =>
    refine ih (nodup_grey_mark hn hm target) fun slot hs => isMarked_mark.2 ?_
    rcases mem_grey_mark.1 hs with hs | ⟨rfl, hw⟩
    · exact .inl (hm slot hs)
    · exact .inr ⟨rfl, (isWhite_iff.1 hw).imp fun _ => And.left⟩

/-! ## Between operations -/

/-- The grey slots are the marked ones, and each is on the stack once. -/
structure Tidy (h : Heap) : Prop where
  nodup : h.grey.Nodup
  mem_iff : ∀ slot, slot ∈ h.grey ↔ h.isMarked slot = true

theorem Tidy.markAll (ht : h.Tidy) (slots : List Nat) : (h.markAll slots).Tidy where
  nodup := nodup_grey_markAll ht.nodup (fun slot => (ht.mem_iff slot).1) slots
  mem_iff slot := by
    rw [mem_grey_markAll, isMarked_markAll, ht.mem_iff]
    by_cases hm : h.isMarked slot = true
    · simp [hm]
    · refine or_congr Iff.rfl (and_congr Iff.rfl ⟨fun hw => ?_, fun ho => ?_⟩)
      · exact (isWhite_iff.1 hw).imp fun _ => And.left
      · exact (isWhite_iff_not_isMarked ho).2 hm

/-- A heap in which nothing is marked and nothing grey. -/
structure Clean (h : Heap) : Prop where
  grey_eq : h.grey = []
  unmarked : ∀ slot, h.isMarked slot = false

theorem Clean.tidy (hc : h.Clean) : h.Tidy where
  nodup := by rw [hc.grey_eq]; exact List.nodup_nil
  mem_iff slot := by simp [hc.grey_eq, hc.unmarked slot]

theorem Clean.marked_eq (hc : h.Clean) {slot : Nat} {c : Cell} (hcell : h.cell? slot = some c) :
    c.marked = false := by
  have hunmarked := hc.unmarked slot
  rwa [isMarked, hcell, Option.any_some] at hunmarked

theorem Clean.bare_eq (hc : h.Clean) {slot : Nat} {c : Cell} (hcell : h.cell? slot = some c) :
    c.bare = c := by
  rw [Cell.bare, ← hc.marked_eq hcell]

/-! ## Tracing -/

/-- While it is traced, the grey slots are marked, and what a marked slot that is not grey refers to
is marked. -/
structure Traced (h : Heap) : Prop where
  nodup : h.grey.Nodup
  marked : ∀ slot ∈ h.grey, h.isMarked slot = true
  black : ∀ slot, h.isMarked slot = true → slot ∉ h.grey →
    ∀ target ∈ h.targetsAt slot, h.Occupied target → h.isMarked target = true

theorem Tidy.traced (ht : h.Tidy) : h.Traced :=
  ⟨ht.nodup, fun slot => (ht.mem_iff slot).1,
    fun slot hm hg => absurd ((ht.mem_iff slot).2 hm) hg⟩

/-! ### One object -/

/-- An object that is taken out and put back. -/
theorem setCell_setCell {slot : Nat} {c : Cell} (hc : h.cell? slot = some c) :
    (h.setCell slot none).setCell slot (some c) = h := by
  have hlt := cell?_lt_size hc
  have hget : h.cells[slot] = some c := by
    rwa [cell?, Array.getElem?_eq_getElem hlt, Option.join_some] at hc
  have hcells : (h.cells.setIfInBounds slot none).setIfInBounds slot (some c) = h.cells := by
    rw [Array.setIfInBounds_setIfInBounds, Array.setIfInBounds_def, dif_pos hlt, ← hget]
    exact Array.set_getElem_self hlt
  rw [setCell, setCell, hcells]

/-- It makes no difference to a mark whether a marked object is in its slot or out of it. -/
theorem setCell_mark {slot : Nat} {c : Cell} (hlt : slot < h.cells.size) (hm : c.marked = true)
    (hout : h.cell? slot = none) (target : Nat) :
    (h.mark target).setCell slot (some c) = (h.setCell slot (some c)).mark target := by
  have hcell := cell?_setCell hlt (some c) target
  by_cases heq : target = slot
  · subst heq
    rw [if_pos rfl] at hcell
    rw [mark, mark, hout, hcell]
    simp only [hm, if_true]
  · rw [if_neg heq] at hcell
    rw [mark, mark, hcell]
    cases h.cell? target with
    | none => rfl
    | some d =>
      simp only
      split
      · rfl
      · rw [setCell, setCell, Array.setIfInBounds_comm _ _ heq]

theorem setCell_markAll {slot : Nat} {c : Cell} (hlt : slot < h.cells.size) (hm : c.marked = true)
    (hout : h.cell? slot = none) (slots : List Nat) :
    (h.markAll slots).setCell slot (some c) = (h.setCell slot (some c)).markAll slots := by
  induction slots generalizing h with
  | nil => rfl
  | cons target rest ih =>
    have hpaint := repainted_mark h target
    have hrest := ih (h := h.mark target) (hpaint.size_eq ▸ hlt) (hpaint.cell?_eq_none_iff.2 hout)
    rw [setCell_mark hlt hm hout] at hrest
    exact hrest

/-- Marking what a marked object refers to, as if the object were in its slot all the time. -/
theorem blacken_eq {slot : Nat} (hm : h.isMarked slot = true) :
    h.blacken slot = h.markAll (h.targetsAt slot) := by
  obtain ⟨c, hc, hmarked⟩ := isMarked_iff.1 hm
  have hlt := cell?_lt_size hc
  have hout : (h.setCell slot none).cell? slot = none := by rw [cell?_setCell hlt, if_pos rfl]
  have hsize : slot < (h.setCell slot none).cells.size := by
    rwa [setCell, Array.size_setIfInBounds]
  rw [blacken, hc, targetsAt, object?, hc]
  exact (setCell_markAll hsize hmarked hout _).trans (by rw [setCell_setCell hc]; rfl)

theorem repainted_blacken (h : Heap) (slot : Nat) : Repainted h (h.blacken slot) := by
  unfold blacken
  split
  · next c hc =>
    have hpaint := repainted_markAll (h.setCell slot none) c.object.targets
    have hlt := cell?_lt_size hc
    have hsize : ((h.setCell slot none).markAll c.object.targets).cells.size = h.cells.size := by
      rw [hpaint.size_eq, setCell, Array.size_setIfInBounds]
    exact
      { cells := fun s => by
          rw [cell?_setCell (hsize ▸ hlt)]
          split
          · next heq => rw [heq, hc]
          · next hne => rw [hpaint.cells, cell?_setCell hlt, if_neg hne]
        size_eq := by rw [setCell, Array.size_setIfInBounds, hsize]
        rest := by
          calc _ = { { (h.setCell slot none).markAll c.object.targets with
                  cells := (h.setCell slot none).cells, grey := (h.setCell slot none).grey } with
                cells := h.cells } := rfl
            _ = h := by rw [hpaint.rest]; rfl }
  · exact .refl h

/-! ### All objects -/

/-- Taking an object off the stack to mark what it refers to. -/
def advance (h : Heap) (slot : Nat) (grey : List Nat) : Heap := { h with grey }.blacken slot

theorem repainted_advance (h : Heap) (slot : Nat) (grey : List Nat) :
    Repainted h (h.advance slot grey) := by
  have htaken : Repainted h { h with grey } := ⟨fun _ => rfl, rfl, rfl⟩
  exact htaken.trans (repainted_blacken _ slot)

theorem Traced.advance_eq (ht : h.Traced) {slot : Nat} {grey : List Nat}
    (hg : h.grey = slot :: grey) :
    h.advance slot grey = { h with grey }.markAll (h.targetsAt slot) := by
  have hm : h.isMarked slot = true := ht.marked slot (by rw [hg]; exact List.mem_cons_self)
  exact blacken_eq (h := { h with grey }) hm

theorem Traced.isMarked_advance (ht : h.Traced) {slot target : Nat} {grey : List Nat}
    (hg : h.grey = slot :: grey) : (h.advance slot grey).isMarked target = true ↔
      h.isMarked target = true ∨ (target ∈ h.targetsAt slot ∧ h.Occupied target) := by
  rw [ht.advance_eq hg]
  exact isMarked_markAll

theorem Traced.advance (ht : h.Traced) {slot : Nat} {grey : List Nat} (hg : h.grey = slot :: grey) :
    (h.advance slot grey).Traced := by
  have hn := ht.nodup
  have hm := ht.marked
  rw [hg] at hn hm
  have hsub : ∀ s ∈ grey, h.isMarked s = true := fun s hs => hm s (List.mem_cons_of_mem _ hs)
  have hmem : ∀ {s}, s ∈ (h.advance slot grey).grey ↔
      s ∈ grey ∨ (s ∈ h.targetsAt slot ∧ h.isWhite s = true) := by
    rw [ht.advance_eq hg]
    exact mem_grey_markAll
  have hnodup : (h.advance slot grey).grey.Nodup := by
    rw [ht.advance_eq hg]
    exact nodup_grey_markAll (List.nodup_cons.1 hn).2 hsub _
  refine ⟨hnodup, fun s hs => (ht.isMarked_advance hg).2 ?_,
    fun s hs hgrey target htarget ho => (ht.isMarked_advance hg).2 ?_⟩
  · rcases hmem.1 hs with hs | ⟨hs, hw⟩
    · exact .inl (hsub s hs)
    · exact .inr ⟨hs, (isWhite_iff.1 hw).imp fun _ => And.left⟩
  · rw [(repainted_advance h slot grey).targetsAt_eq] at htarget
    have ho := (repainted_advance h slot grey).occupied_iff.1 ho
    rw [hmem] at hgrey
    by_cases heq : s = slot
    · exact .inr ⟨heq ▸ htarget, ho⟩
    · -- Any other slot that is not grey now was marked and not grey before.
      have hold : h.isMarked s = true := by
        rcases (ht.isMarked_advance hg).1 hs with hold | ⟨hs, ho⟩
        · exact hold
        · by_cases hold : h.isMarked s = true
          · exact hold
          · exact absurd (.inr ⟨hs, (isWhite_iff_not_isMarked ho).2 hold⟩) hgrey
      refine .inl (ht.black s hold (fun hs => ?_) target htarget ho)
      rw [hg, List.mem_cons] at hs
      exact hs.elim heq fun hs => hgrey (.inl hs)

theorem trace_nil (hg : h.grey = []) : h.trace = (h, []) := by
  rw [trace]
  split
  · rfl
  · next heq => rw [hg] at heq; cases heq

theorem trace_cons {slot : Nat} {grey : List Nat} (hg : h.grey = slot :: grey) :
    h.trace.1 = (h.advance slot grey).trace.1 := by
  rw [trace]
  split
  · next heq => rw [hg] at heq; cases heq
  · next heq => rw [hg] at heq; cases heq; rfl

/-- What tracing keeps, a property that each of its steps keeps has at the end. -/
theorem trace_induction {P : Heap → Prop}
    (hstep : ∀ h slot grey, h.grey = slot :: grey → P h → P (h.advance slot grey)) :
    ∀ h : Heap, P h → P h.trace.1 ∧ h.trace.1.grey = [] := by
  intro h
  induction hn : h.pending using Nat.strongRecOn generalizing h with
  | ind n ih =>
    intro hP
    cases hg : h.grey with
    | nil =>
      rw [trace_nil hg]
      exact ⟨hP, hg⟩
    | cons slot grey =>
      rw [trace_cons hg]
      exact ih _ (hn ▸ pending_blacken_lt hg) _ rfl (hstep h slot grey hg hP)

theorem repainted_trace (h : Heap) : Repainted h h.trace.1 :=
  (trace_induction (P := Repainted h)
    (fun g slot grey _ hg => hg.trans (repainted_advance g slot grey)) h (.refl h)).1

theorem grey_trace (h : Heap) : h.trace.1.grey = [] :=
  (trace_induction (P := fun _ => True) (fun _ _ _ _ _ => trivial) h trivial).2

theorem Traced.trace (ht : h.Traced) : h.trace.1.Traced :=
  (trace_induction (P := Traced) (fun _ _ _ hg ht => ht.advance hg) h ht).1

theorem Traced.isMarked_trace (ht : h.Traced) {slot : Nat} (hm : h.isMarked slot = true) :
    h.trace.1.isMarked slot = true :=
  (trace_induction (P := fun g => g.Traced ∧ g.isMarked slot = true)
    (fun _ _ _ hg hmt => ⟨hmt.1.advance hg, (hmt.1.isMarked_advance hg).2 (.inl hmt.2)⟩)
    h ⟨ht, hm⟩).1.2

/-- What is marked can be reached from what was marked at first. -/
theorem reach_of_isMarked_trace (ht : h.Traced) {slot : Nat}
    (hm : h.trace.1.isMarked slot = true) : h.Reach h.markedSlots slot := by
  -- A step marks what a marked slot refers to, in a heap that differs from the first in marks only.
  have hstep : ∀ g s grey, g.grey = s :: grey →
      (g.Traced ∧ Repainted h g ∧ ∀ t, g.isMarked t = true → h.Reach h.markedSlots t) →
      ((g.advance s grey).Traced ∧ Repainted h (g.advance s grey) ∧
        ∀ t, (g.advance s grey).isMarked t = true → h.Reach h.markedSlots t) := by
    rintro g s grey hg ⟨htg, hpaint, hreach⟩
    refine ⟨htg.advance hg, hpaint.trans (repainted_advance g s grey), ?_⟩
    intro t hmt
    rcases (htg.isMarked_advance hg).1 hmt with hold | ⟨htarget, ho⟩
    · exact hreach t hold
    · rw [hpaint.targetsAt_eq] at htarget
      obtain ⟨o, hobj, hrefers⟩ := mem_targetsAt.1 htarget
      refine .step (hreach s (htg.marked s ?_)) hobj hrefers (hpaint.occupied_iff.1 ho)
      rw [hg]
      exact List.mem_cons_self
  exact (trace_induction hstep h ⟨ht, .refl h,
    fun t hmt => .start (mem_markedSlots.2 hmt) (occupied_of_isMarked hmt)⟩).1.2.2 slot hm

/-- **Tracing is exact**: it marks what can be reached from the marked slots, and nothing else. -/
theorem isMarked_trace_iff (ht : h.Traced) {slot : Nat} :
    h.trace.1.isMarked slot = true ↔ h.Reach h.markedSlots slot := by
  refine ⟨reach_of_isMarked_trace ht, ?_⟩
  intro hr
  -- Along a path of edges: at the end nothing is grey, so every marked slot has marked its targets.
  induction hr with
  | start hs _ => exact ht.isMarked_trace (mem_markedSlots.1 hs)
  | @step a b o _ hobj hb ho ih =>
    have hpaint := repainted_trace h
    have htarget : b ∈ h.trace.1.targetsAt a := by
      rw [hpaint.targetsAt_eq]
      exact mem_targetsAt.2 ⟨o, hobj, hb⟩
    refine ht.trace.black a ih ?_ b htarget (hpaint.occupied_iff.2 ho)
    rw [grey_trace]
    exact List.not_mem_nil

end Heap

end ObjectHeap
