import ObjectHeap.Proofs.Heap.Collection
import ObjectHeap.Proofs.Heap.History

/-!
# Tracing visits each object once

The definition of `trace` ends because it comes with a measure. `Drains` is the loop without one: it
takes slots off the grey stack for as long as there are any. That `trace` is its only run says that
the loop ends (`drains_iff`), and its journal says which slots it has visited.

Between two turns of the loop an object is white, grey or *black*: marked, and no longer on the
stack. A turn makes the slot that it takes off the stack black, and no other (`isBlack_advance`). The
objects that it marks become grey, and a slot that is black never comes back onto the stack. So the
slots that are visited are those that are black in the end and were not at the start, each of them
once (`Traced.visits_trace`). Between the operations of a heap nothing is black, and then they are
the slots that can be reached from the grey stack (`Arises.visits_once`).
-/

set_option autoImplicit false

namespace ObjectHeap

/-- The slot that an event of tracing visits. -/
def Event.visited? : Event → Option Nat
  | .blackened slot => some slot
  | .grew .. | .allocated .. | .marked _ | .freed _ | .cycleBegan | .cycleEnded _
  | .machineReset _ => none

namespace Heap

variable {h after : Heap} {slot : Nat} {grey : List Nat} {journal later : List Event}

/-! ## The loop -/

/-- The loop of tracing, without a measure: what it reports, and the heap in which it ends. -/
inductive Drains : Heap → List Event → Heap → Prop
  | done {h : Heap} : h.grey = [] → Drains h [] h
  | turn {h after : Heap} {slot : Nat} {grey : List Nat} {later : List Event} :
    h.grey = slot :: grey → Drains (h.advance slot grey) later after →
    Drains h (.blackened slot :: marksSince { h with grey } (h.advance slot grey) ++ later) after

/-- The loop ends, and there is one way only in which it can go. -/
theorem drains_iff {traced : Heap} :
    h.Drains journal traced ↔ journal = h.trace.2 ∧ traced = h.trace.1 := by
  constructor
  · intro hd
    induction hd with
    | done hg =>
      rw [trace_nil hg]
      exact ⟨rfl, rfl⟩
    | turn hg _ ih =>
      rw [trace_cons hg, events_trace_cons hg, ← ih.1, ← ih.2]
      exact ⟨rfl, rfl⟩
  · rintro ⟨rfl, rfl⟩
    induction h using trace.induct with
    | case1 h hg =>
      rw [trace_nil hg]
      exact .done hg
    | case2 h slot grey hg taken blackened traced later heq ih =>
      rw [trace_cons hg, events_trace_cons hg]
      exact .turn hg ih

/-- The slots that are visited, in order. -/
def visits (journal : List Event) : List Nat := journal.filterMap Event.visited?

theorem visits_append : visits (journal ++ later) = visits journal ++ visits later :=
  List.filterMap_append

/-- Nothing is visited by an event of another kind. -/
theorem visits_eq_nil (hn : ∀ e ∈ journal, e.visited? = none) : visits journal = [] :=
  List.filterMap_eq_nil_iff.2 hn

theorem visits_marksSince (before after : Heap) : visits (marksSince before after) = [] := by
  apply visits_eq_nil
  intro e he
  obtain ⟨s, -, rfl⟩ := List.mem_map.1 he
  rfl

theorem visits_trace_nil (hg : h.grey = []) : visits h.trace.2 = [] := by
  rw [trace_nil hg]
  rfl

theorem visits_trace_cons (hg : h.grey = slot :: grey) :
    visits h.trace.2 = slot :: visits (h.advance slot grey).trace.2 := by
  rw [events_trace_cons hg, visits_append, ← List.singleton_append, visits_append,
    visits_marksSince]
  rfl

/-! ## Black slots -/

/-- The slot is marked and no longer on the grey stack: what it refers to has been marked, too. -/
def IsBlack (h : Heap) (slot : Nat) : Prop := h.isMarked slot = true ∧ slot ∉ h.grey

theorem Tidy.not_isBlack (ht : h.Tidy) (slot : Nat) : ¬h.IsBlack slot :=
  fun hb => hb.2 ((ht.mem_iff slot).2 hb.1)

theorem Traced.mem_grey_advance (ht : h.Traced) (hg : h.grey = slot :: grey) {s : Nat} :
    s ∈ (h.advance slot grey).grey ↔ s ∈ grey ∨ (s ∈ h.targetsAt slot ∧ h.isWhite s = true) := by
  rw [ht.advance_eq hg]
  exact mem_grey_markAll

/-- A turn makes the slot black that it takes off the stack. -/
theorem Traced.isBlack_advance (ht : h.Traced) (hg : h.grey = slot :: grey) {s : Nat} :
    (h.advance slot grey).IsBlack s ↔ s = slot ∨ h.IsBlack s := by
  have hmarked : h.isMarked slot = true := ht.marked slot (hg ▸ List.mem_cons_self)
  have hout : slot ∉ grey := (List.nodup_cons.1 (hg ▸ ht.nodup)).1
  rw [IsBlack, IsBlack, ht.isMarked_advance hg, ht.mem_grey_advance hg, hg, List.mem_cons]
  by_cases hm : h.isMarked s = true
  · -- What is marked is not white, so it is on the stack afterwards if it was on the rest of it.
    have hw : ¬h.isWhite s = true := fun hw =>
      (isWhite_iff_not_isMarked (occupied_of_isMarked hm)).1 hw hm
    by_cases heq : s = slot
    · simp [heq, hmarked, hout, heq ▸ hw]
    · simp [heq, hm, hw]
  · -- What the turn marks was white, so it is put on the stack.
    have hne : s ≠ slot := fun heq => hm (heq ▸ hmarked)
    refine iff_of_false ?_ fun hor => hor.elim hne fun hold => hm hold.1
    rintro ⟨hold | ⟨htarget, ho⟩, hout⟩
    · exact hm hold
    · exact hout (.inr ⟨htarget, (isWhite_iff_not_isMarked ho).2 hm⟩)

/-- **The visited slots** are those that are black in the end and were not at the start, and none of
them is visited twice. -/
theorem Traced.visits_trace (ht : h.Traced) : (visits h.trace.2).Nodup ∧
    ∀ s, s ∈ visits h.trace.2 ↔ h.trace.1.isMarked s = true ∧ ¬h.IsBlack s := by
  induction h using trace.induct with
  | case1 h hg =>
    rw [visits_trace_nil hg, trace_nil hg]
    refine ⟨List.nodup_nil, fun s => ?_⟩
    simp [IsBlack, hg]
  | case2 h slot grey hg taken blackened traced later heq ih =>
    have ht' : (h.advance slot grey).Traced := ht.advance hg
    obtain ⟨hnodup, hmem⟩ := ih ht'
    have hmarked : h.isMarked slot = true := ht.marked slot (hg ▸ List.mem_cons_self)
    have hgrey : ¬h.IsBlack slot := fun hblack => hblack.2 (hg ▸ List.mem_cons_self)
    rw [visits_trace_cons hg, trace_cons hg]
    constructor
    · refine List.nodup_cons.2 ⟨fun hagain => ?_, hnodup⟩
      exact ((hmem slot).1 hagain).2 ((ht.isBlack_advance hg).2 (.inl rfl))
    · intro s
      have hlater : s ∈ visits (h.advance slot grey).trace.2 ↔
          (h.advance slot grey).trace.1.isMarked s = true ∧ ¬(s = slot ∨ h.IsBlack s) := by
        rw [← ht.isBlack_advance hg]
        exact hmem s
      rw [List.mem_cons, hlater]
      by_cases heq : s = slot
      · have hkept : (h.advance slot grey).trace.1.isMarked slot = true :=
          ht'.isMarked_trace ((ht.isMarked_advance hg).2 (.inl hmarked))
        simp [heq, hkept, hgrey]
      · simp [heq]

/-! ## Each object once -/

/-- What is to be said of a run of the loop of tracing. -/
structure VisitsOnce (h : Heap) (journal : List Event) (traced : Heap) : Prop where
  /-- The loop ends, with this journal in this heap and in no other way. -/
  drains : ∀ events after, h.Drains events after ↔ events = journal ∧ after = traced
  nodup : (visits journal).Nodup
  mem_iff : ∀ slot, slot ∈ visits journal ↔ h.Reach h.grey slot
  /-- Every object is in its slot again, although it has been out of it while it was visited. -/
  cells : ∀ slot, (traced.cell? slot).map Cell.bare = (h.cell? slot).map Cell.bare
  grey_eq : traced.grey = []
  isMarked_iff : ∀ slot, traced.isMarked slot = true ↔ h.Reach h.grey slot

theorem Tidy.visitsOnce (ht : h.Tidy) : h.VisitsOnce h.trace.2 h.trace.1 := by
  obtain ⟨hnodup, hmem⟩ := ht.traced.visits_trace
  -- Nothing is black at the start, and the marked slots are those on the stack.
  have hreach : ∀ slot, h.trace.1.isMarked slot = true ↔ h.Reach h.grey slot := by
    intro slot
    rw [isMarked_trace_iff ht.traced]
    refine reach_congr (.refl h) fun s _ => ?_
    rw [mem_markedSlots, ht.mem_iff]
  refine ⟨fun _ _ => drains_iff, hnodup, fun slot => ?_, (repainted_trace h).cells, grey_trace h, hreach⟩
  rw [hmem, hreach]
  exact and_iff_left (ht.not_isBlack slot)

/-- What a collection visits is what its tracing visits, whether the collection completes or not. -/
theorem visits_collect (h : Heap) : visits h.collect.events = visits h.trace.2 := by
  have hreleases : visits (h.trace.1.dropStrings.1.garbage.map .freed) = [] := by
    apply visits_eq_nil
    intro e he
    obtain ⟨s, -, rfl⟩ := List.mem_map.1 he
    rfl
  have hbegan : visits [.cycleBegan] = [] := rfl
  unfold collect
  simp only [Outcome.events_bind, Outcome.events_report, Outcome.result_report, visits_append,
    Outcome.events_liftM, Outcome.result_liftM, hbegan, hreleases, List.nil_append]
  cases h.trace.1.dropStrings.1.sweep.nextThreshold with
  | error f => exact List.append_nil _
  | ok threshold => exact List.append_nil _

/-- **Tracing visits each object once.** In a heap that arises, whatever its objects refer to and
whatever has been marked, the loop of tracing ends. It visits the slots that can be reached from the
grey stack, each of them once, and no others. It loses no object, leaves nothing on the stack and
marks what can be reached. The journal of a collection tells the same visits. -/
theorem Arises.visits_once {overwrites : Bool} {policy : Policy} (ha : h.Arises overwrites policy)
    (roots : List Root) :
    (h.markRoots roots).VisitsOnce (h.markRoots roots).trace.2 (h.markRoots roots).trace.1 ∧
      visits (h.markRoots roots).collect.events = visits (h.markRoots roots).trace.2 := by
  have htidy : (h.markRoots roots).Tidy := by
    rw [markRoots_eq]
    exact ha.sound.tidy.markAll _
  exact ⟨htidy.visitsOnce, visits_collect _⟩

/-! ## A knot -/

/-- Methods of the class in slot 1: the class itself, and nothing under a name whose string is gone
from slot 4. -/
def knotMethods : Table :=
  (((∅ : Table).insert ringName (.cls ⟨1⟩)).1.insert
    { str := ⟨4⟩, hash := Text.hash "C" } .nil).1

/-- A field that refers to a string that is gone from slot 3. -/
def knotFields : Table :=
  ((∅ : Table).insert ringName (.str { str := ⟨3⟩, hash := Text.hash "B" })).1

/-- The ring without its unused strings. -/
def ringKept : Heap :=
  { ((ring.withString (.ofText "C" 0)).1.mark 2).swept with cycles := 1, threshold := 1048576 }

/-- A class that refers to itself and an instance of it with a field that leads to an empty slot. A
box of the instance is in the slot of the name of a method. -/
def knot : Heap :=
  (((ringKept.replace (k := .cls) ⟨1⟩ { name := ringName, methods := knotMethods }).replace
    (k := .inst) ⟨2⟩ { cls := ⟨1⟩, fields := knotFields }).place (.box (.inst ⟨2⟩))).1

theorem arises_ringKept : ringKept.Arises true {} := by
  have hstring : (ring.withString (.ofText "C" 0)).1.Arises true {} :=
    arises_ring.step (.intern (show (ring.internReserving "C" 0).result =
      .ok (_, { str := ⟨4⟩, hash := Text.hash "C" }) by decide +kernel))
  exact (hstring.step (.mark 2)).step (.collect (by decide +kernel))

theorem arises_knot : knot.Arises true {} := by
  have hcls : ringKept.deref (⟨1⟩ : Ref .cls) =
      .ok { name := ringName, methods := ((∅ : Table).insert ringName (.inst ⟨2⟩)).1 } := by
    decide +kernel
  have hclass := arises_ringKept.step (.edit (k := .cls)
    { name := ringName, methods := knotMethods } (by decide)
    (.insert _ _ (.insert _ _ .empty)) (access_of_deref hcls))
  have hinstance : (ringKept.replace (⟨1⟩ : Ref .cls)
      { name := ringName, methods := knotMethods }).deref (⟨2⟩ : Ref .inst) =
      .ok { cls := ⟨1⟩ } := by decide +kernel
  have hinst := hclass.step (.edit (k := .inst) { cls := ⟨1⟩, fields := knotFields } (by decide)
    (.insert _ _ .empty) (access_of_deref hinstance))
  exact hinst.step (.allocate (k := .box) (p := .inst ⟨2⟩) (r := ⟨4⟩) trivial (by decide +kernel))

/-- From the box the instance is visited, then the name and the class, all of them once. The class is
out of its slot while its reference to itself is marked. -/
theorem visits_once_knot :
    visits (knot.markRoots [.object (⟨4⟩ : Ref .box)]).trace.2 = [4, 2, 0, 1] ∧
    (∀ slot, slot ∈ [4, 2, 0, 1] ↔ (knot.markRoots [.object (⟨4⟩ : Ref .box)]).Reach
      (knot.markRoots [.object (⟨4⟩ : Ref .box)]).grey slot) ∧
    visits (knot.markRoots [.object (⟨4⟩ : Ref .box)]).collect.events = [4, 2, 0, 1] := by
  have hvisits : visits (knot.markRoots [.object (⟨4⟩ : Ref .box)]).trace.2 = [4, 2, 0, 1] := by
    decide +kernel
  obtain ⟨honce, hcollect⟩ := arises_knot.visits_once [.object (⟨4⟩ : Ref .box)]
  have hmem := honce.mem_iff
  rw [hvisits] at hmem hcollect
  exact ⟨hvisits, hmem, hcollect⟩

end Heap

end ObjectHeap
