import ObjectHeap.Proofs.Heap.Sound

/-!
# A collection is exact

What is left after a collection is what can be reached from the marked slots (`collect_exact`),
whatever has been marked, in whatever order and by whatever kinds of roots, and whatever the objects
refer to now: they may be edited after they were marked, refer to each other in circles, or hold
references to slots that are empty or taken by another object.
-/

set_option autoImplicit false

namespace ObjectHeap

namespace Heap

variable {h : Heap}

/-- Marking roots is marking their slots. -/
theorem markRoots_eq (h : Heap) (roots : List Root) :
    h.markRoots roots = h.markAll (roots.flatMap Root.slots) := by
  induction roots generalizing h with
  | nil => rfl
  | cons root rest ih =>
    have hroot : h.markRoot root = h.markAll root.slots := by
      cases root <;> rfl
    rw [List.flatMap_cons, markAll, List.foldl_append]
    exact (ih (h.markRoot root)).trans (by rw [hroot]; rfl)

/-- The marked slots are those marked before and those that were marked now. -/
theorem reach_markAll {slots : List Nat} {slot : Nat} :
    (h.markAll slots).Reach (h.markAll slots).markedSlots slot ↔
      h.Reach (h.markedSlots ++ slots) slot := by
  refine (reach_congr (repainted_markAll h slots) fun s ho => ?_).symm
  rw [List.mem_append, mem_markedSlots, mem_markedSlots, isMarked_markAll]
  simp [ho]

/-- **A collection is exact.** Whatever roots have been marked, if the collection completes, then
the occupied slots are those that can be reached from the marked ones. They hold the same objects
under the same charges, and nothing is marked or grey. -/
theorem collect_exact {policy : Policy} {h after : Heap} {roots : List Root}
    (ha : h.Arises true policy) (hc : (h.markRoots roots).collect.result = .ok after) :
    (∀ slot, after.Occupied slot ↔
      h.Reach (h.markedSlots ++ roots.flatMap Root.slots) slot) ∧
    (∀ slot c, after.cell? slot = some c → ∃ c', h.cell? slot = some c' ∧
      c.object = c'.object ∧ c.charge = c'.charge) ∧
    (∀ slot, after.isMarked slot = false) ∧ after.grey = [] := by
  rw [markRoots_eq] at hc
  obtain ⟨threshold, -, rfl⟩ := of_collect_eq_ok hc
  have htraced := (ha.sound.tidy.markAll (roots.flatMap Root.slots)).traced
  have hclean := clean_swept (h.markAll (roots.flatMap Root.slots))
  refine ⟨fun slot => (occupied_swept htraced).trans reach_markAll, ?_, hclean.unmarked,
    hclean.grey_eq⟩
  intro slot c hslot
  -- Marking repaints a cell and the sweep removes the mark again; the rest of it is as it was.
  have hcell := ((cell?_swept htraced).1 hslot).2
  rw [(repainted_markAll h _).cells] at hcell
  obtain ⟨c', hc', rfl⟩ := Option.map_eq_some_iff.1 hcell
  exact ⟨c', hc', rfl, rfl⟩

/-! ## A ring of garbage -/

/-- The symbol that a class and a method are named by. -/
def ringName : Symbol := { str := ⟨0⟩, hash := Text.hash "A" }

/-- A name, a class of that name and an instance of the class. -/
def pair : Heap :=
  ((((Heap.new {}).withString (.ofText "A" 0)).1.place (.cls { name := ringName })).1.place
    (.inst { cls := ⟨1⟩ })).1

/-- The class now has the instance for a method, and there is a string that nothing refers to. -/
def ring : Heap :=
  ((pair.replace (k := .cls) ⟨1⟩
    { name := ringName, methods := ((∅ : Table).insert ringName (.inst ⟨2⟩)).1 }).withString
      (.ofText "B" 0)).1

theorem arises_pair (overwrites : Bool) : pair.Arises overwrites {} := by
  have hnamed : ((Heap.new {}).withString (.ofText "A" 0)).1.Arises overwrites {} :=
    .step .new (.intern
      (show ((Heap.new {}).internReserving "A" 0).result = .ok (_, ringName) by decide +kernel))
  have hclassed := Arises.step hnamed (.allocate (k := .cls) (p := { name := ringName })
    (r := ⟨1⟩) .empty rfl)
  exact .step hclassed (.allocate (k := .inst) (p := { cls := ⟨1⟩ }) (r := ⟨2⟩) .empty rfl)

theorem arises_ring : ring.Arises true {} := by
  have hclass : pair.deref (⟨1⟩ : Ref .cls) = .ok { name := ringName } := by decide +kernel
  have hlinked := Arises.step (arises_pair true) (.edit (k := .cls)
    { name := ringName, methods := ((∅ : Table).insert ringName (.inst ⟨2⟩)).1 }
    (by decide) (.insert _ _ .empty) (access_of_deref hclass))
  refine .step hlinked (.intern (?_ : (Heap.internReserving _ "B" 0).result =
    .ok (_, { str := ⟨3⟩, hash := Text.hash "B" })))
  decide +kernel

/-- From the instance the class is reached, from the class its name and again the instance, and the
collection releases the other string. -/
theorem collect_exact_ring : ∃ after,
    (ring.markRoots [.value (.inst ⟨2⟩)]).collect.result = .ok after ∧ after.objectCount = 3 ∧
    (∀ slot, after.Occupied slot ↔ ring.Reach (ring.markedSlots ++ [2]) slot) ∧
    ∀ slot, after.isMarked slot = false := by
  have hdone : (ring.markRoots [.value (.inst ⟨2⟩)]).collect.result =
      .ok { (ring.markRoots [.value (.inst ⟨2⟩)]).swept with
        cycles := 1, threshold := 1048576 } := by
    decide +kernel
  have hexact := collect_exact arises_ring hdone
  exact ⟨_, hdone, by decide +kernel, hexact.1, hexact.2.2.1⟩

end Heap

end ObjectHeap
