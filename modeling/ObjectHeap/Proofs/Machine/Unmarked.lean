import ObjectHeap.Proofs.Heap.Allocator
import ObjectHeap.Proofs.Heap.Tracing
import ObjectHeap.Proofs.Machine.History

/-!
# Marks end with the collection

A mark that outlived its collection would be seen by the next one only: it would take the object for
one that has been reached already, never visit it, and release what the object refers to. So
marks and the grey stack have to agree at all times (`Tidy`), and a collection has to leave neither
(`Clean`).

Of a heap marks can be made between two operations, and allocations and edits can come in between.
They do not disturb what has been marked, since an allocation goes to an empty slot and an edit
leaves the mark of its object alone. A machine makes its marks and collects in one go, so between
two requests there are none. Nothing depends on the operands of the requests: a reference that is
stale can mark another object than the one it was made for, but what it marks is unmarked in the end
like the rest.
-/

set_option autoImplicit false

namespace ObjectHeap

namespace Heap

variable {h after roomy : Heap} {x : Outcome Heap} {slots : List Nat}

theorem clean_collectFrom (hc : (h.collectFrom slots).result = .ok after) : after.Clean := by
  obtain ⟨_, -, hcollect⟩ := Outcome.of_bind_eq_ok hc
  exact clean_collect hcollect

theorem Clean.roomFrom (hc : h.Clean) (hroom : (h.roomFrom slots).result = .ok roomy) :
    roomy.Clean := by
  unfold Heap.roomFrom at hroom
  split at hroom
  · exact clean_collectFrom hroom
  · cases hroom
    exact hc

/-! ## Requests -/

theorem Provides.clean (hp : h.Provides x) (hs : h.Sound) (hc : h.Clean)
    (hok : x.result = .ok after) : after.Clean := by
  cases hp with
  | found =>
    cases hok
    exact hc
  | fault f => cases hok
  | object slots hb =>
    obtain ⟨roomy, hroom, hok⟩ := Outcome.of_bind_eq_ok hok
    cases hok
    exact (hc.roomFrom hroom).place (hs.recounted_roomFrom slots roomy hroom).1.slotted
  | string slots _ =>
    obtain ⟨roomy, hroom, hok⟩ := Outcome.of_bind_eq_ok hok
    obtain ⟨interned, hinterned, hok⟩ := Outcome.of_bind_eq_ok hok
    cases hok
    have hroomy := hc.roomFrom hroom
    rcases of_internReserving_eq_ok hinterned with ⟨heq, -⟩ | ⟨heq, -⟩
    · exact heq ▸ hroomy
    · exact heq ▸ hroomy.withString (hs.recounted_roomFrom slots roomy hroom).1.slotted _

/-- **One request.** It leaves a mark nowhere. -/
theorem Undergoes.clean (hu : h.Undergoes x) (hs : h.Sound) (hc : h.Clean)
    (hok : x.result = .ok after) : after.Clean := by
  induction hu with
  | provide hp => exact hp.clean hs hc hok
  | edit _ _ ha =>
    cases hok
    obtain ⟨-, rfl⟩ := of_access_eq_ok ha
    exact hc.replace
  | collect slots => exact clean_collectFrom hok
  | remark _ _ ih =>
    obtain ⟨_, -, hok⟩ := Outcome.of_bind_eq_ok hok
    exact ih hok

end Heap

namespace Machine

variable {m : Machine} {journal : List Event} {policy : Policy}

/-- **All requests**, with valid operands or not. -/
theorem Journaled.clean (hj : Journaled policy m journal) : m.heap.Clean := by
  induction hj with
  | new => exact Heap.clean_new policy
  | handle hprev hok ih =>
    exact (undergoes_handle _ _).clean hprev.sound ih (result_onHeap hok)

end Machine

/-- **Marks do not leak from one collection to the next.** In every heap that arises the grey stack
lists the marked slots, each of them once. A collection that completes leaves nothing marked and
nothing grey. Between two requests to a machine, whatever their operands, nothing is marked or grey.
-/
theorem marks_contained :
    (∀ overwrites policy (h : Heap), h.Arises overwrites policy →
      h.grey.Nodup ∧ ∀ slot, slot ∈ h.grey ↔ ∃ c, h.cell? slot = some c ∧ c.marked = true) ∧
    (∀ overwrites policy (h after : Heap), h.Arises overwrites policy →
      h.collect.result = .ok after →
      (∀ slot c, after.cell? slot = some c → c.marked = false) ∧ after.grey = []) ∧
    ∀ policy (m : Machine) journal, m.Journaled policy journal →
      (∀ slot c, m.heap.cell? slot = some c → c.marked = false) ∧ m.heap.grey = [] := by
  refine ⟨?_, ?_, ?_⟩
  · intro overwrites policy h ha
    have htidy := ha.sound.tidy
    refine ⟨htidy.nodup, fun slot => ?_⟩
    rw [htidy.mem_iff, Heap.isMarked_iff]
  · intro overwrites policy h after ha hc
    have hclean := Heap.clean_collect hc
    exact ⟨fun _ _ => hclean.marked_eq, hclean.grey_eq⟩
  · intro policy m journal hj
    exact ⟨fun _ _ => hj.clean.marked_eq, hj.clean.grey_eq⟩

/-! ## A marked box and a stale name -/

/-- A box has been marked for the next collection, and then another one has been allocated. -/
def Heap.prepared : Heap := ((Heap.knot.mark 4).place (.box .nil)).1

theorem Heap.arises_prepared : prepared.Arises true {} :=
  (arises_knot.step (.mark 4)).step
    (.allocate (k := .box) (p := .nil) (r := ⟨3⟩) trivial (by decide +kernel))

/-- The name of the global was collected before it was defined, and there is another string in its
slot. -/
def Machine.haunted : Machine where
  heap := Heap.refilled
  globals := ((∅ : Table).insert { str := ⟨0⟩, hash := Text.hash "a" } .nil).1

theorem Machine.journaled_haunted : ∃ journal, haunted.Journaled {} journal := by
  have hinterned : ((new {}).handle (.intern "a")).result =
      .ok ({ heap := Heap.single }, .symbol { str := ⟨0⟩, hash := Text.hash "a" }) := by
    decide +kernel
  have hcollected : ({ heap := Heap.single : Machine }.handle .collect).result =
      .ok ({ heap := Heap.vacated }, .done) := by decide +kernel
  have hdefined : ({ heap := Heap.vacated : Machine }.handle
      (.defineGlobal { str := ⟨0⟩, hash := Text.hash "a" } .nil)).result =
      .ok ({ heap := Heap.vacated, globals := haunted.globals }, .done) := by decide +kernel
  have hrefilled : ({ heap := Heap.vacated, globals := haunted.globals : Machine }.handle
      (.intern "b")).result = .ok (haunted, .symbol { str := ⟨0⟩, hash := Text.hash "b" }) := by
    decide +kernel
  exact ⟨_, .handle (.handle (.handle (.handle .new hinterned) hcollected) hdefined) hrefilled⟩

/-- The new box is not marked, and a collection comes to it by a stale field that led to its slot
before. In the machine the stale name marks the string that it does not name, and keeps it. In both
cases the marks are gone after that. -/
theorem marks_contained_haunted :
    (Heap.prepared.grey = [4] ∧ ∀ slot, slot ∈ Heap.prepared.grey ↔
      ∃ c, Heap.prepared.cell? slot = some c ∧ c.marked = true) ∧
    (∃ after, Heap.prepared.collect.result = .ok after ∧ after.objectCount = 5 ∧
      after.grey = []) ∧
    ∃ after, (Machine.haunted.handle .collect).result = .ok (after, .done) ∧
      after.heap.objectCount = 1 ∧ ∀ slot c, after.heap.cell? slot = some c → c.marked = false := by
  obtain ⟨hheap, hcollect, hmachine⟩ := marks_contained
  obtain ⟨journal, hj⟩ := Machine.journaled_haunted
  have hprepared : Heap.prepared.collect.result =
      .ok { Heap.prepared.swept with cycles := 2, threshold := 1048576 } := by decide +kernel
  have hhaunted : (Machine.haunted.handle .collect).result = .ok
      ({ Machine.haunted with
          heap := { (Heap.refilled.mark 0).swept with cycles := 2, threshold := 1048576 } },
        .done) := by decide +kernel
  exact ⟨⟨by decide +kernel, (hheap _ _ _ Heap.arises_prepared).2⟩,
    ⟨_, hprepared, by decide +kernel, (hcollect _ _ _ _ Heap.arises_prepared hprepared).2⟩,
    _, hhaunted, by decide +kernel, (hmachine _ _ _ (hj.handle hhaunted)).1⟩

end ObjectHeap
