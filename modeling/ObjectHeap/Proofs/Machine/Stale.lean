import ObjectHeap.Proofs.Heap.Allocator
import ObjectHeap.Proofs.Machine.History

/-!
# Stale references

A reference is a slot number and a kind, and neither changes when its object is released. What it
leads to afterwards is decided by what has happened to the slot since. As long as the slot has not
been handed out again, it is empty, and to follow the reference is a fault (`Dangles`). Once it has
been, the reference leads to the object that is there now, if that is of its kind, and this object
is read by it and changed by it (`Leads`). So slots that are used again make a stale reference as
good as a new one, and a heap cannot tell the two apart (`references_tell_slots`).
-/

set_option autoImplicit false

namespace ObjectHeap

namespace Event

/-- After the release of a slot, a journal tells of the slot again or it does not. -/
theorem latest_turn {slot : Nat} {journal : List Event} (hf : .freed slot ∈ journal) :
    (∃ before since, journal = before ++ .freed slot :: since ∧
      ∀ bytes, .allocated slot bytes ∉ since) ∨
    ∃ before bytes since, journal = before ++ .allocated slot bytes :: since ∧
      .freed slot ∈ before ∧ .freed slot ∉ since := by
  induction journal using List.reverseRecOn with
  | nil => exact absurd hf List.not_mem_nil
  | append_singleton journal e ih =>
    by_cases hfree : e = .freed slot
    · rw [hfree]
      exact .inl ⟨journal, [], rfl, fun _ => List.not_mem_nil⟩
    · have hold : .freed slot ∈ journal := by
        rcases List.mem_append.1 hf with hold | hlast
        · exact hold
        · exact absurd (List.mem_singleton.1 hlast).symm hfree
      by_cases hnew : ∃ bytes, e = .allocated slot bytes
      · obtain ⟨bytes, rfl⟩ := hnew
        exact .inr ⟨journal, bytes, [], rfl, hold, List.not_mem_nil⟩
      · -- The last event says nothing about the slot, so what was said last before it stands.
        rcases ih hold with ⟨before, since, rfl, hsince⟩ | ⟨before, bytes, since, rfl, hb, hsince⟩
        · refine .inl ⟨before, since ++ [e], by simp, ?_⟩
          intro bytes hmem
          rcases List.mem_append.1 hmem with hmem | hlast
          · exact hsince bytes hmem
          · exact hnew ⟨bytes, (List.mem_singleton.1 hlast).symm⟩
        · refine .inr ⟨before, bytes, since ++ [e], by simp, hb, ?_⟩
          intro hmem
          rcases List.mem_append.1 hmem with hmem | hlast
          · exact hsince hmem
          · exact hfree (List.mem_singleton.1 hlast).symm

end Event

namespace Heap

variable {h : Heap} {journal : List Event}

/-- The reference is to an empty slot. It can be followed neither to read nor to change. -/
structure Dangles {k : Kind} (h : Heap) (r : Ref k) : Prop where
  contains_eq : h.contains r = false
  deref_eq : h.deref r = .error (.dangling r.slot)
  access_eq : h.access r = .error (.dangling r.slot)
  message_eq : (Fault.dangling r.slot).message = "dangling reference to #" ++ toString r.slot

/-- The reference is to a slot that is in use. It leads to the object that is there now, if that is
of its kind and not a box, to read it and to change it. -/
structure Leads {k : Kind} (h : Heap) (r : Ref k) : Prop where
  contains_eq : h.contains r = true
  reads : ∀ p, h.deref r = .ok p ↔ k ≠ .box ∧ h.object? r.slot = some (.of k p)
  opens : ∀ p, (∃ put, h.access r = .ok (p, put)) ↔
    k ≠ .box ∧ h.object? r.slot = some (.of k p)
  /-- What is changed is that object and no other. -/
  writes : ∀ p put, h.access r = .ok (p, put) → ∀ q,
    (put q).object? r.slot = some (.of k q) ∧
      ∀ slot, slot ≠ r.slot → (put q).cell? slot = h.cell? slot
  /-- Otherwise both are the same fault. -/
  faults : (k = .box ∨ ∀ p, h.object? r.slot ≠ some (.of k p)) →
    ∃ f, h.deref r = .error f ∧ h.access r = .error f ∧
      (f = .dangling r.slot ∨ ∃ v, h.object? r.slot = some (.box v) ∧ f = .boxed)

/-- What becomes of the references to a slot that has been released, by what the journal tells. -/
structure TellsSlots (h : Heap) (journal : List Event) : Prop where
  /-- Until the slot is handed out again, it is empty. -/
  released : ∀ {k : Kind} (r : Ref k) before since,
    journal = before ++ .freed r.slot :: since → (∀ bytes, .allocated r.slot bytes ∉ since) →
    h.Dangles r
  /-- After that, until the next release, the references lead to what is there now. -/
  reused : ∀ {k : Kind} (r : Ref k) before bytes since,
    journal = before ++ .allocated r.slot bytes :: since → .freed r.slot ∉ since → h.Leads r
  /-- The slot is in one of these two conditions. -/
  either : ∀ slot, .freed slot ∈ journal →
    (∃ before since, journal = before ++ .freed slot :: since ∧
      ∀ bytes, .allocated slot bytes ∉ since) ∨
    ∃ before bytes since, journal = before ++ .allocated slot bytes :: since ∧
      .freed slot ∈ before ∧ .freed slot ∉ since

theorem deref_of_empty {k : Kind} {r : Ref k} (he : h.cell? r.slot = none) :
    h.deref r = .error (.dangling r.slot) := by
  rw [deref, object?, he]
  rfl

/-- References to boxes are never followed. -/
theorem deref_box_ne_ok (r : Ref .box) (v : Value) : h.deref r ≠ .ok v := by
  unfold deref
  split
  · exact nofun
  · exact nofun
  · next o hbox _ =>
    cases o with
    | box w => exact absurd rfl (hbox w)
    | str | cls | inst => exact nofun

theorem deref_eq_ok_iff {k : Kind} {r : Ref k} {p : k.Payload} :
    h.deref r = .ok p ↔ k ≠ .box ∧ h.object? r.slot = some (.of k p) := by
  constructor
  · intro hr
    refine ⟨?_, object?_of_deref hr⟩
    rintro rfl
    exact deref_box_ne_ok r p hr
  · rintro ⟨hk, ho⟩
    exact deref_of_object? hk ho

theorem dangles_of_empty {k : Kind} {r : Ref k} (he : (h.cell? r.slot).isSome = false) :
    h.Dangles r where
  contains_eq := he
  deref_eq := deref_of_empty (by simpa using he)
  access_eq := access_of_deref_error (deref_of_empty (by simpa using he))
  message_eq := rfl

/-- To follow a reference can fail in two ways. -/
theorem of_deref_eq_error {k : Kind} {r : Ref k} {f : Fault} (hr : h.deref r = .error f) :
    f = .dangling r.slot ∨ ∃ v, h.object? r.slot = some (.box v) ∧ f = .boxed := by
  unfold deref at hr
  split at hr
  · cases hr
    exact .inl rfl
  · next v hbox =>
    cases hr
    exact .inr ⟨v, hbox, rfl⟩
  · split at hr
    · cases hr
    · cases hr
      exact .inl rfl

theorem leads_of_occupied {k : Kind} {r : Ref k} (ho : (h.cell? r.slot).isSome = true) :
    h.Leads r where
  contains_eq := ho
  reads _ := deref_eq_ok_iff
  opens p := by
    rw [← deref_eq_ok_iff]
    constructor
    · rintro ⟨put, hput⟩
      exact (of_access_eq_ok hput).1
    · exact fun hr => ⟨_, access_of_deref hr⟩
  writes p put hput q := by
    obtain ⟨hr, rfl⟩ := of_access_eq_ok hput
    refine ⟨?_, fun slot hne => ?_⟩
    · rw [object?_replace, if_pos rfl, object?_of_deref hr]
      rfl
    · rw [cell?_replace, if_neg hne]
  faults hno := by
    cases hr : h.deref r with
    | error f => exact ⟨f, rfl, access_of_deref_error hr, of_deref_eq_error hr⟩
    | ok p =>
      obtain ⟨hk, hp⟩ := deref_eq_ok_iff.1 hr
      rcases hno with hbox | hnone
      · exact absurd hbox hk
      · exact absurd hp (hnone p)

theorem tellsSlots_of_latest (hcells : ∀ slot,
    (h.cell? slot).isSome = (Event.latest? slot journal).getD false) : h.TellsSlots journal where
  released r before since heq hsince := by
    apply dangles_of_empty
    have hfreed : (Event.freed r.slot).verdict? r.slot = some false := if_pos rfl
    rw [hcells, heq, Event.latest?_append_cons hfreed]
    exact Event.latest?_getD_false hsince
  reused r before bytes since heq hsince := by
    apply leads_of_occupied
    have hallocated : (Event.allocated r.slot bytes).verdict? r.slot = some true := if_pos rfl
    rw [hcells, heq, Event.latest?_append_cons hallocated]
    exact Event.latest?_getD_true hsince
  either slot hf := Event.latest_turn hf

end Heap

/-- **References tell slots, not objects.** In every run of a heap, and in every run of a machine
whatever it is asked, a reference to a slot that has been released is a fault to follow, to read and
to change alike, until the slot is handed out again. From then until the next release it leads to
the object that is there now, if that is of its kind, and is a fault to follow otherwise. -/
theorem references_tell_slots :
    (∀ overwrites policy h past handed journal,
      Heap.History overwrites policy (h :: past) handed journal → h.TellsSlots journal) ∧
    ∀ policy m journal, Machine.Journaled policy m journal → m.heap.TellsSlots journal := by
  constructor
  · intro overwrites policy h past handed journal hh
    exact Heap.tellsSlots_of_latest hh.isSome_cell?
  · intro policy m journal hj
    exact Heap.tellsSlots_of_latest hj.isSome_cell?

namespace Heap

/-- The reference that was handed out for the first string is a fault to follow when the string has
been released. Once the second string is in the slot, it leads to that one, and what is written by it
is written over the second string. -/
theorem references_tell_slots_refilled :
    vacated.Dangles (⟨0⟩ : Ref .str) ∧
    refilled.contains (⟨0⟩ : Ref .str) = true ∧
    refilled.deref (⟨0⟩ : Ref .str) = .ok (.ofText "b" 0) ∧
    ∃ put, refilled.access (⟨0⟩ : Ref .str) = .ok (.ofText "b" 0, put) ∧
      ∀ q, (put q).object? 0 = some (.str q) := by
  have hvacated := references_tell_slots.1 _ _ _ _ _ _ (history_vacated true)
  have hrefilled := references_tell_slots.1 _ _ _ _ _ _ (history_refilled true)
  have hdangles := hvacated.released (⟨0⟩ : Ref .str) [.allocated 0 65, .grew 0 8, .cycleBegan]
    [_] rfl (by simp)
  have hleads := hrefilled.reused (⟨0⟩ : Ref .str) _ 65 [] rfl List.not_mem_nil
  have hobject : refilled.object? 0 = some (.str (.ofText "b" 0)) := by decide +kernel
  obtain ⟨put, hput⟩ := (hleads.opens (.ofText "b" 0)).2 ⟨by decide, hobject⟩
  exact ⟨hdangles, hleads.contains_eq, (hleads.reads _).2 ⟨by decide, hobject⟩, put, hput,
    fun q => (hleads.writes _ _ hput q).1⟩

/-- A slot was handed out, its object was released, and in a later state the reference is contained
in the heap, leads to an object that was allocated later, and writes over it. -/
theorem stale_reference_followed : ∃ (r : Ref .str) (journal : List Event),
    History false {} [refilled, vacated, single, .new {}] [r.slot, r.slot] journal ∧
    single.deref r = .ok (.ofText "a" 0) ∧ .freed r.slot ∈ journal ∧
    refilled.contains r = true ∧ refilled.deref r = .ok (.ofText "b" 0) ∧
    refilled.access r = .ok (.ofText "b" 0, refilled.replace r) ∧
    (refilled.replace r (.ofText "c" 0)).deref r = .ok (.ofText "c" 0) := by
  have hread : refilled.deref (⟨0⟩ : Ref .str) = .ok (.ofText "b" 0) := by decide +kernel
  exact ⟨⟨0⟩, _, history_refilled false, by decide +kernel, by decide, by decide +kernel, hread,
    access_of_deref hread, by decide +kernel⟩

end Heap

end ObjectHeap
