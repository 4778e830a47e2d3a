import ObjectHeap.Proofs.Heap.Sound

/-!
# Histories of a heap

`Heap.Arises` says of a heap that it comes out of a run, and forgets the run. A *history* remembers
it: the states from the last one back to the new heap, the slots that were handed out on the way,
and the journal. Every heap that arises has one (`Arises.history`), so what holds at the end of
every history holds of every heap that arises.

The journal is enough to tell which slots are occupied. Of the events only two say anything about a
slot, its allocation and its release, and the last of them that names a slot decides
(`Performs.isSome_cell?`).
-/

set_option autoImplicit false

namespace ObjectHeap

namespace Heap

variable {h after : Heap} {overwrites : Bool} {answer : Option Nat} {events : List Event}

/-- One operation, with the slot that it hands out, if it hands out one, and what it reports. -/
inductive Performs (overwrites : Bool) (h : Heap) : Option Nat → List Event → Heap → Prop
  | intern {after : Heap} {text : String} {reserved : Nat} {s : Symbol} :
    (h.internReserving text reserved).result = .ok (after, s) →
    Performs overwrites h (some s.str.slot) (h.internReserving text reserved).events after
  | allocate {after : Heap} {k : Kind} {p : k.Payload} {r : Ref k} :
    (Object.of k p).HasBuiltTables → (h.allocate k p).result = .ok (after, r) →
    Performs overwrites h (some r.slot) (h.allocate k p).events after
  | mark (slot : Nat) :
    Performs overwrites h none (marksSince h (h.mark slot)) (h.mark slot)
  | edit {k : Kind} {r : Ref k} {p : k.Payload} {put : k.Payload → Heap} (q : k.Payload) :
    (k = .str → overwrites = true) → (Object.of k q).HasBuiltTables →
    h.access r = .ok (p, put) → Performs overwrites h none [] (put q)
  | collect {after : Heap} : h.collect.result = .ok after →
    Performs overwrites h none h.collect.events after

/-- An operation that is told in full is an operation. -/
theorem Performs.step (hp : h.Performs overwrites answer events after) :
    Step overwrites h after := by
  cases hp with
  | intern hi => exact .intern hi
  | allocate hb ha => exact .allocate hb ha
  | mark slot => exact .mark slot
  | edit q hk hb ha => exact .edit q hk hb ha
  | collect hc => exact .collect hc

/-- Every operation can be told in full. -/
theorem Step.performs (hs : Step overwrites h after) :
    ∃ answer events, h.Performs overwrites answer events after := by
  cases hs with
  | intern hi => exact ⟨_, _, .intern hi⟩
  | allocate hb ha => exact ⟨_, _, .allocate hb ha⟩
  | mark slot => exact ⟨_, _, .mark slot⟩
  | edit q hk hb ha => exact ⟨_, _, .edit q hk hb ha⟩
  | collect hc => exact ⟨_, _, .collect hc⟩

/-- A run from the new heap: its states, the last one first, the slots that it handed out and its
journal. -/
inductive History (overwrites : Bool) (policy : Policy) :
    List Heap → List Nat → List Event → Prop
  | new : History overwrites policy [.new policy] [] []
  | step {h after : Heap} {past : List Heap} {handed : List Nat} {journal events : List Event}
    {answer : Option Nat} : History overwrites policy (h :: past) handed journal →
    h.Performs overwrites answer events after →
    History overwrites policy (after :: h :: past) (handed ++ answer.toList) (journal ++ events)

variable {policy : Policy} {past : List Heap} {handed : List Nat} {journal : List Event}

theorem History.arises (hh : History overwrites policy (h :: past) handed journal) :
    h.Arises overwrites policy := by
  generalize hs : h :: past = states at hh
  induction hh generalizing h past with
  | new => cases hs; exact .new
  | step _ hp ih => cases hs; exact .step (ih rfl) hp.step

/-- Every heap that arises has a history. -/
theorem Arises.history (ha : h.Arises overwrites policy) :
    ∃ past handed journal, History overwrites policy (h :: past) handed journal := by
  induction ha with
  | new => exact ⟨_, _, _, .new⟩
  | step _ hs ih =>
    obtain ⟨past, handed, journal, hh⟩ := ih
    obtain ⟨answer, events, hp⟩ := hs.performs
    exact ⟨_, _, _, hh.step hp⟩

end Heap

/-! ## What a journal says about a slot -/

namespace Event

/-- What an event says about a slot: that it is occupied from now on, or that it is not. -/
def verdict? (slot : Nat) : Event → Option Bool
  | .allocated s _ => if s = slot then some true else none
  | .freed s => if s = slot then some false else none
  | .grew .. | .marked _ | .blackened _ | .cycleBegan | .cycleEnded _ | .machineReset _ => none

/-- The event is one of tracing: a mark or a visit. -/
def isMarking : Event → Bool
  | .marked _ | .blackened _ => true
  | .grew .. | .allocated .. | .freed _ | .cycleBegan | .cycleEnded _ | .machineReset _ => false

theorem verdict?_of_isMarking {e : Event} (he : e.isMarking = true) (slot : Nat) :
    e.verdict? slot = none := by
  cases e with
  | marked | blackened => rfl
  | grew | allocated | freed | cycleBegan | cycleEnded | machineReset => cases he

/-- What a journal says last about a slot. -/
def latest? (slot : Nat) (journal : List Event) : Option Bool :=
  (journal.filterMap (verdict? slot)).getLast?

variable {slot : Nat} {journal later : List Event}

@[simp] theorem latest?_append :
    latest? slot (journal ++ later) = (latest? slot later).or (latest? slot journal) := by
  rw [latest?, List.filterMap_append, List.getLast?_append]
  rfl

/-- What was said before an event that says something about the slot does not count. -/
theorem latest?_append_cons {e : Event} {b : Bool} (he : e.verdict? slot = some b)
    (before since : List Event) (was : Bool) :
    (latest? slot (before ++ e :: since)).getD was = (latest? slot since).getD b := by
  have hone : latest? slot [e] = some b := by simp [latest?, he]
  rw [latest?_append, ← List.singleton_append, latest?_append, Option.getD_or, Option.getD_or, hone]
  rfl

theorem latest?_eq_none (hn : ∀ e ∈ journal, e.verdict? slot = none) :
    latest? slot journal = none := by
  rw [latest?, List.filterMap_eq_nil_iff.2 hn]
  rfl

/-- A journal that says nothing about a slot but that it is occupied says that at most. -/
theorem latest?_getD_true (hn : .freed slot ∉ journal) :
    (latest? slot journal).getD true = true := by
  cases hl : latest? slot journal with
  | none => rfl
  | some b =>
    obtain ⟨e, he, hv⟩ := List.mem_filterMap.1 (List.mem_of_getLast? hl)
    cases e <;> simp only [verdict?] at hv
    case allocated s n => split at hv <;> cases hv; rfl
    case freed s =>
      split at hv
      · next heq => rw [heq] at he; exact absurd he hn
      · cases hv
    all_goals cases hv

/-- A journal that does not tell of an allocation in a slot does not say that it is occupied. -/
theorem latest?_getD_false (hn : ∀ n, .allocated slot n ∉ journal) :
    (latest? slot journal).getD false = false := by
  cases hl : latest? slot journal with
  | none => rfl
  | some b =>
    obtain ⟨e, he, hv⟩ := List.mem_filterMap.1 (List.mem_of_getLast? hl)
    cases e <;> simp only [verdict?] at hv
    case allocated s n =>
      split at hv
      · next heq => rw [heq] at he; exact absurd he (hn n)
      · cases hv
    case freed s => split at hv <;> cases hv; rfl
    all_goals cases hv

end Event

namespace Heap

variable {h after : Heap} {overwrites : Bool} {answer : Option Nat} {events : List Event}
  {slot : Nat}

/-! ### What operations report -/

theorem isMarking_marksSince {before after : Heap} :
    ∀ e ∈ marksSince before after, e.isMarking = true := by
  intro e he
  obtain ⟨s, -, rfl⟩ := List.mem_map.1 he
  rfl

theorem verdict?_marksSince {before after : Heap} :
    ∀ e ∈ marksSince before after, e.verdict? slot = none :=
  fun e he => e.verdict?_of_isMarking (isMarking_marksSince e he) slot

theorem verdict?_growths {before after : Table} :
    ∀ e ∈ Event.growths before after, e.verdict? slot = none := by
  intro e he
  obtain ⟨⟨small, large⟩, -, rfl⟩ := List.mem_map.1 he
  rfl

theorem events_trace_cons {s : Nat} {grey : List Nat} (hg : h.grey = s :: grey) :
    h.trace.2 = .blackened s :: marksSince { h with grey } (h.advance s grey) ++
      (h.advance s grey).trace.2 := by
  rw [trace]
  split
  · next heq => rw [hg] at heq; cases heq
  · next heq => rw [hg] at heq; cases heq; rfl

/-- Tracing tells of marks and visits only. -/
theorem isMarking_trace (h : Heap) : ∀ e ∈ h.trace.2, e.isMarking = true := by
  induction h using trace.induct with
  | case1 h hg =>
    intro e he
    rw [trace_nil hg] at he
    exact absurd he List.not_mem_nil
  | case2 h s grey hg taken blackened traced later heq ih =>
    intro e he
    rw [events_trace_cons hg, List.mem_append, List.mem_cons] at he
    rcases he with (rfl | he) | he
    · rfl
    · exact isMarking_marksSince e he
    · exact ih e he

theorem verdict?_trace (h : Heap) : ∀ e ∈ h.trace.2, e.verdict? slot = none :=
  fun e he => e.verdict?_of_isMarking (isMarking_trace h e he) slot

/-- The journal of a collection that completes: its beginning, what tracing tells, the releases and
the summary. -/
theorem events_collect (hc : h.collect.result = .ok after) :
    h.collect.events = [.cycleBegan] ++ h.trace.2 ++ h.trace.1.garbage.map .freed ++
      [.cycleEnded
        { cycle := after.cycles, bytesBefore := h.bytes, bytesAfter := after.bytes,
          stringsDropped := h.trace.1.dropStrings.2, threshold := after.threshold }] := by
  obtain ⟨threshold, ht, rfl⟩ := of_collect_eq_ok hc
  have hnext : h.trace.1.dropStrings.1.sweep.nextThreshold = .ok threshold := ht
  simp only [collect, Outcome.events_bind, Outcome.events_report, Outcome.result_report,
    Outcome.events_liftM, Outcome.result_liftM, hnext, Outcome.events_pure, List.nil_append,
    List.append_nil, List.append_assoc]
  rfl

theorem latest?_releases (slots : List Nat) :
    Event.latest? slot (slots.map .freed) = if slot ∈ slots then some false else none := by
  induction slots with
  | nil => rfl
  | cons s rest ih =>
    rw [List.map_cons, ← List.singleton_append, Event.latest?_append, ih]
    by_cases hrest : slot ∈ rest
    · rw [if_pos hrest, if_pos (List.mem_cons_of_mem _ hrest)]
      rfl
    · by_cases heq : s = slot
      · simp [Event.latest?, Event.verdict?, hrest, heq]
      · simp [Event.latest?, Event.verdict?, hrest, heq, Ne.symm heq]

theorem latest?_collect (hc : h.collect.result = .ok after) :
    Event.latest? slot h.collect.events =
      if slot ∈ h.trace.1.garbage then some false else none := by
  have htrace : Event.latest? slot h.trace.2 = none := Event.latest?_eq_none (verdict?_trace h)
  rw [events_collect hc]
  simp only [Event.latest?_append, htrace, latest?_releases]
  split <;> rfl

/-! ### What operations leave -/

section Recounted

variable {α β : Type}

/-- If the operation succeeds, then it leaves a sound heap, and with its journal one can tell from
the slots that were occupied before which ones are occupied now. -/
def Recounted (h : Heap) (x : Outcome α) (heap : α → Heap) : Prop :=
  ∀ a, x.result = .ok a → (heap a).Sound ∧
    ∀ slot, ((heap a).cell? slot).isSome =
      (Event.latest? slot x.events).getD (h.cell? slot).isSome

theorem Recounted.bind {x : Outcome α} {f : α → Outcome β} {heap : α → Heap} {heap' : β → Heap}
    (hx : h.Recounted x heap)
    (hf : ∀ a, x.result = .ok a → (heap a).Sound → (heap a).Recounted (f a) heap') :
    h.Recounted (x >>= f) heap' := by
  intro b hb
  rw [Outcome.result_bind] at hb
  cases hres : x.result with
  | error fault => rw [hres] at hb; cases hb
  | ok a =>
    rw [hres] at hb
    obtain ⟨hs, hslots⟩ := hx a hres
    obtain ⟨hs', hslots'⟩ := hf a hres hs b hb
    refine ⟨hs', ?_⟩
    intro slot
    rw [hslots', hslots, Outcome.events_bind, hres, Event.latest?_append, Option.getD_or]

/-- Only which slots were occupied before matters. -/
theorem Recounted.congr {g : Heap} {x : Outcome α} {heap : α → Heap} (hx : g.Recounted x heap)
    (heq : ∀ slot, (g.cell? slot).isSome = (h.cell? slot).isSome) : h.Recounted x heap := by
  intro a ha
  obtain ⟨hs, hslots⟩ := hx a ha
  refine ⟨hs, ?_⟩
  intro slot
  rw [hslots, heq]

/-- An operation that does not touch the cells and says nothing about any slot. -/
theorem Recounted.of_quiet (hs : h.Sound) {x : Outcome α} {heap : α → Heap}
    (he : ∀ slot, ∀ e ∈ x.events, e.verdict? slot = none)
    (hh : ∀ a, x.result = .ok a → heap a = h) : h.Recounted x heap := by
  intro a ha
  rw [hh a ha]
  refine ⟨hs, ?_⟩
  intro slot
  rw [Event.latest?_eq_none (he slot)]
  rfl

theorem Recounted.pure (hs : h.Sound) {a : α} {heap : α → Heap} (hh : heap a = h) :
    h.Recounted (Pure.pure a) heap := by
  refine .of_quiet hs (fun _ _ he => absurd he List.not_mem_nil) ?_
  rintro _ ⟨⟩
  exact hh

theorem Recounted.lift (hs : h.Sound) (x : Except Fault α) :
    h.Recounted (liftM x) fun _ => h :=
  .of_quiet hs (fun _ _ he => absurd he List.not_mem_nil) fun _ _ => rfl

theorem Recounted.report (hs : h.Sound) {events : List Event}
    (he : ∀ slot, ∀ e ∈ events, e.verdict? slot = none) :
    h.Recounted (Outcome.report events) fun _ => h :=
  .of_quiet hs he fun _ _ => rfl

theorem isSome_cell?_place (hs : h.Slotted) (o : Object) (slot : Nat) :
    ((h.place o).1.cell? slot).isSome =
      if slot = (h.place o).2 then true else (h.cell? slot).isSome := by
  rw [cell?_place hs]
  split <;> rfl

theorem allocate_eq (h : Heap) (k : Kind) (p : k.Payload) : h.allocate k p =
    ⟨[.allocated (h.place (.of k p)).2 (chargeOf (.of k p))],
      .ok ((h.place (.of k p)).1, ⟨(h.place (.of k p)).2⟩)⟩ := rfl

theorem Sound.recounted_allocate (hs : h.Sound) {k : Kind} {p : k.Payload}
    (hb : (Object.of k p).HasBuiltTables) : h.Recounted (h.allocate k p) Prod.fst := by
  rw [allocate_eq]
  rintro _ ⟨⟩
  refine ⟨hs.place hb, ?_⟩
  intro slot
  rw [isSome_cell?_place hs.slotted]
  by_cases heq : slot = (h.place (.of k p)).2
  · simp [Event.latest?, Event.verdict?, heq]
  · simp [Event.latest?, Event.verdict?, heq, Ne.symm heq]

theorem Sound.recounted_internReserving (hs : h.Sound) (text : String) (reserved : Nat) :
    h.Recounted (h.internReserving text reserved) Prod.fst := by
  unfold internReserving
  refine .bind (.lift hs _) ?_
  intro found _ _
  cases found with
  | some symbol => exact .pure hs rfl
  | none =>
    refine .bind (hs.recounted_allocate (k := .str) trivial) ?_
    rintro ⟨placed, r⟩ _ hplaced
    refine .bind (.report hplaced fun _ => verdict?_growths) ?_
    intro _ _ _ _ heq
    cases heq
    exact ⟨hplaced.withStrings (.insert _ _ hplaced.strings), fun _ => rfl⟩

theorem isSome_cell?_replace {k : Kind} (r : Ref k) (p : k.Payload) (slot : Nat) :
    ((h.replace r p).cell? slot).isSome = (h.cell? slot).isSome := by
  rw [cell?_replace]
  split
  · exact Option.isSome_map
  · rfl

theorem Sound.recounted_replace (hs : h.Sound) {k : Kind} {r : Ref k} {p : k.Payload}
    (hb : (Object.of k p).HasBuiltTables) {a : α} {heap : α → Heap}
    (hh : heap a = h.replace r p) : h.Recounted (Pure.pure a) heap := by
  rintro _ ⟨⟩
  rw [hh]
  exact ⟨hs.replace hb, isSome_cell?_replace r p⟩

theorem Repainted.isSome_cell? {g : Heap} (hg : Repainted h g) (slot : Nat) :
    (g.cell? slot).isSome = (h.cell? slot).isSome := by
  have hcells := congrArg Option.isSome (hg.cells slot)
  rwa [Option.isSome_map, Option.isSome_map] at hcells

theorem mem_garbage : slot ∈ h.garbage ↔ h.isWhite slot = true := by
  rw [garbage, List.mem_filter, List.mem_range]
  refine ⟨And.right, fun hw => ⟨?_, hw⟩⟩
  obtain ⟨c, hc, -⟩ := isWhite_iff.1 hw
  exact cell?_lt_size hc

/-- A sweep empties the slots of the white objects. -/
theorem isSome_cell?_swept (h : Heap) (slot : Nat) : (h.swept.cell? slot).isSome =
    if slot ∈ h.trace.1.garbage then false else (h.cell? slot).isSome := by
  rw [cell?_swept_eq, ← (repainted_trace h).isSome_cell?]
  simp only [mem_garbage, isWhite]
  rcases h.trace.1.cell? slot with _ | ⟨o, n, marked⟩
  · rfl
  · cases marked <;> rfl

/-- A collection leaves in the slots what its sweep leaves there. -/
theorem cell?_collect (hc : h.collect.result = .ok after) (slot : Nat) :
    after.cell? slot = h.swept.cell? slot := by
  obtain ⟨threshold, -, rfl⟩ := of_collect_eq_ok hc
  rfl

theorem Sound.recounted_collect (hs : h.Sound) : h.Recounted h.collect id := by
  intro after hc
  refine ⟨hs.collect hc, ?_⟩
  intro slot
  rw [latest?_collect hc, id, cell?_collect hc, isSome_cell?_swept]
  split <;> rfl

end Recounted

/-! ### Histories -/

/-- After an operation a slot is occupied if the journal of the operation says so or, if it says
nothing about the slot, if it was occupied before. -/
theorem Performs.isSome_cell? (hs : h.Sound) (hp : h.Performs overwrites answer events after)
    (slot : Nat) : (after.cell? slot).isSome =
      (Event.latest? slot events).getD (h.cell? slot).isSome := by
  cases hp with
  | intern hi => exact (hs.recounted_internReserving _ _ _ hi).2 slot
  | allocate hb ha => exact (hs.recounted_allocate hb _ ha).2 slot
  | mark target =>
    rw [Event.latest?_eq_none verdict?_marksSince]
    exact (repainted_mark h target).isSome_cell? slot
  | edit q hk hb ha =>
    obtain ⟨-, rfl⟩ := of_access_eq_ok ha
    exact isSome_cell?_replace _ q slot
  | collect hc => exact (hs.recounted_collect after hc).2 slot

/-- **The journal tells the occupied slots**: those of which it says so last. -/
theorem History.isSome_cell? {policy : Policy} {past : List Heap} {handed : List Nat}
    {journal : List Event} (hh : History overwrites policy (h :: past) handed journal)
    (slot : Nat) : (h.cell? slot).isSome = (Event.latest? slot journal).getD false := by
  generalize hs : h :: past = states at hh
  induction hh generalizing h past with
  | new =>
    cases hs
    rw [cell?_of_size_le (Nat.zero_le slot)]
    rfl
  | step hprev hp ih =>
    cases hs
    rw [hp.isSome_cell? hprev.arises.sound, ih rfl, Event.latest?_append, Option.getD_or]

end Heap

end ObjectHeap
