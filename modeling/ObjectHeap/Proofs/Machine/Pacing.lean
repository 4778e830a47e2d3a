import ObjectHeap.Proofs.Machine.History
import ObjectHeap.Proofs.Machine.Room

/-!
# The pace of collections

A machine looks at its threshold before it allocates, and not after. So its bytes may exceed the
threshold, but only by what the last allocation was charged, and only until the next one: then there
is a collection, after which the threshold is no less than the bytes that are left, because it is
computed from these (`Journaled.paces`).

What carries this over a run is a statement about heap and journal together (`Heap.Paced`), since
only the journal remembers the last allocation. Each effect of a request keeps it.
-/

set_option autoImplicit false

namespace ObjectHeap

/-! ## The last allocation of a journal -/

namespace Event

/-- What an allocation was charged. -/
def charge? : Event → Option Nat
  | .allocated _ bytes => some bytes
  | .grew .. | .marked _ | .blackened _ | .freed _ | .cycleBegan | .cycleEnded _
  | .machineReset _ => none

/-- What the last allocation was charged, or nothing if there was none. -/
def lastCharge (journal : List Event) : Nat := (journal.filterMap charge?).getLast?.getD 0

variable {journal later : List Event} {slot bytes : Nat}

theorem charge?_of_isAside {e : Event} (he : e.isAside = true) : e.charge? = none := by
  cases e with
  | grew | machineReset => rfl
  | allocated | marked | blackened | freed | cycleBegan | cycleEnded => cases he

theorem lastCharge_append (hn : ∀ e ∈ later, e.charge? = none) :
    lastCharge (journal ++ later) = lastCharge journal := by
  rw [lastCharge, List.filterMap_append, List.filterMap_eq_nil_iff.2 hn, List.append_nil]
  rfl

theorem lastCharge_append_allocated (hn : ∀ e ∈ later, e.charge? = none) :
    lastCharge (journal ++ .allocated slot bytes :: later) = bytes := by
  have hlater : (Event.allocated slot bytes :: later).filterMap charge? = [bytes] := by
    rw [List.filterMap_cons_some (show (Event.allocated slot bytes).charge? = some bytes from rfl),
      List.filterMap_eq_nil_iff.2 hn]
  rw [lastCharge, List.filterMap_append, hlater, List.getLast?_append]
  rfl

end Event

namespace Heap

variable {h after roomy : Heap} {x : Outcome Heap} {policy : Policy} {slots : List Nat}
  {journal events : List Event}

/-! ## Bytes and threshold after a collection -/

/-- A collection leaves no more bytes than its threshold, if bytes are worth at least themselves. -/
theorem bytes_le_threshold (hg : 1 ≤ h.policy.growthFactor) (hc : h.collect.result = .ok after) :
    after.bytes ≤ after.threshold := by
  rw [threshold_collect hc]
  calc after.bytes ≤ after.bytes * h.policy.growthFactor := Nat.le_mul_of_pos_right _ hg
    _ ≤ max (after.bytes * h.policy.growthFactor) h.policy.initialThreshold := Nat.le_max_left _ _

theorem Arises.bytes_le_threshold (ha : h.Arises false policy) (hg : 1 ≤ policy.growthFactor)
    (hc : (h.collectFrom slots).result = .ok after) : after.bytes ≤ after.threshold := by
  obtain ⟨_, -, hcollect⟩ := Outcome.of_bind_eq_ok hc
  refine Heap.bytes_le_threshold ?_ hcollect
  rw [(ha.markAll slots).policy_eq]
  exact hg

theorem due_eq_true_iff (hstress : h.policy.stress = false) :
    h.due = true ↔ h.threshold < h.bytes := by
  simp [due, hstress]

theorem due_eq_false_iff (hstress : h.policy.stress = false) :
    h.due = false ↔ h.bytes ≤ h.threshold := by
  simp [due, hstress]

/-! ## Bytes and threshold over one request -/

/-- The bytes exceed the threshold by the last allocation at most. -/
structure Paced (policy : Policy) (journal : List Event) (h : Heap) : Prop where
  arises : h.Arises false policy
  bytes_le : h.bytes ≤ h.threshold + Event.lastCharge journal
  initial_le : policy.initialThreshold ≤ h.threshold
  summaries : ∀ summary, .cycleEnded summary ∈ journal → summary.bytesAfter ≤ summary.threshold

/-- What a collection reports at its end is what it leaves. -/
theorem of_ended_mem_collectFrom (hc : (h.collectFrom slots).result = .ok after)
    {summary : CycleSummary} (hmem : .cycleEnded summary ∈ (h.collectFrom slots).events) :
    summary.bytesAfter = after.bytes ∧ summary.threshold = after.threshold := by
  obtain ⟨_, -, hcollect⟩ := Outcome.of_bind_eq_ok hc
  rcases Outcome.mem_events_bind.1 hmem with hmark | ⟨_, -, hended⟩
  · cases isMarking_marksSince _ hmark
  · rw [events_collect hcollect] at hended
    simp only [List.mem_append, List.mem_singleton, List.mem_map, reduceCtorEq, and_false,
      exists_false, false_or, or_false, Event.cycleEnded.injEq] at hended
    rcases hended with htrace | rfl
    · cases isMarking_trace _ _ htrace
    · exact ⟨rfl, rfl⟩

theorem Paced.collectFrom (hp : h.Paced policy journal) (hg : 1 ≤ policy.growthFactor)
    (hc : (h.collectFrom slots).result = .ok after) :
    after.Paced policy (journal ++ (h.collectFrom slots).events) where
  arises := hp.arises.collectFrom hc
  bytes_le := Nat.le_trans (hp.arises.bytes_le_threshold hg hc) (Nat.le_add_right _ _)
  initial_le := by
    obtain ⟨_, -, hcollect⟩ := Outcome.of_bind_eq_ok hc
    rw [threshold_collect hcollect, (hp.arises.markAll slots).policy_eq]
    exact Nat.le_max_right _ _
  summaries := by
    intro summary hmem
    rcases List.mem_append.1 hmem with hold | hnew
    · exact hp.summaries summary hold
    · obtain ⟨hbytes, hthreshold⟩ := of_ended_mem_collectFrom hc hnew
      rw [hbytes, hthreshold]
      exact hp.arises.bytes_le_threshold hg hc

/-- When room has been made the bytes are within the threshold. -/
theorem Paced.roomFrom (hp : h.Paced policy journal) (hg : 1 ≤ policy.growthFactor)
    (hstress : policy.stress = false) (hroom : (h.roomFrom slots).result = .ok roomy) :
    roomy.Paced policy (journal ++ (h.roomFrom slots).events) ∧ roomy.bytes ≤ roomy.threshold := by
  unfold Heap.roomFrom at hroom ⊢
  split
  · next hdue =>
    rw [if_pos hdue] at hroom
    exact ⟨hp.collectFrom hg hroom, hp.arises.bytes_le_threshold hg hroom⟩
  · next hdue =>
    rw [if_neg hdue] at hroom
    cases hroom
    refine ⟨?_, ?_⟩
    · rw [Outcome.events_pure, List.append_nil]
      exact hp
    · rw [← due_eq_false_iff (by rw [hp.arises.policy_eq]; exact hstress)]
      exact Bool.eq_false_iff.2 hdue

/-- An allocation adds to the bytes what it is charged, and it is the last one now. -/
theorem Paced.supplied (hp : roomy.Paced policy journal) (hroom : roomy.bytes ≤ roomy.threshold)
    (hs : roomy.Supplied events after) (ha : after.Arises false policy) :
    after.Paced policy (journal ++ events) := by
  obtain ⟨slot, bytes, growths, rfl, hbytes, haside⟩ := hs.allocated
  have hlast : Event.lastCharge (journal ++ .allocated slot bytes :: growths) = bytes :=
    Event.lastCharge_append_allocated fun e he => Event.charge?_of_isAside (haside e he)
  refine ⟨ha, ?_, ?_, ?_⟩
  · rw [hlast, hbytes, hs.threshold_eq]
    exact Nat.add_le_add_right hroom bytes
  · rw [hs.threshold_eq]
    exact hp.initial_le
  · intro summary hmem
    simp only [List.mem_append, List.mem_cons, reduceCtorEq, false_or] at hmem
    rcases hmem with hold | hgrowth
    · exact hp.summaries summary hold
    · exact absurd (haside _ hgrowth) Bool.false_ne_true

theorem Paced.supplies (hp : h.Paced policy journal) (hg : 1 ≤ policy.growthFactor)
    (hstress : policy.stress = false) (hs : h.Supplies x) (hok : x.result = .ok after)
    (ha : after.Arises false policy) : after.Paced policy (journal ++ x.events) := by
  cases hs with
  | idle hevents hidle =>
    rw [hidle after hok, hevents, List.append_nil]
    exact hp
  | cramped _ => cases hok
  | supplied hroom hsupplied =>
    cases hok
    obtain ⟨hpaced, hle⟩ := hp.roomFrom hg hstress hroom
    rw [← List.append_assoc]
    exact hpaced.supplied hle hsupplied ha

/-- **One request.** -/
theorem Paced.undergoes (hp : h.Paced policy journal) (hg : 1 ≤ policy.growthFactor)
    (hstress : policy.stress = false) (hu : h.Undergoes x) (hok : x.result = .ok after) :
    after.Paced policy (journal ++ x.events) := by
  have ha := hu.arises hp.arises hok
  induction hu generalizing journal with
  | provide hprovides =>
    have hsupplies := hprovides.supplies hp.arises.canonical hp.arises.sound
    exact hp.supplies hg hstress hsupplies hok ha
  | edit _ _ haccess =>
    cases hok
    obtain ⟨-, rfl⟩ := of_access_eq_ok haccess
    rw [Outcome.events_pure, List.append_nil]
    exact ⟨ha, hp.bytes_le, hp.initial_le, hp.summaries⟩
  | collect slots => exact hp.collectFrom hg hok
  | @remark remarks x haside _ ih =>
    -- What is remarked first is part of the journal so far.
    have hremarked : h.Paced policy (journal ++ remarks) := by
      refine ⟨hp.arises, ?_, hp.initial_le, ?_⟩
      · rw [Event.lastCharge_append fun e he => Event.charge?_of_isAside (haside e he)]
        exact hp.bytes_le
      · intro summary hmem
        rcases List.mem_append.1 hmem with hold | hnew
        · exact hp.summaries summary hold
        · exact absurd (haside _ hnew) Bool.false_ne_true
    have hevents : (do Outcome.report remarks; x).events = remarks ++ x.events := rfl
    obtain ⟨_, -, hx⟩ := Outcome.of_bind_eq_ok hok
    rw [hevents, ← List.append_assoc]
    exact ih hremarked hx

end Heap

/-! ## Every run -/

namespace Machine

variable {m : Machine} {policy : Policy} {journal : List Event}

theorem Journaled.paced (hj : Journaled policy m journal) (hg : 1 ≤ policy.growthFactor)
    (hstress : policy.stress = false) : m.heap.Paced policy journal := by
  induction hj with
  | new =>
    refine ⟨.new, Nat.zero_le _, Nat.le_refl _, ?_⟩
    intro summary hmem
    exact absurd hmem List.not_mem_nil
  | @handle m after journal request reply _ hok ih =>
    have hpaced := ih.undergoes hg hstress (undergoes_handle m request) (result_onHeap hok)
    rwa [events_onHeap] at hpaced

/-- When a machine collects, and how far its bytes get until then. -/
structure Paces (policy : Policy) (journal : List Event) (m : Machine) : Prop where
  bytes_le : m.heap.bytes ≤ m.heap.threshold + Event.lastCharge journal
  initial_le : policy.initialThreshold ≤ m.heap.threshold
  /-- No collection is due when one has ended, whatever was on the stack and in the globals. -/
  collected : ∀ (n after : Machine), n.heap = m.heap → n.collect.result = .ok after →
    after.heap.due = false
  summaries : ∀ summary, .cycleEnded summary ∈ journal → summary.bytesAfter ≤ summary.threshold
  once : ∀ request, request.allocates = true →
    (m.handle request).events.count .cycleBegan ≤ 1
  exceeded : ∀ request, request.allocates = true → .cycleBegan ∈ (m.handle request).events →
    m.heap.threshold < m.heap.bytes
  /-- A request that collects has an allocation, too, unless the threshold overflows. -/
  allocates : ∀ request, request.allocates = true → .cycleBegan ∈ (m.handle request).events →
    (m.handle request).result = .error .thresholdOverflow ∨
      ∃ slot bytes, .allocated slot bytes ∈ (m.handle request).events
  cycles_eq : ∀ request, request.allocates = true → ∀ after reply,
    (m.handle request).result = .ok (after, reply) →
      after.heap.cycles = m.heap.cycles + (m.handle request).events.count .cycleBegan

theorem not_due_collect (ha : m.heap.Arises false policy) (hg : 1 ≤ policy.growthFactor)
    (hstress : policy.stress = false) {after : Machine} (hc : m.collect.result = .ok after) :
    after.heap.due = false := by
  rw [collect_eq] at hc
  obtain ⟨heap, hheap, hc⟩ := Outcome.of_bind_eq_ok hc
  cases hc
  rw [Heap.due_eq_false_iff]
  · exact ha.bytes_le_threshold hg hheap
  · rw [(ha.collectFrom hheap).policy_eq]
    exact hstress

/-- **The pace of collections.** If the growth factor is one at least, and collections are not due all
the time, then in every run of a machine, whatever the operands of its requests are, the bytes exceed
the threshold by what the last allocation was charged at most, and the threshold does not fall below
the initial one. After a collection none is due. A request that may allocate collects once at most,
only if it does allocate, and only if the bytes exceeded the threshold when it was made. -/
theorem Journaled.paces (hj : Journaled policy m journal) (hg : 1 ≤ policy.growthFactor)
    (hstress : policy.stress = false) : m.Paces policy journal := by
  have hpaced := hj.paced hg hstress
  have ha := hpaced.arises
  refine ⟨hpaced.bytes_le, hpaced.initial_le, ?_, hpaced.summaries, ?_, ?_, ?_, ?_⟩
  · intro n after hn hc
    rw [← hn] at ha
    exact not_due_collect ha hg hstress hc
  · intro request hr
    have hsparing := sparing_handle ha hr
    have hcount := hsparing.count_le
    rwa [events_onHeap] at hcount
  · intro request hr hbegan
    rw [← events_onHeap] at hbegan
    have hdue := (sparing_handle ha hr).due hbegan
    rwa [Heap.due_eq_true_iff (by rw [ha.policy_eq]; exact hstress)] at hdue
  · intro request hr hbegan
    rw [← events_onHeap] at hbegan
    rcases (sparing_handle ha hr).allocates hbegan with hfault | ⟨slot, bytes, hmem⟩
    · exact .inl (of_result_onHeap hfault)
    · rw [events_onHeap] at hmem
      exact .inr ⟨slot, bytes, hmem⟩
  · intro request hr after reply hok
    have hcycles := (sparing_handle ha hr).cycles_eq _ (result_onHeap hok)
    rwa [events_onHeap] at hcycles

/-! ## A machine that is short of room -/

/-- A machine with one string, which is charged more than the threshold. -/
def tight : Machine :=
  { heap := ((Heap.new { initialThreshold := 64, growthFactor := 1 }).withString (.ofText "a" 0)).1 }

theorem journaled_tight : Journaled { initialThreshold := 64, growthFactor := 1 } tight
    [.allocated 0 65, .grew 0 8] := by
  have hok : ((new { initialThreshold := 64, growthFactor := 1 }).handle (.intern "a")).result =
      .ok (tight, .symbol { str := ⟨0⟩, hash := Text.hash "a" }) := by decide +kernel
  have hevents : [.allocated 0 65, .grew 0 8] = [] ++
      ((new { initialThreshold := 64, growthFactor := 1 }).handle (.intern "a")).events := by
    decide +kernel
  rw [hevents]
  exact .handle .new hok

/-- The bytes exceed the threshold by one, and to intern another text there is a collection. -/
theorem paces_tight : tight.heap.bytes = 65 ∧ tight.heap.threshold = 64 ∧
    Event.lastCharge [.allocated 0 65, .grew 0 8] = 65 ∧
    tight.heap.bytes ≤ tight.heap.threshold + Event.lastCharge [.allocated 0 65, .grew 0 8] ∧
    .cycleBegan ∈ (tight.handle (.intern "b")).events ∧
    (tight.handle (.intern "b")).events.count .cycleBegan ≤ 1 ∧
    tight.heap.threshold < tight.heap.bytes := by
  have hpaces := journaled_tight.paces (by decide) rfl
  have hbegan : .cycleBegan ∈ (tight.handle (.intern "b")).events := by decide +kernel
  exact ⟨by decide +kernel, by decide +kernel, rfl, hpaces.bytes_le, hbegan,
    hpaces.once (.intern "b") rfl, hpaces.exceeded (.intern "b") rfl hbegan⟩

end Machine

end ObjectHeap
