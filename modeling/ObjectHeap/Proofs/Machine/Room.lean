import ObjectHeap.Proofs.Heap.Overflow
import ObjectHeap.Proofs.Heap.WeakTable
import ObjectHeap.Proofs.Machine.Effects

/-!
# Room for an allocation

A request that allocates asks first whether a collection is due, and collects if it is. So it collects
once at most, and not for nothing (`Supplies.sparing`).

Interning needs an argument for this, because the symbol of the text is looked for twice, before the
collection and after it. What was not interned before is not interned after, so here, too, a
collection is followed by an allocation (`Canonical.find?_roomFrom`).
-/

set_option autoImplicit false

namespace ObjectHeap

namespace Event

variable {journal : List Event}

/-- Events of a kind that a beginning is not of have no beginning among them. -/
theorem count_began_eq_zero {kind : Event → Bool} (hk : kind .cycleBegan = false)
    (hall : ∀ e ∈ journal, kind e = true) : journal.count .cycleBegan = 0 := by
  rw [List.count_eq_zero]
  intro hmem
  have hbegan := hall _ hmem
  rw [hk] at hbegan
  exact Bool.false_ne_true hbegan

end Event

namespace Heap

variable {h after roomy : Heap} {x : Outcome Heap} {policy : Policy} {slots : List Nat}
  {events : List Event}

/-! ## Room for one object -/

/-- An object has been put into a slot, and nothing else has been done but to enter it in a table. -/
structure Supplied (roomy : Heap) (events : List Event) (after : Heap) : Prop where
  threshold_eq : after.threshold = roomy.threshold
  cycles_eq : after.cycles = roomy.cycles
  allocated : ∃ slot bytes growths, events = .allocated slot bytes :: growths ∧
    after.bytes = roomy.bytes + bytes ∧ ∀ e ∈ growths, e.isAside = true

/-- What becomes of a request that allocates, if interning is canonical: it does nothing, or room
cannot be made, or room is made and then there is an allocation. -/
inductive Supplies (h : Heap) : Outcome Heap → Prop
  | idle {x : Outcome Heap} : x.events = [] → (∀ after, x.result = .ok after → after = h) →
    Supplies h x
  | cramped {slots : List Nat} {f : Fault} : (h.roomFrom slots).result = .error f →
    Supplies h ⟨(h.roomFrom slots).events, .error f⟩
  | supplied {slots : List Nat} {roomy after : Heap} {events : List Event} :
    (h.roomFrom slots).result = .ok roomy → roomy.Supplied events after →
    Supplies h ⟨(h.roomFrom slots).events ++ events, .ok after⟩

theorem supplied_allocate (roomy : Heap) (k : Kind) (p : k.Payload) :
    roomy.Supplied (roomy.allocate k p).events (roomy.place (.of k p)).1 where
  threshold_eq := (place_schedule roomy _).2.1
  cycles_eq := (place_schedule roomy _).2.2
  allocated := ⟨_, _, [], rfl, bytes_place roomy _, fun _ he => absurd he List.not_mem_nil⟩

theorem events_addString (h : Heap) (s : Str) : (h.addString s).events =
    .allocated (h.place (.str s)).2 (chargeOf (.str s)) ::
      Event.growths (h.place (.str s)).1.strings (h.withString s).1.strings := by
  have hevents : (h.addString s).events =
      [.allocated (h.place (.str s)).2 (chargeOf (.str s))] ++
        (Event.growths (h.place (.str s)).1.strings (h.withString s).1.strings ++ []) := rfl
  rw [hevents, List.append_nil]
  rfl

theorem supplied_addString (roomy : Heap) (s : Str) :
    roomy.Supplied (roomy.addString s).events (roomy.withString s).1 where
  threshold_eq := (place_schedule roomy _).2.1
  cycles_eq := (place_schedule roomy _).2.2
  allocated :=
    ⟨_, _, _, events_addString roomy s, bytes_place roomy _, Event.isAside_of_mem_growths⟩

/-- To make room for an object and to put it there. -/
theorem Supplies.of_room {put : Heap → Outcome Heap} (hput : ∀ roomy,
    (h.roomFrom slots).result = .ok roomy →
      ∃ events after, put roomy = ⟨events, .ok after⟩ ∧ roomy.Supplied events after) :
    h.Supplies (h.roomFrom slots >>= put) := by
  cases hroom : (h.roomFrom slots).result with
  | error f =>
    rw [Outcome.bind_eq_of_error hroom]
    exact .cramped hroom
  | ok roomy =>
    obtain ⟨events, after, heq, hsupplied⟩ := hput roomy hroom
    rw [Outcome.bind_eq_of_ok hroom, heq]
    exact .supplied hroom hsupplied

/-- A text that is not interned is not interned after a collection. -/
theorem Canonical.find?_collect_none (hc : h.Canonical) (hs : h.Sound)
    (hcollect : h.collect.result = .ok after) {text : String} (hnone : h.find? text = .ok none) :
    after.find? text = .ok none := by
  obtain ⟨before, found, hbefore, hfound, hiff⟩ := hc.find?_collect hs hcollect text
  rw [hnone] at hbefore
  cases hbefore
  cases found with
  | none => exact hfound
  | some key => cases ((hiff key).1 rfl).1

theorem Canonical.find?_markAll (hc : h.Canonical) (hs : h.Sound) (slots : List Nat)
    (text : String) : (h.markAll slots).find? text = h.find? text := by
  have hpaint := repainted_markAll h slots
  apply hc.find?_congr hs (hc.markAll slots) (hs.mark slots)
  intro key
  simp only [Interned, Spells, hpaint.strings_eq, hpaint.object?_eq]

theorem Canonical.find?_roomFrom (hc : h.Canonical) (hs : h.Sound)
    (hroom : (h.roomFrom slots).result = .ok roomy) {text : String}
    (hnone : h.find? text = .ok none) : roomy.find? text = .ok none := by
  unfold roomFrom at hroom
  split at hroom
  · obtain ⟨_, -, hcollect⟩ := Outcome.of_bind_eq_ok hroom
    apply (hc.markAll slots).find?_collect_none (hs.mark slots) hcollect
    rw [hc.find?_markAll hs]
    exact hnone
  · cases hroom
    exact hnone

theorem intern_of_find?_none {text : String} (hnone : h.find? text = .ok none) :
    h.intern text = h.addString (.ofText text 0) := by
  rw [intern, internReserving, hnone]
  rfl

theorem Provides.supplies (hp : h.Provides x) (hc : h.Canonical) (hs : h.Sound) :
    h.Supplies x := by
  cases hp with
  | found =>
    apply Supplies.idle rfl
    rintro after ⟨⟩
    rfl
  | fault f =>
    apply Supplies.idle rfl
    rintro after ⟨⟩
  | @object slots k p _ =>
    apply Supplies.of_room
    intro roomy _
    exact ⟨_, _, rfl, supplied_allocate roomy k p⟩
  | @string slots text hnone =>
    apply Supplies.of_room
    intro roomy hroom
    rw [intern_of_find?_none (hc.find?_roomFrom hs hroom hnone)]
    refine ⟨_, _, ?_, supplied_addString roomy (.ofText text 0)⟩
    apply Outcome.ext
    · exact List.append_nil _
    · rfl

/-! ## One collection at most -/

theorem count_began_freed (slots : List Nat) : (slots.map Event.freed).count .cycleBegan = 0 := by
  rw [List.count_eq_zero]
  simp

/-- The journal of a collection has one beginning, however the collection ends. -/
theorem count_began_collect (h : Heap) : h.collect.events.count .cycleBegan = 1 := by
  have htrace : h.trace.2.count .cycleBegan = 0 :=
    Event.count_began_eq_zero rfl (isMarking_trace h)
  cases hc : h.collect.result with
  | ok after =>
    rw [events_collect hc]
    simp [htrace, count_began_freed]
  | error f =>
    rw [events_collect_of_error hc]
    simp [htrace, count_began_freed]

theorem count_began_collectFrom (h : Heap) (slots : List Nat) :
    (h.collectFrom slots).events.count .cycleBegan = 1 := by
  have hmarks : (marksSince h (h.markAll slots)).count .cycleBegan = 0 :=
    Event.count_began_eq_zero rfl isMarking_marksSince
  have hevents : (h.collectFrom slots).events =
      marksSince h (h.markAll slots) ++ (h.markAll slots).collect.events := rfl
  rw [hevents, List.count_append, hmarks, count_began_collect]

/-- There is one collection at most. It is due, and it makes room for an allocation. -/
structure Sparing (h : Heap) (x : Outcome Heap) : Prop where
  count_le : x.events.count .cycleBegan ≤ 1
  due : .cycleBegan ∈ x.events → h.due = true
  allocates : .cycleBegan ∈ x.events → x.result = .error .thresholdOverflow ∨
    ∃ slot bytes, .allocated slot bytes ∈ x.events
  cycles_eq : ∀ after, x.result = .ok after →
    after.cycles = h.cycles + x.events.count .cycleBegan

theorem count_began_roomFrom (h : Heap) (slots : List Nat) :
    (h.roomFrom slots).events.count .cycleBegan = if h.due then 1 else 0 := by
  unfold roomFrom
  split
  · exact count_began_collectFrom h slots
  · rfl

theorem count_began_roomFrom_le (h : Heap) (slots : List Nat) :
    (h.roomFrom slots).events.count .cycleBegan ≤ 1 := by
  rw [count_began_roomFrom]
  split
  · exact Nat.le_refl 1
  · exact Nat.zero_le 1

theorem due_of_began (hbegan : .cycleBegan ∈ (h.roomFrom slots).events) : h.due = true := by
  by_contra hidle
  rw [roomFrom, if_neg hidle] at hbegan
  exact List.not_mem_nil hbegan

theorem cycles_collectFrom (hc : (h.collectFrom slots).result = .ok after) :
    after.cycles = h.cycles + 1 := by
  obtain ⟨_, -, hcollect⟩ := Outcome.of_bind_eq_ok hc
  obtain ⟨threshold, -, rfl⟩ := of_collect_eq_ok hcollect
  rw [swept_cycles, (repainted_markAll h slots).cycles_eq]

theorem cycles_roomFrom (hroom : (h.roomFrom slots).result = .ok roomy) :
    roomy.cycles = h.cycles + (h.roomFrom slots).events.count .cycleBegan := by
  rw [count_began_roomFrom]
  unfold roomFrom at hroom
  split at hroom
  · next hdue =>
    rw [if_pos hdue]
    exact cycles_collectFrom hroom
  · next hdue =>
    rw [if_neg hdue]
    cases hroom
    rfl

theorem eq_thresholdOverflow_of_roomFrom {f : Fault}
    (hroom : (h.roomFrom slots).result = .error f) : f = .thresholdOverflow := by
  unfold roomFrom at hroom
  split at hroom
  · exact of_collect_eq_error hroom
  · cases hroom

theorem Supplied.count_began (hs : roomy.Supplied events after) :
    events.count .cycleBegan = 0 := by
  obtain ⟨slot, bytes, growths, rfl, -, haside⟩ := hs.allocated
  have hgrowths : growths.count .cycleBegan = 0 := Event.count_began_eq_zero rfl haside
  simp [hgrowths]

theorem Supplied.sparing (hs : roomy.Supplied events after)
    (hroom : (h.roomFrom slots).result = .ok roomy) :
    h.Sparing ⟨(h.roomFrom slots).events ++ events, .ok after⟩ := by
  have hcount : ((h.roomFrom slots).events ++ events).count .cycleBegan =
      (h.roomFrom slots).events.count .cycleBegan := by
    rw [List.count_append, hs.count_began, Nat.add_zero]
  refine ⟨?_, ?_, ?_, ?_⟩
  · rw [hcount]
    exact count_began_roomFrom_le h slots
  · intro hbegan
    rw [← List.count_pos_iff, hcount, List.count_pos_iff] at hbegan
    exact due_of_began hbegan
  · intro _
    obtain ⟨slot, bytes, growths, rfl, -, -⟩ := hs.allocated
    exact .inr ⟨slot, bytes, List.mem_append_right _ List.mem_cons_self⟩
  · rintro _ ⟨⟩
    rw [hcount, hs.cycles_eq]
    exact cycles_roomFrom hroom

/-- **One request that allocates.** -/
theorem Supplies.sparing (hs : h.Supplies x) : h.Sparing x := by
  cases hs with
  | idle hevents hidle =>
    have hnot : .cycleBegan ∉ x.events := by
      rw [hevents]
      exact List.not_mem_nil
    have hnone : x.events.count .cycleBegan = 0 := List.count_eq_zero.2 hnot
    refine ⟨?_, fun hbegan => absurd hbegan hnot, fun hbegan => absurd hbegan hnot, ?_⟩
    · rw [hnone]
      exact Nat.zero_le 1
    · intro after hok
      rw [hidle after hok, hnone]
      rfl
  | @cramped slots f hroom =>
    obtain rfl := eq_thresholdOverflow_of_roomFrom hroom
    exact ⟨count_began_roomFrom_le h slots, due_of_began, fun _ => .inl rfl, nofun⟩
  | supplied hroom hsupplied => exact hsupplied.sparing hroom

end Heap

namespace Machine

variable {m : Machine} {policy : Policy}

/-- A request that allocates is sparing with collections. -/
theorem sparing_handle (ha : m.heap.Arises false policy) {request : Request}
    (hr : request.allocates = true) : m.heap.Sparing (onHeap (m.handle request)) :=
  ((provides_handle m hr).supplies ha.canonical ha.sound).sparing

end Machine

end ObjectHeap
