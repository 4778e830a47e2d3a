import ObjectHeap.Proofs.Machine.Effects

/-!
# Histories of a machine

A machine reports what its heap reports, and something about its tables in between. So its journal
tells which slots of its heap are occupied, like that of a heap (`Journaled.isSome_cell?`). This
holds for all requests that are answered, with valid operands or not.

The runs with their journals are defined request by request (`Journaled`), and they are what a
machine makes of lists of requests (`journaled_iff_run`).
-/

set_option autoImplicit false

namespace ObjectHeap

namespace Heap

variable {h : Heap} {x : Outcome Heap}

/-! ## Effects -/

theorem Sound.recounted_collectFrom (hs : h.Sound) (slots : List Nat) :
    h.Recounted (h.collectFrom slots) id := by
  refine .bind (.report hs fun _ => verdict?_marksSince) ?_
  intro _ _ _
  exact (hs.mark slots).recounted_collect.congr (repainted_markAll h slots).isSome_cell?

theorem Sound.recounted_roomFrom (hs : h.Sound) (slots : List Nat) :
    h.Recounted (h.roomFrom slots) id := by
  unfold roomFrom
  split
  · exact hs.recounted_collectFrom slots
  · exact .pure hs rfl

theorem Provides.recounted (hp : h.Provides x) (hs : h.Sound) : h.Recounted x id := by
  cases hp with
  | found => exact .pure hs rfl
  | fault f => nofun
  | object slots hb =>
    refine .bind (hs.recounted_roomFrom slots) ?_
    intro roomy _ hroomy
    refine .bind (hroomy.recounted_allocate hb) ?_
    intro placed _ hplaced
    exact .pure hplaced rfl
  | @string slots text _ =>
    refine .bind (hs.recounted_roomFrom slots) ?_
    intro roomy _ hroomy
    refine .bind (hroomy.recounted_internReserving text 0) ?_
    intro interned _ hinterned
    exact .pure hinterned rfl

/-- The journal of an effect tells what it did to the slots. -/
theorem Undergoes.recounted (hu : h.Undergoes x) (hs : h.Sound) : h.Recounted x id := by
  induction hu with
  | provide hp => exact hp.recounted hs
  | edit _ hb ha =>
    obtain ⟨-, rfl⟩ := of_access_eq_ok ha
    exact hs.recounted_replace (hb hs) rfl
  | collect slots => exact hs.recounted_collectFrom slots
  | remark haside _ ih =>
    refine .bind (.report hs ?_) fun _ _ _ => ih
    exact fun slot e he => Event.verdict?_of_isAside (haside e he) slot

end Heap

namespace Machine

variable {m after : Machine}

/-- The journal of a request tells what it did to the slots. -/
theorem recounted_handle (hs : m.heap.Sound) (request : Request) :
    m.heap.Recounted (m.handle request) fun a => a.1.heap := by
  intro a ha
  have heffect := (undergoes_handle m request).recounted hs a.1.heap (result_onHeap ha)
  rwa [events_onHeap] at heffect

/-! ## Runs -/

/-- The runs of a machine, with their journals. The operands of the requests may be anything. -/
inductive Journaled (policy : Policy) : Machine → List Event → Prop
  | new : Journaled policy (.new policy) []
  | handle {m after : Machine} {journal : List Event} {request : Request} {reply : Reply} :
    Journaled policy m journal → (m.handle request).result = .ok (after, reply) →
    Journaled policy after (journal ++ (m.handle request).events)

variable {policy : Policy} {journal : List Event}

/-- From any point on, the requests that are answered prolong the journal by what they report. -/
theorem Journaled.run {requests : List Request} {replies : List Reply}
    (hj : Journaled policy m journal) (hok : (m.run requests).result = .ok (after, replies)) :
    Journaled policy after (journal ++ (m.run requests).events) := by
  induction requests generalizing m journal replies with
  | nil =>
    cases hok
    rw [Machine.run, Outcome.events_pure, List.append_nil]
    exact hj
  | cons request rest ih =>
    obtain ⟨⟨next, reply⟩, hnext, hrest⟩ := Outcome.of_bind_eq_ok hok
    obtain ⟨⟨last, later⟩, hlast, hpure⟩ := Outcome.of_bind_eq_ok hrest
    cases hpure
    have hevents : (m.run (request :: rest)).events =
        (m.handle request).events ++ (next.run rest).events := by
      rw [Machine.run, Outcome.bind_eq_of_ok hnext]
      dsimp only
      rw [Outcome.bind_eq_of_ok hlast, Outcome.events_pure, List.append_nil]
    rw [hevents, ← List.append_assoc]
    exact ih (hj.handle hnext) hlast

theorem run_append (m : Machine) (requests more : List Request) :
    m.run (requests ++ more) = do
      let (m, replies) ← m.run requests
      let (m, later) ← m.run more
      return (m, replies ++ later) := by
  induction requests generalizing m with
  | nil =>
    simp only [List.nil_append, Machine.run, pure_bind]
    exact (bind_pure _).symm
  | cons request rest ih =>
    simp only [List.cons_append, Machine.run, bind_assoc, pure_bind, ih]

theorem run_singleton {request : Request} {reply : Reply}
    (hok : (m.handle request).result = .ok (after, reply)) :
    m.run [request] = ⟨(m.handle request).events, .ok (after, [reply])⟩ := by
  rw [Machine.run, Outcome.bind_eq_of_ok hok]
  simp only [Machine.run, pure_bind, Outcome.events_pure, Outcome.result_pure, List.append_nil]

/-- **The runs of a machine** are what it makes of lists of requests, as long as all of them are
answered. -/
theorem journaled_iff_run : Journaled policy m journal ↔
    ∃ requests replies, (new policy).run requests = ⟨journal, .ok (m, replies)⟩ := by
  constructor
  · intro hj
    induction hj with
    | new => exact ⟨[], [], rfl⟩
    | @handle m after journal request reply _ hok ih =>
      obtain ⟨requests, replies, hrun⟩ := ih
      refine ⟨requests ++ [request], replies ++ [reply], ?_⟩
      rw [run_append, hrun, Outcome.bind_eq_of_ok rfl]
      dsimp only
      rw [run_singleton hok, Outcome.bind_eq_of_ok rfl]
      simp only [Outcome.events_pure, Outcome.result_pure, List.append_nil]
  · rintro ⟨requests, replies, hrun⟩
    have hj : Journaled policy m ([] ++ ((new policy).run requests).events) :=
      Journaled.new.run (by rw [hrun])
    rwa [hrun] at hj

theorem Journaled.sound (hj : Journaled policy m journal) : m.heap.Sound := by
  induction hj with
  | new => exact Heap.sound_new policy
  | handle _ hok ih => exact (recounted_handle ih _ _ hok).1

/-- The journal of a machine tells the occupied slots of its heap. -/
theorem Journaled.isSome_cell? (hj : Journaled policy m journal) (slot : Nat) :
    (m.heap.cell? slot).isSome = (Event.latest? slot journal).getD false := by
  induction hj with
  | new =>
    rw [Machine.new, Heap.cell?_of_size_le (Nat.zero_le slot)]
    rfl
  | handle hprev hok ih =>
    have hslots := (recounted_handle hprev.sound _ _ hok).2 slot
    rw [hslots, ih, Event.latest?_append, Option.getD_or]

end Machine

end ObjectHeap
