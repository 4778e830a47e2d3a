import ObjectHeap.Fault
import ObjectHeap.Journal

/-!
# Outcomes

An operation that reports events and may end in a fault has an `Outcome`: the events up to its end,
in order, and then a result or the fault. The events are kept in both cases.

`Outcome.result` forgets the events. It turns each way of building an outcome into the same way of
building an `Except` (the `result_` lemmas), so a statement about states never has to mention the
journal. `Outcome.events` is described likewise.
-/

set_option autoImplicit false

namespace ObjectHeap

structure Outcome (α : Type) where
  events : List Event
  result : Except Fault α

namespace Outcome

variable {α β : Type}

@[ext]
theorem ext {x y : Outcome α} (he : x.events = y.events) (hr : x.result = y.result) : x = y := by
  cases x
  cases y
  simp_all

/-- Runs the second operation on the result of the first, unless that ended in a fault. -/
def andThen (x : Outcome α) (f : α → Outcome β) : Outcome β :=
  match x.result with
  | .ok a => ⟨x.events ++ (f a).events, (f a).result⟩
  | .error e => ⟨x.events, .error e⟩

instance : Monad Outcome where
  pure a := ⟨[], .ok a⟩
  bind := andThen

/-- An operation without events. -/
def ofExcept (x : Except Fault α) : Outcome α := ⟨[], x⟩

instance : MonadLift (Except Fault) Outcome := ⟨ofExcept⟩

/-- Ends in a fault. -/
def fail (e : Fault) : Outcome α := ⟨[], .error e⟩

/-- Reports events. -/
def report (events : List Event) : Outcome Unit := ⟨events, .ok ()⟩

/-- The slots that an operation releases, in order. -/
def releases (x : Outcome α) : List Nat := x.events.filterMap Event.released?

/-! ## What the operations do to results and events -/

@[simp] theorem result_pure (a : α) : (pure a : Outcome α).result = .ok a := rfl

@[simp] theorem events_pure (a : α) : (pure a : Outcome α).events = [] := rfl

@[simp] theorem result_ofExcept (x : Except Fault α) : (ofExcept x).result = x := rfl

@[simp] theorem events_ofExcept (x : Except Fault α) : (ofExcept x).events = [] := rfl

@[simp] theorem result_liftM (x : Except Fault α) : (liftM x : Outcome α).result = x := rfl

@[simp] theorem events_liftM (x : Except Fault α) : (liftM x : Outcome α).events = [] := rfl

@[simp] theorem result_fail (e : Fault) : (fail e : Outcome α).result = .error e := rfl

@[simp] theorem events_fail (e : Fault) : (fail e : Outcome α).events = [] := rfl

@[simp] theorem result_report (events : List Event) : (report events).result = .ok () := rfl

@[simp] theorem events_report (events : List Event) : (report events).events = events := rfl

@[simp] theorem result_bind (x : Outcome α) (f : α → Outcome β) :
    (x >>= f).result = x.result >>= fun a => (f a).result := by
  show (andThen x f).result = _
  unfold andThen
  cases x.result <;> rfl

/-- An operation that ends well has done so in all its parts. -/
theorem of_bind_eq_ok {x : Outcome α} {f : α → Outcome β} {b : β}
    (hok : (x >>= f).result = .ok b) : ∃ a, x.result = .ok a ∧ (f a).result = .ok b := by
  rw [result_bind] at hok
  cases hx : x.result with
  | error fault => rw [hx] at hok; cases hok
  | ok a => rw [hx] at hok; exact ⟨a, rfl, hok⟩

theorem events_bind (x : Outcome α) (f : α → Outcome β) :
    (x >>= f).events = x.events ++ match x.result with
      | .ok a => (f a).events
      | .error _ => [] := by
  show (andThen x f).events = _
  unfold andThen
  cases x.result <;> simp

theorem mem_events_bind {x : Outcome α} {f : α → Outcome β} {e : Event} :
    e ∈ (x >>= f).events ↔ e ∈ x.events ∨ ∃ a, x.result = .ok a ∧ e ∈ (f a).events := by
  rw [events_bind, List.mem_append]
  cases x.result <;> simp

theorem mem_releases {x : Outcome α} {slot : Nat} :
    slot ∈ x.releases ↔ .freed slot ∈ x.events := by
  simp only [releases, List.mem_filterMap]
  constructor
  · rintro ⟨e, he, heq⟩
    cases e <;> cases heq
    exact he
  · exact fun he => ⟨_, he, rfl⟩

theorem mem_releases_bind {x : Outcome α} {f : α → Outcome β} {slot : Nat} :
    slot ∈ (x >>= f).releases ↔
      slot ∈ x.releases ∨ ∃ a, x.result = .ok a ∧ slot ∈ (f a).releases := by
  simp only [mem_releases, mem_events_bind]

/-- Changing what an operation answers changes nothing about what it releases. -/
theorem releases_bind_pure (x : Outcome α) (f : α → β) :
    (x >>= fun a => pure (f a)).releases = x.releases := by
  unfold releases
  rw [events_bind]
  cases x.result <;> simp

theorem bind_of_ok {x : Except Fault α} {a : α} (hx : x = .ok a) (f : α → Outcome β) :
    (liftM x >>= f) = f a := by
  rw [hx]
  refine ext ?_ (result_bind _ _)
  rw [events_bind, events_liftM]
  rfl

theorem bind_of_error {x : Except Fault α} {f : Fault} (hx : x = .error f) (g : α → Outcome β) :
    (liftM x >>= g) = .fail f := by
  rw [hx]
  rfl

theorem bind_eq_of_error {x : Outcome α} {f : Fault} (hx : x.result = .error f)
    (g : α → Outcome β) : x >>= g = ⟨x.events, .error f⟩ := by
  apply ext
  · rw [events_bind, hx]
    exact List.append_nil _
  · rw [result_bind, hx]
    rfl

theorem bind_eq_of_ok {x : Outcome α} {a : α} (hx : x.result = .ok a) (g : α → Outcome β) :
    x >>= g = ⟨x.events ++ (g a).events, (g a).result⟩ := by
  apply ext
  · rw [events_bind, hx]
  · rw [result_bind, hx]
    rfl

instance : LawfulMonad Outcome := .mk' Outcome
  (fun x => by rcases x with ⟨es, _ | a⟩ <;> simp [Functor.map, andThen])
  (fun a f => by simp [bind, andThen, pure])
  (fun x f g => by
    rcases x with ⟨es, _ | a⟩
    · rfl
    · rcases hf : f a with ⟨fs, _ | b⟩ <;> simp [bind, andThen, hf])

end Outcome

end ObjectHeap
