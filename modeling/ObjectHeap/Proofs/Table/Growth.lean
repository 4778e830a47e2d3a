import Mathlib.Logic.Function.Iterate
import ObjectHeap.Proofs.Table.Masking
import ObjectHeap.Proofs.Table.Reuse

/-!
# How far a table grows

A table grows because many of its buckets are in use, and buckets come into use by new keys alone.
It can happen at an insertion that brings no new key, and with tombstones for most of the used
buckets. But each of those was a new key once. So the buckets of a table are paid for by the new
keys that have been inserted into it, whatever has been removed since (`editAll_earns`).

The same account can be opened in the middle of a run, with the buckets that are in use by then
(`Widens`). After one growth they are too few for another one, which has to wait for new keys.
-/

set_option autoImplicit false

namespace ObjectHeap

namespace Table

variable {t s : Table} {key : Symbol} {v : Value} {gained : Nat}

/-! ## Changes, and the new keys that they bring -/

/-- A change of a table. -/
inductive Edit
  | insert (key : Symbol) (v : Value)
  | erase (key : Symbol)
  | merge (source : Table)
  | prune (keep : Symbol → Bool)

/-- How many of these entries bring a new key when they are inserted one after the other. -/
def newKeys (t : Table) : List (Symbol × Value) → Nat
  | [] => 0
  | e :: rest => (t.insert e.1 e.2).2.toNat + newKeys (t.insert e.1 e.2).1 rest

/-- Makes a change. Also answers how many new keys it has brought. -/
def edit (t : Table) : Edit → Table × Nat
  | .insert key v => ((t.insert key v).1, (t.insert key v).2.toNat)
  | .erase key => ((t.erase key).1, 0)
  | .merge source => (t.merge source, t.newKeys source.entries)
  | .prune keep => ((t.prune keep).1, 0)

/-- Makes changes one after the other. -/
def editAll (t : Table) : List Edit → Table × Nat
  | [] => (t, 0)
  | e :: rest =>
    let (t, first) := t.edit e
    let (t, later) := editAll t rest
    (t, first + later)

/-! ## The account -/

/-- From one table to another, if so many new keys have been inserted on the way. A capacity that is
neither the first one nor that of the start is paid for, by the buckets that were in use at the
start and by the new keys. -/
structure Widens (t : Table) (gained : Nat) (s : Table) : Prop where
  layout : s.Layout
  used_le : s.used ≤ t.used + gained
  le_capacity : t.capacity ≤ s.capacity
  paid : s.capacity = t.capacity ∨ s.capacity ≤ leastCapacity ∨
    3 * s.capacity ≤ 8 * (t.used + gained)

theorem Widens.refl (h : t.Layout) : Widens t 0 t :=
  ⟨h, Nat.le_refl _, Nat.le_refl _, .inl rfl⟩

/-- A growth is paid for by the buckets in use that have caused it. -/
theorem Layout.grown_le (h : t.Layout) (hover : overloaded (t.used + 1) t.capacity = true) :
    grown t.capacity ≤ leastCapacity ∨ 3 * grown t.capacity ≤ 8 * t.used := by
  simp only [overloaded, decide_eq_true_eq] at hover
  rcases h.capacity_eq with hzero | ⟨doublings, hcapacity⟩
  · rw [hzero]
    exact .inl (Nat.le_refl _)
  · -- Three quarters of a capacity are a whole number, so one key less would do as well.
    have hpos : 1 ≤ Nat.pow 2 doublings := Nat.one_le_two_pow
    unfold grown leastCapacity at *
    rw [if_neg (by omega)]
    omega

theorem capacity_insert (h : t.Layout) : (t.insert key v).1.capacity = t.reserve.capacity := by
  obtain ⟨index, old, hputs⟩ := exists_puts h key v
  exact hputs.capacity_eq

theorem Widens.insert (hw : Widens t gained s) (key : Symbol) (v : Value) :
    Widens t (gained + (s.insert key v).2.toNat) (s.insert key v).1 where
  layout := hw.layout.insert
  used_le := by
    have hinsert : (s.insert key v).1.used ≤ s.reserve.used + (s.insert key v).2.toNat :=
      used_insert_le hw.layout
    have hreserve := hw.layout.used_reserve_le
    have hused := hw.used_le
    omega
  le_capacity := by
    rw [capacity_insert hw.layout]
    by_cases hover : overloaded (s.used + 1) s.capacity = true
    · rw [reserve_of_overloaded hover, hw.layout.capacity_rebuild]
      exact Nat.le_trans hw.le_capacity (Nat.le_of_lt (lt_grown _))
    · rw [reserve_of_room hover]
      exact hw.le_capacity
  paid := by
    rw [capacity_insert hw.layout]
    by_cases hover : overloaded (s.used + 1) s.capacity = true
    · rw [reserve_of_overloaded hover, hw.layout.capacity_rebuild]
      have hused := hw.used_le
      rcases hw.layout.grown_le hover with hfirst | hpaid
      · exact .inr (.inl hfirst)
      · exact .inr (.inr (by omega))
    · rw [reserve_of_room hover]
      rcases hw.paid with hsame | hfirst | hpaid
      · exact .inl hsame
      · exact .inr (.inl hfirst)
      · exact .inr (.inr (by omega))

theorem Widens.insertAll (hw : Widens t gained s) (entries : List (Symbol × Value)) :
    Widens t (gained + s.newKeys entries)
      (entries.foldl (fun t e => (t.insert e.1 e.2).1) s) := by
  induction entries generalizing s gained with
  | nil => exact hw
  | cons e rest ih =>
    rw [newKeys, ← Nat.add_assoc]
    exact ih (hw.insert e.1 e.2)

/-- A table that has as many buckets as before, and no more of them in use, is paid for as before. -/
theorem Widens.congr (hw : Widens t gained s) {after : Table} (hl : after.Layout)
    (hused : after.used = s.used) (hcapacity : after.capacity = s.capacity) :
    Widens t gained after :=
  ⟨hl, hused ▸ hw.used_le, hcapacity ▸ hw.le_capacity, hcapacity ▸ hw.paid⟩

theorem used_erase (h : t.Layout) : (t.erase key).1.used = t.used := by
  cases hk : t.get? key with
  | none => rw [erase_of_absent hk]
  | some w => exact (h.erase_of_some hk).2.1

theorem capacity_erase (t : Table) (key : Symbol) : (t.erase key).1.capacity = t.capacity := by
  unfold Table.erase
  split
  · exact Array.size_setIfInBounds
  · rfl

/-- **One change.** Only insertions can add to the buckets in use, and each does so for a new key. -/
theorem Widens.edit (hw : Widens t gained s) (e : Edit) :
    Widens t (gained + (s.edit e).2) (s.edit e).1 := by
  cases e with
  | insert key v => exact hw.insert key v
  | erase key => exact hw.congr hw.layout.erase (used_erase hw.layout) (capacity_erase s key)
  | merge source => exact hw.insertAll source.entries
  | prune keep => exact hw.congr (hw.layout.prune keep) rfl Array.size_map

/-- **A run of changes.** -/
theorem Widens.editAll (hw : Widens t gained s) (edits : List Edit) :
    Widens t (gained + (s.editAll edits).2) (s.editAll edits).1 := by
  induction edits generalizing s gained with
  | nil => exact hw
  | cons e rest ih =>
    have hrest := ih (hw.edit e)
    rw [Nat.add_assoc] at hrest
    exact hrest

/-! ## Counting growths -/

theorem length_growthSteps_le {small large n : Nat} (h : large ≤ grown^[n] small) :
    (growthSteps small large).length ≤ n := by
  induction n generalizing small with
  | zero =>
    have hle : ¬small < large := Nat.not_lt.2 h
    rw [growthSteps, if_neg hle]
    exact Nat.le_refl 0
  | succ n ih =>
    rw [growthSteps]
    split
    · exact Nat.succ_le_succ (ih h)
    · exact Nat.zero_le _

theorem least_le_grown (capacity : Nat) : leastCapacity ≤ grown capacity := by
  unfold grown
  split <;> omega

theorem mul_succ_le_iterate_grown {capacity : Nat} (h : leastCapacity ≤ capacity) (n : Nat) :
    capacity * (n + 1) ≤ grown^[n] capacity := by
  induction n generalizing capacity with
  | zero => exact Nat.le_of_eq (Nat.mul_one _)
  | succ n ih =>
    have hdouble : grown capacity = capacity * 2 := if_neg (Nat.not_lt.2 h)
    calc capacity * (n + 1 + 1) ≤ capacity * 2 * (n + 1) := by
          rw [Nat.mul_assoc]
          exact Nat.mul_le_mul_left _ (by omega)
      _ ≤ grown^[n] (grown capacity) := by
          rw [← hdouble]
          exact ih (least_le_grown _)

/-- A table has grown once more at most than new keys have been inserted. -/
theorem Widens.length_growthSteps_le (hw : Widens t gained s) (ht : t.Layout) :
    (growthSteps t.capacity s.capacity).length ≤ gained + 1 := by
  refine Table.length_growthSteps_le ?_
  have hiterate := mul_succ_le_iterate_grown (least_le_grown t.capacity) gained
  refine Nat.le_trans ?_ hiterate
  have hleast := least_le_grown t.capacity
  have hlt := lt_grown t.capacity
  have hone : grown t.capacity ≤ grown t.capacity * (gained + 1) :=
    Nat.le_mul_of_pos_right _ (Nat.succ_pos gained)
  rcases hw.paid with hsame | hfirst | hpaid
  · omega
  · omega
  · -- The buckets in use at the start pay for one growth, and every new key for eight buckets.
    have hkeys : leastCapacity * gained ≤ grown t.capacity * gained := Nat.mul_le_mul_right _ hleast
    have hstart : 8 * t.used ≤ 3 * grown t.capacity := by
      have hload := ht.load
      rcases ht.capacity_cases with hzero | ⟨height, -⟩
      · omega
      · have hdouble : grown t.capacity = t.capacity * 2 := if_neg (Nat.not_lt.2 height)
        omega
    rw [Nat.mul_succ]
    unfold leastCapacity at hkeys
    omega

/-! ## Every run -/

/-- The capacity of a table is earned by the new keys that it has got so far, and that of a later
table by those that it gets. -/
structure Earns (t : Table) (gained : Nat) : Prop where
  capacity_le : t.capacity ≤ 8 ∨ 3 * t.capacity ≤ 8 * gained
  used_le : t.used ≤ gained
  /-- No change takes buckets away. -/
  le_capacity : ∀ e, t.capacity ≤ (t.edit e).1.capacity
  /-- Without new keys the table grows at most once, and for every further growth it needs one. -/
  growths_le : ∀ more, (growthSteps t.capacity (t.editAll more).1.capacity).length ≤
    (t.editAll more).2 + 1

/-- **The capacity of a table is bounded by the new keys that have been inserted into it**, however
many changes of whatever kind have been made. -/
theorem editAll_earns (edits : List Edit) :
    Earns ((∅ : Table).editAll edits).1 ((∅ : Table).editAll edits).2 := by
  have hw : Widens ∅ ((∅ : Table).editAll edits).2 ((∅ : Table).editAll edits).1 := by
    have hrun := (Widens.refl .empty).editAll edits
    rwa [Nat.zero_add] at hrun
  have hself := Widens.refl hw.layout
  refine ⟨?_, ?_, fun e => (hself.edit e).le_capacity, fun more => ?_⟩
  · have hused : (∅ : Table).used = 0 := rfl
    rcases hw.paid with hsame | hfirst | hpaid
    · exact .inl (hsame ▸ Nat.zero_le _)
    · exact .inl hfirst
    · rw [hused, Nat.zero_add] at hpaid
      exact .inr hpaid
  · have hused := hw.used_le
    rwa [show (∅ : Table).used = 0 from rfl, Nat.zero_add] at hused
  · have hrun := (hself.editAll more).length_growthSteps_le hw.layout
    rwa [Nat.zero_add] at hrun

end Table

end ObjectHeap
