import ObjectHeap.Proofs.Machine.Closure

/-!
# Refused assignments

An assignment finds out that a global is not defined by defining it, and then removes it again. What
can be looked up is the same afterwards, but to remove a key is not to undo its insertion. The
insertion makes room before it looks for a place, and the removal leaves a tombstone.

So the table is what it was only if it had room, and if the search for the name came past a tombstone
that could be used and is put back (`Retracted.eq_iff`). Otherwise a bucket is used up that was empty
before, or the table has grown.
-/

set_option autoImplicit false

namespace ObjectHeap

namespace Table

variable {t after : Table} {key : Symbol} {value : Value}

/-- What is left of a table when a key that it did not have is bound and removed again. -/
inductive Retracted (t : Table) (key : Symbol) : Table → Prop
  /-- The key took the place of a tombstone, which is there again. -/
  | restored {index : Nat} : overloaded (t.used + 1) t.capacity = false →
    locate? t.buckets key = some (.reusable index) → Retracted t key t
  /-- The key took an empty bucket, which has become a tombstone. -/
  | buried {index : Nat} : overloaded (t.used + 1) t.capacity = false →
    locate? t.buckets key = some (.vacant index) → Retracted t key
      { t with buckets := t.buckets.setIfInBounds index .tombstone, used := t.used + 1 }
  /-- The table has grown, and then the key took an empty bucket. -/
  | rebuilt {index : Nat} : overloaded (t.used + 1) t.capacity = true →
    locate? (t.rebuild (grown t.capacity)).buckets key = some (.vacant index) → Retracted t key
      { t.rebuild (grown t.capacity) with
        buckets := (t.rebuild (grown t.capacity)).buckets.setIfInBounds index .tombstone
        used := t.size + 1 }

/-- Where a new key is put it is found again, so the removal writes over the same bucket. -/
theorem erase_insert (h : t.Layout) {index : Nat} (hlt : index < t.reserve.buckets.size)
    (hbuckets : (t.insert key value).1.buckets =
      t.reserve.buckets.setIfInBounds index (.entry key value)) :
    ((t.insert key value).1.erase key).1 = { (t.insert key value).1 with
      buckets := t.reserve.buckets.setIfInBounds index .tombstone
      size := (t.insert key value).1.size - 1 } := by
  have hentry : (t.insert key value).1.buckets[index]? = some (.entry key value) := by
    rw [hbuckets, Array.getElem?_setIfInBounds_self_of_lt hlt]
  rw [erase_of_entry h.insert hentry, hbuckets, Array.setIfInBounds_setIfInBounds]

theorem erase_insert_of_reusable (h : t.Layout) {index : Nat}
    (hplace : locate? t.reserve.buckets key = some (.reusable index))
    (hold : t.reserve.buckets[index]? = some .tombstone) :
    ((t.insert key value).1.erase key).1 = t.reserve := by
  have hinsert : (t.insert key value).1 = { t.reserve with
      buckets := t.reserve.buckets.setIfInBounds index (.entry key value)
      size := t.reserve.size + 1 } := by
    simp only [insert, hplace]
  obtain ⟨hlt, htomb⟩ := Array.getElem?_eq_some_iff.1 hold
  have hsame : t.reserve.buckets.setIfInBounds index .tombstone = t.reserve.buckets := by
    rw [Array.setIfInBounds_def, dif_pos hlt, ← htomb, Array.set_getElem_self]
  rw [erase_insert h hlt (by rw [hinsert]), hinsert, hsame, Nat.add_sub_cancel]

theorem erase_insert_of_vacant (h : t.Layout) {index : Nat}
    (hplace : locate? t.reserve.buckets key = some (.vacant index))
    (hold : t.reserve.buckets[index]? = some .empty) :
    ((t.insert key value).1.erase key).1 = { t.reserve with
      buckets := t.reserve.buckets.setIfInBounds index .tombstone
      used := t.reserve.used + 1 } := by
  have hinsert : (t.insert key value).1 = {
      buckets := t.reserve.buckets.setIfInBounds index (.entry key value)
      used := t.reserve.used + 1
      size := t.reserve.size + 1 } := by
    simp only [insert, hplace]
  obtain ⟨hlt, -⟩ := Array.getElem?_eq_some_iff.1 hold
  rw [erase_insert h hlt (by rw [hinsert]), hinsert, Nat.add_sub_cancel]

/-- What is left of a table that has room. -/
theorem Layout.retracted_of_room (h : t.Layout) (hk : t.get? key = none)
    (hroom : overloaded (t.used + 1) t.capacity = false) :
    t.Retracted key ((t.insert key value).1.erase key).1 := by
  have hreserve : t.reserve = t := by rw [Table.reserve, hroom]; rfl
  obtain ⟨i, hi⟩ := h.exists_empty (by
    have := h.room_reserve
    rw [hreserve] at this
    omega)
  obtain ⟨place, hplace, hanswers⟩ := exists_locate? key hi
  cases hanswers with
  | held hj => rw [get?, hplace] at hk; cases hk
  | @reusable index hold =>
    rw [erase_insert_of_reusable h (by rw [hreserve]; exact hplace) (by rw [hreserve]; exact hold),
      hreserve]
    exact .restored hroom hplace
  | @vacant index hold =>
    rw [erase_insert_of_vacant h (by rw [hreserve]; exact hplace) (by rw [hreserve]; exact hold),
      hreserve]
    exact .buried hroom hplace

/-- A table that has to grow loses its tombstones, so there is none that could be used. -/
theorem Layout.retracted_of_overload (h : t.Layout) (hk : t.get? key = none)
    (hover : overloaded (t.used + 1) t.capacity = true) :
    t.Retracted key ((t.insert key value).1.erase key).1 := by
  have hreserve : t.reserve = t.rebuild (grown t.capacity) := by rw [Table.reserve, hover]; rfl
  have hused : t.reserve.used = t.size := by rw [hreserve]; exact h.length_entries
  obtain ⟨index, hplace, hold, -⟩ := h.settled_grown.exists_vacant
    (by have := h.room_grown; omega) ((get?_eq_none_iff h).1 hk)
  rw [erase_insert_of_vacant h (by rw [hreserve]; exact hplace) (by rw [hreserve]; exact hold),
    hused, hreserve]
  exact .rebuilt hover hplace

theorem Layout.retracted (h : t.Layout) (hk : t.get? key = none) (value : Value) :
    t.Retracted key ((t.insert key value).1.erase key).1 := by
  cases hover : overloaded (t.used + 1) t.capacity with
  | false => exact h.retracted_of_room hk hover
  | true => exact h.retracted_of_overload hk hover

theorem Retracted.size_eq (hr : t.Retracted key after) : after.size = t.size := by
  cases hr <;> rfl

theorem Retracted.capacity_eq (hr : t.Retracted key after) (h : t.Layout) : after.capacity =
    if overloaded (t.used + 1) t.capacity then grown t.capacity else t.capacity := by
  cases hr with
  | restored hroom => rw [hroom]; rfl
  | buried hroom => rw [hroom]; exact Array.size_setIfInBounds
  | rebuilt hover =>
    rw [hover, if_pos rfl]
    exact Array.size_setIfInBounds.trans h.capacity_rebuild

/-- The table is restored if it had room and the key took the place of a tombstone. -/
theorem Retracted.eq_iff (hr : t.Retracted key after) (h : t.Layout) : after = t ↔
    overloaded (t.used + 1) t.capacity = false ∧
      ∃ index, locate? t.buckets key = some (.reusable index) := by
  have hcapacity := hr.capacity_eq h
  cases hr with
  | restored hroom hplace => exact ⟨fun _ => ⟨hroom, _, hplace⟩, fun _ => rfl⟩
  | buried hroom hplace =>
    constructor
    · intro heq
      have hused : t.used + 1 = t.used := congrArg Table.used heq
      omega
    · rintro ⟨-, index, hplace'⟩
      rw [hplace] at hplace'
      cases hplace'
  | rebuilt hover hplace =>
    constructor
    · intro heq
      rw [heq, hover, if_pos rfl] at hcapacity
      exact absurd hcapacity (Nat.ne_of_lt (lt_grown t.capacity))
    · rintro ⟨hroom, -⟩
      rw [hover] at hroom
      cases hroom

end Table

namespace Machine

variable {m after : Machine} {policy : Policy} {name : Symbol}

/-- What a refused assignment leaves behind. -/
structure Withdraws (m : Machine) (name : Symbol) (after : Machine) : Prop where
  heap_eq : after.heap = m.heap
  stack_eq : after.stack = m.stack
  retracted : m.globals.Retracted name after.globals
  /-- Nothing can be looked up that could not be before, and everything that could. -/
  get?_eq : ∀ key, after.globals.get? key = m.globals.get? key
  size_eq : after.globals.size = m.globals.size
  capacity_eq : after.globals.capacity =
    if Table.overloaded (m.globals.used + 1) m.globals.capacity
    then Table.grown m.globals.capacity else m.globals.capacity
  /-- There is no trace of the assignment under one condition only. -/
  eq_iff : after = m ↔
    Table.overloaded (m.globals.used + 1) m.globals.capacity = false ∧
      ∃ index, Table.locate? m.globals.buckets name = some (.reusable index)

theorem Sound.withdraws (hm : m.Sound) (hnone : m.globals.get? name = none) (v : Value) :
    m.Withdraws name { m with globals := ((m.globals.insert name v).1.erase name).1 } := by
  have hl := hm.globals.layout
  have hr := hl.retracted hnone v
  exact
    { heap_eq := rfl
      stack_eq := rfl
      retracted := hr
      get?_eq := fun key => by
        rw [Table.get?_erase hl.insert, Table.get?_insert hl]
        split
        · next heq => rw [heq, hnone]
        · rfl
      size_eq := hr.size_eq
      capacity_eq := hr.capacity_eq hl
      eq_iff := by
        rw [← hr.eq_iff hl]
        exact ⟨congrArg Machine.globals, fun heq => by rw [heq]⟩ }

/-- **A refused assignment leaves a trace in the table of globals, but none that can be looked up.**
It leaves heap and stack as they were, and the globals if there is a tombstone for it to use. -/
theorem Arises.refused_assignment (ha : m.Arises policy) (hname : m.heap.ValidSymbol name)
    {v : Value} {why : Refusal}
    (hok : (m.handle (.setGlobal name v)).result = .ok (after, .refused why)) :
    m.Withdraws name after ∧ ∃ text, m.heap.Spells name text ∧ why = .undefinedVariable text := by
  obtain ⟨after', reply, hok', hstep⟩ := ha.sound.takes_setGlobal hname v
  rw [hok, Except.ok.injEq, Prod.mk.injEq] at hok'
  obtain ⟨rfl, rfl⟩ := hok'
  cases hstep with
  | setUndefined _ hnone hspells => exact ⟨ha.sound.withdraws hnone v, _, hspells, rfl⟩

theorem setGlobal_named : (named.handle (.setGlobal Heap.ringName .nil)).result =
    .ok ({ named with globals := (((∅ : Table).insert Heap.ringName .nil).1.erase
      Heap.ringName).1 }, .refused (.undefinedVariable "A")) := by
  decide +kernel

/-- The first assignment to be refused makes the table of globals grow from nothing. -/
theorem refused_assignment_named : ∃ after,
    (named.handle (.setGlobal Heap.ringName .nil)).result =
      .ok (after, .refused (.undefinedVariable "A")) ∧
    named.Withdraws Heap.ringName after ∧ after ≠ named ∧ named.globals.capacity = 0 ∧
    after.globals.capacity = 8 ∧ after.globals.used = 1 := by
  have hwithdraws := (Arises.refused_assignment arises_named validSymbol_named setGlobal_named).1
  refine ⟨_, setGlobal_named, hwithdraws, ?_, rfl, hwithdraws.capacity_eq, by decide +kernel⟩
  rw [ne_eq, hwithdraws.eq_iff]
  rintro ⟨hroom, -⟩
  cases hroom

/-- A refused assignment does not always leave the machine as it was. -/
theorem not_refused_assignment_unchanged : ¬∀ (policy : Policy) (m after : Machine) (name : Symbol)
    (v : Value) (why : Refusal), m.Arises policy → m.heap.ValidSymbol name →
    (m.handle (.setGlobal name v)).result = .ok (after, .refused why) → after = m := by
  intro hall
  have heq := hall {} named _ Heap.ringName .nil _ arises_named validSymbol_named setGlobal_named
  exact absurd (congrArg (fun m => m.globals.used) heq) (by decide +kernel)

end Machine

end ObjectHeap
