import ObjectHeap.Proofs.Table.Bindings

/-!
# Tombstones are used again

A key that is removed leaves a tombstone, and the tombstone is on the path of the key. So when the
key is bound again the search comes past it before it comes to an empty bucket, and a tombstone is
used up rather than an empty bucket (`Layout.exists_reusable`). It need not be the one that the key
has left: an earlier one on the path is as good.

The other way for it to go is that the table has no room for another key as long as the tombstones
are counted. Then it grows, and leaves all tombstones behind. Either way the removal and the binding
together use no bucket that was not in use before, however often they are repeated
(`Built.reuses_tombstones`).
-/

set_option autoImplicit false

namespace ObjectHeap

namespace Table

variable {t : Table} {key : Symbol} {v w : Value}

/-! ## A tombstone on the path -/

/-- A tombstone among the buckets that have been passed is remembered, or an earlier one is. -/
theorem exists_spare {buckets : Array Bucket} {steps j : Nat} (hj : j < steps)
    (hb : buckets[probe buckets.size key.hash j]? = some .tombstone) :
    ∃ index, spare buckets key steps = some index := by
  have hsome : ((List.range steps).find? fun j =>
      decide (buckets[probe buckets.size key.hash j]? = some .tombstone)).isSome = true :=
    List.find?_isSome.2 ⟨j, List.mem_range.2 hj, decide_eq_true hb⟩
  obtain ⟨first, hfirst⟩ := Option.isSome_iff_exists.1 hsome
  exact ⟨_, by rw [spare, hfirst, Option.map_some]⟩

/-- If the key is absent and there is a tombstone on its path, then its place is a tombstone. -/
theorem Layout.exists_reusable (h : t.Layout) (hk : t.get? key = none) {i : Nat}
    (hi : t.buckets[i]? = some .tombstone) (hpath : OnPath t.buckets key.hash i) :
    ∃ index, locate? t.buckets key = some (.reusable index) := by
  obtain ⟨e, he⟩ := h.exists_empty (Nat.lt_of_le_of_lt (Nat.zero_le i) hpath.index_lt)
  obtain ⟨steps, hlt, ⟨b, hb, hends⟩, hp⟩ := exists_first (P := Bucket.Ends key) key.hash he trivial
  have hp : Passes t.buckets key steps := hp
  cases b with
  | tombstone => exact absurd hends id
  | entry k v =>
    obtain rfl : k = key := hends
    exact absurd (mem_entries.2 ⟨_, hb⟩) ((get?_eq_none_iff h).1 hk v)
  | empty =>
    -- No bucket before the tombstone is empty, so the search passes it before it ends.
    obtain ⟨j, -, rfl, hpass⟩ := hpath
    have hj : j < steps := by
      refine Nat.lt_of_le_of_ne (Nat.le_of_not_lt fun hsteps => hpass steps hsteps hb) ?_
      rintro rfl
      rw [hb] at hi
      cases hi
    obtain ⟨index, hspare⟩ := exists_spare hj hi
    exact ⟨index, by rw [locate?_of_empty hlt hp hb, hspare, Place.absent]⟩

/-! ## Removing a key and binding it again -/

theorem Layout.exists_entry (h : t.Layout) (hk : t.get? key = some w) :
    ∃ i : Nat, t.buckets[i]? = some (.entry key w) :=
  mem_entries.1 ((get?_eq_some_iff h).1 hk)

theorem get?_erase_self (h : t.Layout) (key : Symbol) : (t.erase key).1.get? key = none := by
  rw [get?_erase h, if_pos rfl]

/-- A key that is there is removed, and the number of used buckets stays. -/
theorem Layout.erase_of_some (h : t.Layout) (hk : t.get? key = some w) :
    (t.erase key).2 = true ∧ (t.erase key).1.used = t.used ∧
      (t.erase key).1.size + 1 = t.size := by
  obtain ⟨i, hi⟩ := h.exists_entry hk
  have hpos : 0 < t.size := by
    rw [← h.length_entries]
    exact List.length_pos_of_mem ((get?_eq_some_iff h).1 hk)
  rw [erase_of_entry h hi]
  exact ⟨rfl, rfl, Nat.sub_add_cancel hpos⟩

/-- What it leaves is a tombstone on its path. -/
theorem Layout.exists_tombstone_erase (h : t.Layout) (hk : t.get? key = some w) :
    ∃ i : Nat, (t.erase key).1.buckets[i]? = some .tombstone ∧
      OnPath (t.erase key).1.buckets key.hash i := by
  obtain ⟨i, hi⟩ := h.exists_entry hk
  have hpath := h.searchable.reached i key w hi
  rw [erase_of_entry h hi]
  exact ⟨i, Array.getElem?_setIfInBounds_self_of_lt hpath.index_lt, hpath.write (by simp)⟩

theorem insert_of_absent (h : t.Layout) (hk : t.get? key = none) :
    (t.insert key v).2 = true ∧ (t.insert key v).1.size = t.size + 1 := by
  refine ⟨(insert_isNew_iff h).2 hk, ?_⟩
  rw [← h.insert.length_entries, (perm_entries_insert h hk).length_eq, List.length_cons,
    h.length_entries]

/-- To bind a removed key uses no more buckets than were in use before it was removed. -/
theorem Layout.used_rebind_le (h : t.Layout) (hk : t.get? key = some w) :
    ((t.erase key).1.insert key v).1.used ≤ t.used := by
  obtain ⟨-, hused, hsize⟩ := h.erase_of_some hk
  by_cases hover : overloaded ((t.erase key).1.used + 1) (t.erase key).1.capacity = true
  · -- The table grows. What is left of it then are its entries, of which there is one less.
    have hle : ((t.erase key).1.insert key v).1.used ≤
        (t.erase key).1.reserve.used + ((t.erase key).1.insert key v).2.toNat :=
      used_insert_le h.erase
    have hone := Bool.toNat_le ((t.erase key).1.insert key v).2
    have hreserve : (t.erase key).1.reserve.used = (t.erase key).1.size := by
      rw [reserve_of_overloaded hover, Table.rebuild, h.erase.length_entries]
    have hsize_le := h.size_le_used
    omega
  · obtain ⟨i, hi, hpath⟩ := h.exists_tombstone_erase hk
    obtain ⟨index, hplace⟩ := h.erase.exists_reusable (get?_erase_self h key) hi hpath
    simp only [Table.insert, reserve_of_room hover, hplace]
    exact Nat.le_of_eq hused

/-! ## Again and again -/

/-- Removes a key and binds it again, once for each value. Also answers the tables on the way, each
with the answer of the operation that led to it. -/
def renew (t : Table) (key : Symbol) : List Value → Table × List (Table × Bool)
  | [] => (t, [])
  | v :: rest =>
    let erased := t.erase key
    let bound := erased.1.insert key v
    let (last, stages) := renew bound.1 key rest
    (last, erased :: bound :: stages)

/-- After one round the key is there again and all else is as it was. -/
theorem Layout.get?_rebind (h : t.Layout) {other : Symbol} :
    ((t.erase key).1.insert key v).1.get? other =
      if other = key then some v else t.get? other := by
  rw [get?_insert h.erase, get?_erase h]
  split <;> rfl

theorem Layout.used_stages_le (h : t.Layout) (hk : t.get? key = some w) (values : List Value) :
    ∀ stage ∈ (t.renew key values).2, stage.1.used ≤ t.used ∧ stage.2 = true := by
  induction values generalizing t w with
  | nil => exact fun stage hstage => absurd hstage List.not_mem_nil
  | cons v rest ih =>
    obtain ⟨hfound, hused, -⟩ := h.erase_of_some hk
    have hnew := insert_of_absent (v := v) h.erase (get?_erase_self h key)
    have hround := h.used_rebind_le (v := v) hk
    intro stage hstage
    rcases List.mem_cons.1 hstage with rfl | hstage
    · exact ⟨Nat.le_of_eq hused, hfound⟩
    · rcases List.mem_cons.1 hstage with rfl | hstage
      · exact ⟨hround, hnew.1⟩
      · have hlater := ih h.erase.insert (h.get?_rebind.trans (if_pos rfl)) stage hstage
        exact ⟨Nat.le_trans hlater.1 hround, hlater.2⟩

theorem Layout.size_renew (h : t.Layout) (hk : t.get? key = some w) (values : List Value) :
    (t.renew key values).1.size = t.size := by
  induction values generalizing t w with
  | nil => rfl
  | cons v rest ih =>
    obtain ⟨-, -, hsize⟩ := h.erase_of_some hk
    have hnew := insert_of_absent (v := v) h.erase (get?_erase_self h key)
    have hrest := ih h.erase.insert (h.get?_rebind (v := v).trans (if_pos rfl))
    exact hrest.trans (hnew.2.trans hsize)

theorem Layout.get?_renew (h : t.Layout) (hk : t.get? key = some w) (values : List Value)
    (other : Symbol) : (t.renew key values).1.get? other =
      if other = key then some (values.getLast?.getD w) else t.get? other := by
  induction values generalizing t w with
  | nil =>
    split
    · next heq => rw [heq]; exact hk
    · rfl
  | cons v rest ih =>
    have hrest := ih h.erase.insert (h.get?_rebind.trans (if_pos rfl)) (w := v)
    refine hrest.trans ?_
    rw [h.get?_rebind, List.getLast?_cons]
    split
    · rfl
    · rfl

/-- **Tombstones are used again.** Remove a key that is there and bind it again, as often as there
are values. Every removal finds the key and every binding finds it gone, and at no time are more
buckets in use than at the start, even if the table has to grow. In the end it has as many entries
as before, the key has the last of the values, and every other key has what it had. -/
theorem Built.reuses_tombstones (hb : t.Built) (hk : t.get? key = some w) (values : List Value) :
    (∀ stage ∈ (t.renew key values).2, stage.1.used ≤ t.used ∧ stage.2 = true) ∧
    (t.renew key values).1.size = t.size ∧
    (t.renew key values).1.get? key = some (values.getLast?.getD w) ∧
    ∀ other, other ≠ key → (t.renew key values).1.get? other = t.get? other := by
  have hl := hb.layout
  refine ⟨hl.used_stages_le hk values, hl.size_renew hk values, ?_, ?_⟩
  · rw [hl.get?_renew hk, if_pos rfl]
  · intro other hne
    rw [hl.get?_renew hk, if_neg hne]

/-! ## A table at its limit -/

/-- Keys that share a home. -/
def neighbour (slot : Nat) : Symbol := { str := ⟨slot⟩, hash := 0 }

/-- A table with as many keys as eight buckets may hold. -/
def crowded : Table :=
  (List.range 6).foldl (fun t slot => (t.insert (neighbour slot) .nil).1) ∅

theorem built_crowded : crowded.Built := by
  unfold crowded
  generalize List.range 6 = slots
  suffices hall : ∀ t : Table, t.Built →
      (slots.foldl (fun t slot => (t.insert (neighbour slot) .nil).1) t).Built from hall ∅ .empty
  induction slots with
  | nil => exact fun t ht => ht
  | cons slot rest ih => exact fun t ht => ih _ (.insert _ _ ht)

/-- The table counts the tombstone and grows, and again there are six buckets in use. -/
theorem reuses_tombstones_crowded :
    (∀ stage ∈ (crowded.renew (neighbour 0) [.nil, .bool true]).2,
      stage.1.used ≤ 6 ∧ stage.2 = true) ∧
    (crowded.renew (neighbour 0) [.nil, .bool true]).1.get? (neighbour 0) = some (.bool true) ∧
    (crowded.renew (neighbour 0) [.nil, .bool true]).1.get? (neighbour 5) = some .nil ∧
    crowded.capacity = 8 ∧ (crowded.renew (neighbour 0) [.nil, .bool true]).1.capacity = 16 := by
  have hkey : crowded.get? (neighbour 0) = some .nil := by decide +kernel
  have hother : crowded.get? (neighbour 5) = some .nil := by decide +kernel
  have hused : crowded.used = 6 := by decide +kernel
  have hreuses := built_crowded.reuses_tombstones hkey [.nil, .bool true]
  rw [hused] at hreuses
  exact ⟨hreuses.1, hreuses.2.2.1, (hreuses.2.2.2 _ (by decide)).trans hother, by decide +kernel,
    by decide +kernel⟩

end Table

end ObjectHeap
