import ObjectHeap.Proofs.Table.Searchable

/-!
# The layout is kept

Every table that can be made has a `Layout` (`Built.layout`). There are three ways of changing an
array: an insertion writes one entry, a deletion writes tombstones, and growing settles the entries
one by one in an array that starts empty. For the first and the last it matters that the search for
the place of a key ends, that is, that some bucket is empty; this is what the load is bounded for
(`exists_empty`).
-/

set_option autoImplicit false

namespace ObjectHeap

namespace Table

variable {t : Table} {key : Symbol} {value : Value}

/-! ## Empty buckets -/

theorem exists_empty {buckets : Array Bucket}
    (h : (buckets.countP fun b => !b.isEmpty) < buckets.size) :
    ∃ i : Nat, buckets[i]? = some .empty := by
  have hne : ¬∀ b ∈ buckets, (!b.isEmpty) = true := fun hall =>
    absurd (Array.countP_eq_size.2 hall) (Nat.ne_of_lt h)
  simp only [Classical.not_forall] at hne
  obtain ⟨b, hmem, hb⟩ := hne
  obtain ⟨i, hi⟩ := Array.mem_iff_getElem?.1 hmem
  refine ⟨i, ?_⟩
  cases b with
  | empty => exact hi
  | tombstone => exact absurd rfl hb
  | entry => exact absurd rfl hb

theorem Layout.empty : Layout ∅ where
  capacity_eq := .inl rfl
  used_eq := rfl
  size_eq := rfl
  load := Nat.le_refl 0
  distinct _ _ _ _ _ h := by cases h
  reached _ _ _ h := by cases h

/-- Among the used buckets there are all entries. -/
theorem Layout.size_le_used (h : t.Layout) : t.size ≤ t.used := by
  rw [h.size_eq, h.used_eq]
  refine Array.countP_mono_left fun b _ hb => ?_
  cases b with
  | entry => rfl
  | empty => cases hb
  | tombstone => cases hb

theorem Layout.length_entries (h : t.Layout) : t.entries.length = t.size := by
  rw [Table.length_entries, h.size_eq]

/-! ## Growing -/

/-- The array holds these entries and nothing else, not even tombstones. -/
structure Settled (capacity : Nat) (entries : List (Symbol × Value)) (buckets : Array Bucket) :
    Prop where
  size_eq : buckets.size = capacity
  searchable : Searchable buckets
  no_tombstone : ∀ i : Nat, buckets[i]? ≠ some .tombstone
  mem_iff : ∀ e, e ∈ entries ↔ ∃ i : Nat, buckets[i]? = some (.entry e.1 e.2)
  used_eq : (buckets.countP fun b => !b.isEmpty) = entries.length
  entry_eq : buckets.countP Bucket.isEntry = entries.length

theorem Settled.replicate (capacity : Nat) :
    Settled capacity [] (Array.replicate capacity .empty) where
  size_eq := Array.size_replicate
  searchable := .replicate capacity
  no_tombstone i h := by
    rw [Array.getElem?_replicate] at h
    split at h <;> cases h
  mem_iff e := ⟨fun h => absurd h List.not_mem_nil,
    fun ⟨_, h⟩ => absurd h getElem?_replicate_empty_ne⟩
  used_eq := by simp [Array.countP_replicate, Bucket.isEmpty]
  entry_eq := by simp [Array.countP_replicate, Bucket.isEntry]

/-- A new key settles in an empty bucket. -/
theorem Settled.exists_vacant {capacity : Nat} {entries : List (Symbol × Value)}
    {buckets : Array Bucket} (h : Settled capacity entries buckets)
    (hroom : entries.length < capacity) (hnew : ∀ v, (key, v) ∉ entries) :
    ∃ index, locate? buckets key = some (.vacant index) ∧ buckets[index]? = some .empty ∧
      OnPath buckets key.hash index := by
  obtain ⟨i, hi⟩ := exists_empty (by rw [h.used_eq, h.size_eq]; exact hroom)
  obtain ⟨place, hplace, hanswers⟩ := exists_locate? key hi
  -- The key is new and there are no tombstones, so the search can only end at an empty bucket.
  cases hanswers with
  | @held j v hj => exact absurd ((h.mem_iff (key, v)).2 ⟨j, hj⟩) (hnew v)
  | @reusable j hj => exact absurd hj (h.no_tombstone j)
  | @vacant j hj hpath _ => exact ⟨j, hplace, hj, hpath⟩

theorem Settled.settle {capacity : Nat} {entries : List (Symbol × Value)} {buckets : Array Bucket}
    (h : Settled capacity entries buckets) (hroom : entries.length < capacity)
    (hnew : ∀ v, (key, v) ∉ entries) :
    Settled capacity (entries ++ [(key, value)]) (settle buckets key value) := by
  obtain ⟨index, hplace, hempty, hpath⟩ := h.exists_vacant hroom hnew
  have hsettle : Table.settle buckets key value =
      buckets.setIfInBounds index (.entry key value) := by
    simp only [Table.settle, hplace, Place.index]
  have hlt : index < buckets.size := hpath.index_lt
  rw [hsettle]
  refine ⟨by rw [Array.size_setIfInBounds, h.size_eq], ?_, ?_, ?_, ?_, ?_⟩
  · refine h.searchable.write (by simp) ?_
    intro k v hk
    cases hk
    exact ⟨hpath, fun j w hj => absurd ((h.mem_iff (key, w)).2 ⟨j, hj⟩) (hnew w)⟩
  · intro i hi
    rcases eq_or_ne index i with rfl | hne
    · rw [Array.getElem?_setIfInBounds_self_of_lt hlt] at hi
      cases hi
    · exact h.no_tombstone i (by rwa [Array.getElem?_setIfInBounds_ne hne] at hi)
  · rintro ⟨k, v⟩
    rw [List.mem_append, h.mem_iff, List.mem_singleton, Prod.mk.injEq]
    constructor
    · rintro (⟨i, hi⟩ | ⟨rfl, rfl⟩)
      · have hne : index ≠ i := by
          rintro rfl
          rw [hempty] at hi
          cases hi
        exact ⟨i, by rw [Array.getElem?_setIfInBounds_ne hne, hi]⟩
      · exact ⟨index, Array.getElem?_setIfInBounds_self_of_lt hlt⟩
    · rintro ⟨i, hi⟩
      rcases eq_or_ne index i with rfl | hne
      · rw [Array.getElem?_setIfInBounds_self_of_lt hlt] at hi
        cases hi
        exact .inr ⟨rfl, rfl⟩
      · exact .inl ⟨i, by rwa [Array.getElem?_setIfInBounds_ne hne] at hi⟩
  · rw [List.length_append, ← h.used_eq]
    exact countP_write (p := fun b => !b.isEmpty) (b := .entry key value) hempty
  · rw [List.length_append, ← h.entry_eq]
    exact countP_write (p := Bucket.isEntry) (b := .entry key value) hempty

/-- Entries with different keys settle one after the other, as long as there is room. -/
theorem Settled.foldl {capacity : Nat} {rest : List (Symbol × Value)} :
    ∀ {entries : List (Symbol × Value)} {buckets : Array Bucket},
      Settled capacity entries buckets → (entries ++ rest).length < capacity →
      (entries ++ rest).Pairwise (fun e f => e.1 ≠ f.1) →
      Settled capacity (entries ++ rest)
        (rest.foldl (fun buckets e => Table.settle buckets e.1 e.2) buckets) := by
  -- The entries that have settled already grow by one with every step.
  induction rest with
  | nil => intro entries buckets h _ _; simpa using h
  | cons e rest ih =>
    intro entries buckets h hroom hkeys
    have hnew : ∀ v, (e.1, v) ∉ entries := fun v hv =>
      (List.pairwise_append.1 hkeys).2.2 _ hv e List.mem_cons_self rfl
    have hstep : Settled capacity (entries ++ [e]) (Table.settle buckets e.1 e.2) :=
      h.settle (by simp at hroom; omega) hnew
    rw [List.append_cons] at hroom hkeys ⊢
    exact ih hstep hroom hkeys

theorem settled_rebuild (h : Searchable t.buckets) {capacity : Nat}
    (hroom : t.entries.length < capacity) :
    Settled capacity t.entries (t.rebuild capacity).buckets := by
  have hfold : Settled capacity ([] ++ t.entries) (t.rebuild capacity).buckets :=
    (Settled.replicate capacity).foldl (by simpa using hroom) (by simpa using h.pairwise_entries)
  simpa using hfold

theorem grown_eq (h : t.Layout) :
    ∃ doublings, grown t.capacity = leastCapacity * Nat.pow 2 doublings := by
  rcases h.capacity_eq with h0 | ⟨d, hd⟩
  · exact ⟨0, by rw [h0]; rfl⟩
  · refine ⟨d + 1, ?_⟩
    have hpos : 1 ≤ Nat.pow 2 d := Nat.one_le_two_pow
    have hsucc : Nat.pow 2 (d + 1) = Nat.pow 2 d * 2 := rfl
    unfold grown leastCapacity at *
    rw [if_neg (by omega)]
    omega

/-- After growing, three quarters of the buckets are more than the entries and one. -/
theorem Layout.room_grown (h : t.Layout) :
    4 * (t.entries.length + 1) ≤ 3 * grown t.capacity := by
  have hload := h.load
  have hused := h.size_le_used
  rw [h.length_entries]
  unfold grown leastCapacity
  split <;> omega

theorem Layout.settled_grown (h : t.Layout) :
    Settled (grown t.capacity) t.entries (t.rebuild (grown t.capacity)).buckets :=
  settled_rebuild h.searchable (by have := h.room_grown; omega)

theorem Layout.capacity_rebuild (h : t.Layout) :
    (t.rebuild (grown t.capacity)).capacity = grown t.capacity :=
  h.settled_grown.size_eq

theorem Layout.rebuild (h : t.Layout) : (t.rebuild (grown t.capacity)).Layout where
  capacity_eq := by
    rw [h.capacity_rebuild]
    exact .inr (grown_eq h)
  used_eq := h.settled_grown.used_eq.symm
  size_eq := by
    rw [h.settled_grown.entry_eq, h.length_entries]
    rfl
  load := by
    rw [h.capacity_rebuild]
    exact Nat.le_trans (Nat.mul_le_mul_left 4 (Nat.le_succ _)) h.room_grown
  distinct := h.settled_grown.searchable.distinct
  reached := h.settled_grown.searchable.reached

theorem Layout.reserve (h : t.Layout) : t.reserve.Layout := by
  unfold Table.reserve
  split
  · exact h.rebuild
  · exact h

/-- There is room for one more key. -/
theorem Layout.room_reserve (h : t.Layout) : 4 * (t.reserve.used + 1) ≤ 3 * t.reserve.capacity := by
  unfold Table.reserve
  split
  · rw [h.capacity_rebuild]
    exact h.room_grown
  · next hover => simp only [overloaded, decide_eq_true_eq] at hover; omega

theorem reserve_of_overloaded (hover : overloaded (t.used + 1) t.capacity = true) :
    t.reserve = t.rebuild (grown t.capacity) := by
  rw [Table.reserve, if_pos hover]

theorem reserve_of_room (hroom : ¬overloaded (t.used + 1) t.capacity = true) :
    t.reserve = t := by
  rw [Table.reserve, if_neg hroom]

/-- Making room takes no bucket. -/
theorem Layout.used_reserve_le (h : t.Layout) : t.reserve.used ≤ t.used := by
  unfold Table.reserve
  split
  · show t.entries.length ≤ t.used
    rw [h.length_entries]
    exact h.size_le_used
  · exact Nat.le_refl _

theorem Layout.mem_entries_rebuild (h : t.Layout) {e : Symbol × Value} :
    e ∈ (t.rebuild (grown t.capacity)).entries ↔ e ∈ t.entries := by
  rw [mem_entries, h.settled_grown.mem_iff]

theorem mem_entries_reserve (h : t.Layout) {e : Symbol × Value} :
    e ∈ t.reserve.entries ↔ e ∈ t.entries := by
  unfold Table.reserve
  split
  · exact h.mem_entries_rebuild
  · rfl

/-- A table that has buckets has an empty one. -/
theorem Layout.exists_empty (h : t.Layout) (hpos : 0 < t.capacity) :
    ∃ i : Nat, t.buckets[i]? = some .empty := by
  apply Table.exists_empty
  have hload := h.load
  rw [← h.used_eq]
  show t.used < t.capacity
  omega

end Table

end ObjectHeap
