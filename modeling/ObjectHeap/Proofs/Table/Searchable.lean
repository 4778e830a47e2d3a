import ObjectHeap.Proofs.Table.Places

/-!
# Arrays that can be searched

The part of a layout that is about buckets and not about counts: no key is twice in the array, and
each key is on the path of its hash (`Searchable`). In such an array a search finds every key that
is there (`Searchable.locate?_of_entry`), and what it answers for an absent key can be filled
(`Searchable.write`).

All that operations do to a bucket is to write an entry or a tombstone over it. Neither is empty, so
no path gets shorter, and that is the reason why one lemma serves insertion, deletion and growing.
-/

set_option autoImplicit false

namespace ObjectHeap

namespace Table

/-- Every key is in one bucket, which is on the path of its hash. -/
structure Searchable (buckets : Array Bucket) : Prop where
  distinct : ∀ (i j : Nat) key v w, buckets[i]? = some (.entry key v) →
    buckets[j]? = some (.entry key w) → i = j
  reached : ∀ (i : Nat) key v, buckets[i]? = some (.entry key v) → OnPath buckets key.hash i

theorem Layout.searchable {t : Table} (h : t.Layout) : Searchable t.buckets :=
  ⟨h.distinct, h.reached⟩

variable {buckets : Array Bucket} {key : Symbol}

theorem getElem?_replicate_empty_ne {capacity i : Nat} {k : Symbol} {v : Value} :
    (Array.replicate capacity Bucket.empty)[i]? ≠ some (.entry k v) := by
  rw [Array.getElem?_replicate]
  split <;> simp

theorem Searchable.replicate (capacity : Nat) :
    Searchable (Array.replicate capacity Bucket.empty) :=
  ⟨fun _ _ _ _ _ h => absurd h getElem?_replicate_empty_ne,
    fun _ _ _ h => absurd h getElem?_replicate_empty_ne⟩

/-- A search finds a key that is there. -/
theorem Searchable.locate?_of_entry (h : Searchable buckets) {i : Nat} {v : Value}
    (hi : buckets[i]? = some (.entry key v)) : locate? buckets key = some (.held i v) := by
  obtain ⟨steps, hlt, rfl, hpass⟩ := h.reached i key v hi
  refine Table.locate?_of_entry hlt (fun earlier he b hb hends => ?_) hi
  cases b with
  | empty => exact hpass earlier he hb
  | tombstone => exact hends
  | entry k w =>
    obtain rfl : k = key := hends
    have := probe_inj (by omega) hlt (h.distinct _ _ _ _ _ hb hi)
    omega

/-! ## Writing over a bucket -/

section Write

variable {b : Bucket} {i : Nat}

/-- No path gets shorter when something that is not empty is written. -/
theorem OnPath.write (hb : b ≠ .empty) {hash : UInt32} {j : Nat} (h : OnPath buckets hash j) :
    OnPath (buckets.setIfInBounds i b) hash j := by
  obtain ⟨steps, hlt, hprobe, hpass⟩ := h
  refine ⟨steps, by simpa using hlt, by simpa using hprobe, ?_⟩
  intro earlier he hempty
  rw [Array.size_setIfInBounds, Array.getElem?_setIfInBounds] at hempty
  split at hempty
  · split at hempty
    · exact hb (Option.some.inj hempty)
    · cases hempty
  · exact hpass earlier he hempty

theorem Searchable.write (h : Searchable buckets) (hb : b ≠ .empty)
    (hkey : ∀ k v, b = .entry k v → OnPath buckets k.hash i ∧
      ∀ (j : Nat) w, buckets[j]? = some (.entry k w) → j = i) :
    Searchable (buckets.setIfInBounds i b) := by
  -- An entry of the new array is the one written or one that was there, elsewhere.
  have hcases : ∀ (j : Nat) k v, (buckets.setIfInBounds i b)[j]? = some (.entry k v) →
      (j = i ∧ b = .entry k v) ∨ (j ≠ i ∧ buckets[j]? = some (.entry k v)) := by
    intro j k v hj
    rw [Array.getElem?_setIfInBounds] at hj
    split at hj
    · next heq =>
      split at hj
      · exact .inl ⟨heq.symm, Option.some.inj hj⟩
      · cases hj
    · next hne => exact .inr ⟨Ne.symm hne, hj⟩
  constructor
  · intro j j' k v w hj hj'
    rcases hcases j k v hj with ⟨rfl, hv⟩ | ⟨hne, hold⟩ <;>
      rcases hcases j' k w hj' with ⟨rfl, hw⟩ | ⟨hne', hold'⟩
    · rfl
    · exact ((hkey k v hv).2 j' w hold').symm
    · exact (hkey k w hw).2 j v hold
    · exact h.distinct j j' k v w hold hold'
  · intro j k v hj
    rcases hcases j k v hj with ⟨rfl, hv⟩ | ⟨-, hold⟩
    · exact (hkey k v hv).1.write hb
    · exact (h.reached j k v hold).write hb

/-- Writing over a bucket changes a count by what was there and what is there now. -/
theorem countP_write {p : Bucket → Bool} {old : Bucket} (h : buckets[i]? = some old) :
    (buckets.setIfInBounds i b).countP p + (if p old then 1 else 0) =
      buckets.countP p + if p b then 1 else 0 := by
  obtain ⟨hlt, rfl⟩ := Array.getElem?_eq_some_iff.1 h
  rw [Array.setIfInBounds_def, dif_pos hlt, Array.countP_set]
  have hpos : p buckets[i] = true → 0 < buckets.countP p := fun hp =>
    Array.countP_pos_iff.2 ⟨_, Array.getElem_mem hlt, hp⟩
  by_cases hold : p buckets[i] = true
  · have := hpos hold
    rw [if_pos hold]
    omega
  · rw [if_neg hold]
    omega

end Write

/-! ## Entries -/

theorem binding?_eq_some_iff {b : Bucket} {e : Symbol × Value} :
    b.binding? = some e ↔ b = .entry e.1 e.2 := by
  cases b with
  | empty | tombstone => exact ⟨nofun, nofun⟩
  | entry key v =>
    constructor
    · intro heq
      cases heq
      rfl
    · intro heq
      cases heq
      rfl

theorem mem_entries {t : Table} {e : Symbol × Value} :
    e ∈ t.entries ↔ ∃ i : Nat, t.buckets[i]? = some (.entry e.1 e.2) := by
  simp only [entries, List.mem_filterMap, Array.mem_toList_iff, Array.mem_iff_getElem?,
    binding?_eq_some_iff]
  constructor
  · rintro ⟨b, ⟨i, hi⟩, rfl⟩
    exact ⟨i, hi⟩
  · rintro ⟨i, hi⟩
    exact ⟨_, ⟨i, hi⟩, rfl⟩

theorem length_entries (t : Table) : t.entries.length = t.buckets.countP Bucket.isEntry := by
  rw [entries, List.length_filterMap_eq_countP, Array.countP_toList]
  congr 1
  funext b
  cases b <;> rfl

/-- No two entries of a searchable table have the same key. -/
theorem Searchable.pairwise_entries {t : Table} (h : Searchable t.buckets) :
    t.entries.Pairwise fun e f => e.1 ≠ f.1 := by
  rw [entries, List.pairwise_filterMap, List.pairwise_iff_getElem]
  intro i j hi hj hij e he f hf hkey
  have hentry : ∀ k (hk : k < t.buckets.toList.length) g, t.buckets.toList[k].binding? = some g →
      t.buckets[k]? = some (.entry g.1 g.2) := by
    intro k hk g hg
    rw [← Array.getElem?_toList, List.getElem?_eq_getElem hk, binding?_eq_some_iff.1 hg]
  have h1 := hentry i hi e he
  have h2 := hentry j hj f hf
  rw [← hkey] at h2
  exact absurd (h.distinct i j e.1 e.2 f.2 h1 h2) (by omega)

end Table

end ObjectHeap
