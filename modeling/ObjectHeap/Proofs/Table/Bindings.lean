import ObjectHeap.Proofs.Table.Layout

/-!
# The bindings of a table

What the operations do to the entries, and with it to `get?`, which finds exactly the entries
(`get?_eq_some_iff`). Of an insertion everything is said once, by `Puts`: which bucket it writes,
and what was there. The layout afterwards, the entries afterwards and the answer whether the key was
new are read off from that.
-/

set_option autoImplicit false

namespace ObjectHeap

namespace Table

variable {t other : Table} {key : Symbol} {value : Value}

/-! ## Looking up -/

/-- A table finds exactly what its entries bind. -/
theorem get?_eq_some_iff (h : t.Layout) {v : Value} :
    t.get? key = some v ↔ (key, v) ∈ t.entries := by
  rw [mem_entries]
  constructor
  · intro hget
    obtain ⟨i, hi⟩ : ∃ i, locate? t.buckets key = some (.held i v) := by
      unfold get? at hget
      split at hget
      · next i w hloc => cases hget; exact ⟨i, hloc⟩
      · cases hget
    refine ⟨i, ?_⟩
    -- A search that says where the key is must have ended there, so some bucket is empty.
    obtain ⟨j, hj⟩ : ∃ j : Nat, t.buckets[j]? = some .empty := by
      refine h.exists_empty (Nat.pos_of_ne_zero ?_)
      intro h0
      rw [locate?, show t.buckets.size = 0 from h0] at hi
      cases hi
    obtain ⟨place, hplace, hanswers⟩ := exists_locate? key hj
    rw [hi] at hplace
    cases hplace
    cases hanswers with
    | held hb => exact hb
  · rintro ⟨i, hi⟩
    rw [get?, h.searchable.locate?_of_entry hi]

theorem get?_eq_none_iff (h : t.Layout) : t.get? key = none ↔ ∀ v, (key, v) ∉ t.entries := by
  simp only [← get?_eq_some_iff h]
  cases t.get? key <;> simp

/-- Two entries with one key are the same. -/
theorem Layout.eq_of_mem (h : t.Layout) {v w : Value} (hv : (key, v) ∈ t.entries)
    (hw : (key, w) ∈ t.entries) : v = w := by
  rw [← get?_eq_some_iff h] at hv hw
  exact Option.some.inj (hv.symm.trans hw)

/-- The search and the look through all entries agree. -/
theorem get?_eq_lookup (h : t.Layout) : t.get? key = t.lookup key := by
  apply Option.ext
  intro v
  rw [get?_eq_some_iff h, lookup]
  have hkeys := h.searchable.pairwise_entries
  generalize t.entries = entries at hkeys
  induction entries with
  | nil => simp
  | cons e rest ih =>
    obtain ⟨k, w⟩ := e
    rw [List.pairwise_cons] at hkeys
    by_cases hk : key = k
    · subst hk
      have hrest : (key, v) ∉ rest := fun hmem => hkeys.1 _ hmem rfl
      simp [hrest, eq_comm]
    · have hk' : (key == k) = false := by simpa using hk
      simp only [List.mem_cons, Prod.mk.injEq, hk, false_and, false_or, List.lookup_cons, hk']
      exact ih hkeys.2

/-! ## Insertion -/

/-- What an insertion does: it writes the entry over one bucket. -/
structure Puts (t : Table) (key : Symbol) (value : Value) (index : Nat) (old : Bucket)
    (after : Table) (isNew : Bool) : Prop where
  was : t.buckets[index]? = some old
  onPath : OnPath t.buckets key.hash index
  /-- The key is nowhere else. -/
  only : ∀ (j : Nat) v, t.buckets[j]? = some (.entry key v) → j = index
  /-- No other key is written over. -/
  same_key : ∀ k v, old = .entry k v → k = key
  buckets_eq : after.buckets = t.buckets.setIfInBounds index (.entry key value)
  used_eq : after.used = t.used + if old.isEmpty then 1 else 0
  size_eq : after.size = t.size + if old.isEntry then 0 else 1
  isNew_eq : isNew = !old.isEntry

theorem exists_puts (h : t.Layout) (key : Symbol) (value : Value) :
    ∃ index old, Puts t.reserve key value index old (t.insert key value).1
      (t.insert key value).2 := by
  obtain ⟨i, hi⟩ := h.reserve.exists_empty (by have := h.room_reserve; omega)
  obtain ⟨place, hplace, hanswers⟩ := exists_locate? key hi
  have hs := h.reserve.searchable
  -- The bucket that is written holds the key already, or is a tombstone, or has never been used.
  cases hanswers with
  | @held j v hj =>
    refine ⟨j, .entry key v, hj, hs.reached j key v hj,
      fun j' w hj' => hs.distinct _ _ _ _ _ hj' hj, fun k w hk => ?_, ?_, ?_, ?_, ?_⟩
    · cases hk
      rfl
    all_goals simp [insert, hplace, Bucket.isEmpty, Bucket.isEntry]
  | @reusable j hj hpath habsent =>
    refine ⟨j, .tombstone, hj, hpath, fun j' w hj' => ?_, fun k w hk => (by cases hk), ?_,
      ?_, ?_, ?_⟩
    · exact absurd hj' (habsent j' w (hs.reached j' key w hj'))
    all_goals simp [insert, hplace, Bucket.isEmpty, Bucket.isEntry]
  | @vacant j hj hpath habsent =>
    refine ⟨j, .empty, hj, hpath, fun j' w hj' => ?_, fun k w hk => (by cases hk), ?_,
      ?_, ?_, ?_⟩
    · exact absurd hj' (habsent j' w (hs.reached j' key w hj'))
    all_goals simp [insert, hplace, Bucket.isEmpty, Bucket.isEntry]

section Puts

variable {index : Nat} {old : Bucket} {after : Table} {isNew : Bool}

theorem Puts.index_lt (h : Puts t key value index old after isNew) : index < t.buckets.size :=
  h.onPath.index_lt

theorem Puts.capacity_eq (h : Puts t key value index old after isNew) :
    after.capacity = t.capacity := by
  rw [capacity, h.buckets_eq, Array.size_setIfInBounds, capacity]

theorem Puts.layout (h : Puts t key value index old after isNew) (ht : t.Layout)
    (hroom : 4 * (t.used + 1) ≤ 3 * t.capacity) : after.Layout := by
  have hsearch : Searchable after.buckets := by
    rw [h.buckets_eq]
    refine ht.searchable.write (by simp) ?_
    intro k v hk
    cases hk
    exact ⟨h.onPath, h.only⟩
  refine ⟨by rw [h.capacity_eq]; exact ht.capacity_eq, ?_, ?_, ?_, hsearch.distinct,
    hsearch.reached⟩
  · have hcount := countP_write (p := fun b => !b.isEmpty) (b := .entry key value) h.was
    rw [h.buckets_eq, h.used_eq, ht.used_eq]
    cases old <;> simpa [Bucket.isEmpty, eq_comm] using hcount
  · have hcount := countP_write (p := Bucket.isEntry) (b := .entry key value) h.was
    rw [h.buckets_eq, h.size_eq, ht.size_eq]
    cases old <;> simpa [Bucket.isEntry, eq_comm] using hcount
  · rw [h.capacity_eq, h.used_eq]
    split <;> omega

/-- The key is bound, and nothing else has changed. -/
theorem Puts.mem_entries (h : Puts t key value index old after isNew) {e : Symbol × Value} :
    e ∈ after.entries ↔ e = (key, value) ∨ (e.1 ≠ key ∧ e ∈ t.entries) := by
  rw [Table.mem_entries, Table.mem_entries, h.buckets_eq]
  constructor
  · rintro ⟨j, hj⟩
    rcases eq_or_ne index j with rfl | hne
    · rw [Array.getElem?_setIfInBounds_self_of_lt h.index_lt] at hj
      cases hj
      exact .inl rfl
    · rw [Array.getElem?_setIfInBounds_ne hne] at hj
      refine .inr ⟨fun hk => hne ?_, j, hj⟩
      rw [hk] at hj
      exact (h.only j _ hj).symm
  · rintro (rfl | ⟨hk, j, hj⟩)
    · exact ⟨index, Array.getElem?_setIfInBounds_self_of_lt h.index_lt⟩
    · have hne : index ≠ j := by
        rintro rfl
        rw [h.was] at hj
        exact hk (h.same_key _ _ (Option.some.inj hj))
      exact ⟨j, by rwa [Array.getElem?_setIfInBounds_ne hne]⟩

/-- The key was new if nothing bound it. -/
theorem Puts.isNew_iff (h : Puts t key value index old after isNew) :
    isNew = true ↔ ∀ v, (key, v) ∉ t.entries := by
  rw [h.isNew_eq]
  simp only [Table.mem_entries, not_exists]
  constructor
  · intro hold v j hj
    rw [h.only j v hj, h.was] at hj
    cases hj
    cases hold
  · intro habsent
    cases hb : old with
    | entry k v =>
      have hwas := h.was
      rw [hb, h.same_key k v hb] at hwas
      exact absurd hwas (habsent v index)
    | empty => rfl
    | tombstone => rfl

end Puts

theorem Layout.insert (h : t.Layout) : (t.insert key value).1.Layout := by
  obtain ⟨index, old, hputs⟩ := exists_puts h key value
  exact hputs.layout h.reserve h.room_reserve

theorem mem_entries_insert (h : t.Layout) {e : Symbol × Value} :
    e ∈ (t.insert key value).1.entries ↔ e = (key, value) ∨ (e.1 ≠ key ∧ e ∈ t.entries) := by
  obtain ⟨index, old, hputs⟩ := exists_puts h key value
  rw [hputs.mem_entries, mem_entries_reserve h]

/-- A bucket that was empty is taken by a new key only. -/
theorem used_insert_le (h : t.Layout) :
    (t.insert key value).1.used ≤ t.reserve.used + (t.insert key value).2.toNat := by
  obtain ⟨index, old, hputs⟩ := exists_puts h key value
  rw [hputs.used_eq, hputs.isNew_eq]
  cases old <;> simp [Bucket.isEmpty, Bucket.isEntry]

/-- A key is bound to what it was bound to last. -/
theorem get?_insert (h : t.Layout) {k : Symbol} :
    (t.insert key value).1.get? k = if k = key then some value else t.get? k := by
  apply Option.ext
  intro v
  rw [get?_eq_some_iff h.insert, mem_entries_insert h]
  split
  · next hk => simp [hk, eq_comm]
  · next hk => simp [hk, get?_eq_some_iff h]

theorem insert_isNew_iff (h : t.Layout) :
    (t.insert key value).2 = true ↔ t.get? key = none := by
  obtain ⟨index, old, hputs⟩ := exists_puts h key value
  rw [hputs.isNew_iff, get?_eq_none_iff h]
  simp only [mem_entries_reserve h]

theorem Layout.nodup_entries (h : t.Layout) : t.entries.Nodup :=
  h.searchable.pairwise_entries.imp fun hne heq => hne (congrArg Prod.fst heq)

/-- A new key makes one more entry. -/
theorem perm_entries_insert (h : t.Layout) (hk : t.get? key = none) :
    (t.insert key value).1.entries.Perm ((key, value) :: t.entries) := by
  rw [get?_eq_none_iff h] at hk
  refine (List.perm_ext_iff_of_nodup h.insert.nodup_entries
    (List.nodup_cons.2 ⟨hk value, h.nodup_entries⟩)).2 fun e => ?_
  rw [mem_entries_insert h, List.mem_cons]
  refine or_congr_right ⟨And.right, fun he => ⟨fun heq => ?_, he⟩⟩
  exact hk e.2 (heq ▸ he)

/-! ## Deletion -/

/-- A deletion of a key that is there writes a tombstone over its bucket. -/
theorem erase_of_entry (h : t.Layout) {i : Nat} {v : Value}
    (hi : t.buckets[i]? = some (.entry key v)) : t.erase key =
      ({ t with buckets := t.buckets.setIfInBounds i .tombstone, size := t.size - 1 }, true) := by
  rw [erase, h.searchable.locate?_of_entry hi]

theorem erase_of_absent (hk : t.get? key = none) : t.erase key = (t, false) := by
  unfold erase
  split
  · next i v hloc => rw [get?, hloc] at hk; cases hk
  · rfl

theorem Layout.erase (h : t.Layout) : (t.erase key).1.Layout := by
  cases hget : t.get? key with
  | none => rw [erase_of_absent hget]; exact h
  | some v =>
    obtain ⟨i, hi⟩ := Table.mem_entries.1 ((get?_eq_some_iff h).1 hget)
    rw [erase_of_entry h hi]
    have hsearch : Searchable (t.buckets.setIfInBounds i .tombstone) :=
      h.searchable.write (by simp) fun _ _ hk => by cases hk
    refine ⟨by simpa [capacity] using h.capacity_eq, ?_, ?_, by simpa [capacity] using h.load,
      hsearch.distinct, hsearch.reached⟩
    · have hcount := countP_write (p := fun b => !b.isEmpty) (b := .tombstone) hi
      simpa [Bucket.isEmpty, h.used_eq, eq_comm] using hcount
    · have hcount := countP_write (p := Bucket.isEntry) (b := .tombstone) hi
      rw [← h.size_eq] at hcount
      exact Nat.sub_eq_of_eq_add hcount.symm

theorem mem_entries_erase (h : t.Layout) {e : Symbol × Value} :
    e ∈ (t.erase key).1.entries ↔ e.1 ≠ key ∧ e ∈ t.entries := by
  cases hget : t.get? key with
  | none =>
    rw [erase_of_absent hget]
    refine ⟨fun he => ⟨fun hk => ?_, he⟩, And.right⟩
    exact (get?_eq_none_iff h).1 hget e.2 (hk ▸ he)
  | some v =>
    obtain ⟨i, hi⟩ := Table.mem_entries.1 ((get?_eq_some_iff h).1 hget)
    rw [erase_of_entry h hi, Table.mem_entries, Table.mem_entries]
    obtain ⟨hlt, -⟩ := Array.getElem?_eq_some_iff.1 hi
    constructor
    · rintro ⟨j, hj⟩
      rcases eq_or_ne i j with rfl | hne
      · rw [Array.getElem?_setIfInBounds_self_of_lt hlt] at hj
        cases hj
      · rw [Array.getElem?_setIfInBounds_ne hne] at hj
        refine ⟨fun hk => hne ?_, j, hj⟩
        rw [hk] at hj
        exact h.distinct _ _ _ _ _ hi hj
    · rintro ⟨hk, j, hj⟩
      have hne : i ≠ j := by
        rintro rfl
        rw [hi] at hj
        cases hj
        exact hk rfl
      exact ⟨j, by rwa [Array.getElem?_setIfInBounds_ne hne]⟩

theorem get?_erase (h : t.Layout) {k : Symbol} :
    (t.erase key).1.get? k = if k = key then none else t.get? k := by
  apply Option.ext
  intro v
  rw [get?_eq_some_iff h.erase, mem_entries_erase h]
  split
  · next hk => simp [hk]
  · next hk => simp [hk, get?_eq_some_iff h]

/-! ## Pruning -/

theorem mem_entries_prune {keep : Symbol → Bool} {e : Symbol × Value} :
    e ∈ (t.prune keep).1.entries ↔ keep e.1 = true ∧ e ∈ t.entries := by
  rw [mem_entries, mem_entries]
  simp only [prune, Array.getElem?_map, Option.map_eq_some_iff]
  constructor
  · rintro ⟨j, b, hb, hentry⟩
    split at hentry
    · cases hentry
    · next hstale =>
      subst hentry
      exact ⟨by simpa [Bucket.isStale] using hstale, j, hb⟩
  · rintro ⟨hkeep, j, hj⟩
    exact ⟨j, _, hj, by simp [Bucket.isStale, hkeep]⟩

/-- Pruning answers how many entries it has dropped. -/
theorem prune_dropped_eq (keep : Symbol → Bool) :
    (t.prune keep).2 = t.entries.countP fun e => !keep e.1 := by
  rw [prune, entries, List.countP_filterMap, ← Array.countP_toList]
  refine List.countP_congr fun b _ => ?_
  cases b with
  | entry key v => simp [Bucket.isStale, Bucket.binding?]
  | empty | tombstone => simp [Bucket.isStale, Bucket.binding?]

/-- Nothing is pruned from a table whose keys are all to be kept. -/
theorem prune_eq_self {keep : Symbol → Bool} (hkeep : ∀ e ∈ t.entries, keep e.1 = true) :
    t.prune keep = (t, 0) := by
  have hfresh : ∀ b ∈ t.buckets, b.isStale keep = false := by
    intro b hb
    cases b with
    | entry key v =>
      have he : (key, v) ∈ t.entries :=
        List.mem_filterMap.2 ⟨_, Array.mem_toList_iff.2 hb, rfl⟩
      simp [Bucket.isStale, hkeep _ he]
    | empty | tombstone => rfl
  have hremoved : t.buckets.countP (Bucket.isStale keep) = 0 :=
    Array.countP_eq_zero.2 fun b hb => by simp [hfresh b hb]
  have hbuckets : (t.buckets.map fun b => if b.isStale keep then .tombstone else b) =
      t.buckets := by
    conv_rhs => rw [← Array.map_id t.buckets]
    exact Array.map_congr_left fun b hb => by simp [hfresh b hb]
  rw [prune, hremoved, hbuckets]
  rfl

/-- Pruning keeps every path, since no bucket becomes empty. -/
theorem OnPath.prune {keep : Symbol → Bool} {hash : UInt32} {i : Nat}
    (h : OnPath t.buckets hash i) : OnPath (t.prune keep).1.buckets hash i := by
  obtain ⟨steps, hlt, hprobe, hpass⟩ := h
  refine ⟨steps, by simpa [Table.prune] using hlt, by simpa [Table.prune] using hprobe,
    fun earlier he hempty => ?_⟩
  simp only [Table.prune, Array.size_map, Array.getElem?_map, Option.map_eq_some_iff] at hempty
  obtain ⟨b, hb, hb'⟩ := hempty
  split at hb'
  · cases hb'
  · exact hpass earlier he (hb' ▸ hb)

/-- An entry is dropped by pruning or is still there. -/
theorem countP_isEntry_prune (keep : Symbol → Bool) (l : List Bucket) :
    l.countP Bucket.isEntry = l.countP (Bucket.isStale keep) +
      l.countP (Bucket.isEntry ∘ fun b => if b.isStale keep then .tombstone else b) := by
  induction l with
  | nil => rfl
  | cons b l ih =>
    rw [List.countP_cons, List.countP_cons, List.countP_cons, ih]
    cases b with
    | empty => rfl
    | tombstone => rfl
    | entry k v =>
      by_cases hk : keep k = true <;>
        simp only [Function.comp_apply, Bucket.isStale, Bucket.isEntry, hk] <;> simp <;> omega

theorem Layout.prune (h : t.Layout) (keep : Symbol → Bool) : (t.prune keep).1.Layout := by
  -- An entry of the pruned array was there before.
  have hentry : ∀ (i : Nat) k v, (t.prune keep).1.buckets[i]? = some (.entry k v) →
      t.buckets[i]? = some (.entry k v) := by
    intro i k v hi
    simp only [Table.prune, Array.getElem?_map, Option.map_eq_some_iff] at hi
    obtain ⟨b, hb, hb'⟩ := hi
    split at hb'
    · cases hb'
    · exact hb' ▸ hb
  refine ⟨by simpa [capacity, Table.prune] using h.capacity_eq, ?_, ?_,
    by simpa [capacity, Table.prune] using h.load,
    fun i j k v w hi hj => h.distinct i j k v w (hentry i k v hi) (hentry j k w hj),
    fun i k v hi => (h.searchable.reached i k v (hentry i k v hi)).prune⟩
  · simp only [Table.prune, Array.countP_map]
    rw [h.used_eq]
    refine Array.countP_congr fun b _ => ?_
    cases b with
    | entry k v => by_cases hk : keep k = true <;> simp [Bucket.isStale, Bucket.isEmpty, hk]
    | empty => rfl
    | tombstone => rfl
  · have hcount := countP_isEntry_prune keep t.buckets.toList
    simp only [Array.countP_toList] at hcount
    simp only [Table.prune, Array.countP_map, h.size_eq]
    exact Nat.sub_eq_of_eq_add' hcount

/-! ## Merging -/

theorem Layout.foldl_insert (h : t.Layout) (entries : List (Symbol × Value)) :
    (entries.foldl (fun t e => (t.insert e.1 e.2).1) t).Layout := by
  induction entries generalizing t with
  | nil => exact h
  | cons e rest ih => exact ih h.insert

theorem Layout.merge (h : t.Layout) (other : Table) : (t.merge other).Layout :=
  h.foldl_insert other.entries

/-- Of entries that are inserted one after the other each is found, if no key comes twice. -/
theorem get?_foldl_insert (h : t.Layout) {entries : List (Symbol × Value)}
    (hkeys : entries.Pairwise fun e f => e.1 ≠ f.1) {k : Symbol} :
    (entries.foldl (fun t e => (t.insert e.1 e.2).1) t).get? k =
      (entries.lookup k).or (t.get? k) := by
  induction entries generalizing t with
  | nil => simp
  | cons e rest ih =>
    obtain ⟨key, v⟩ := e
    rw [List.pairwise_cons] at hkeys
    rw [List.foldl_cons, ih h.insert hkeys.2, get?_insert h, List.lookup_cons]
    by_cases hk : k = key
    · subst hk
      have hrest : rest.lookup k = none :=
        List.lookup_eq_none_iff.2 fun e he => by simpa using hkeys.1 e he
      simp [hrest]
    · have hk' : (k == key) = false := by simpa using hk
      simp [hk, hk']

/-- Merging is union, in which the other table wins. -/
theorem get?_merge (h : t.Layout) (ho : other.Layout) {k : Symbol} :
    (t.merge other).get? k = (other.get? k).or (t.get? k) := by
  rw [get?_eq_lookup ho]
  exact get?_foldl_insert h ho.searchable.pairwise_entries

/-! ## Every table -/

theorem Built.layout (h : t.Built) : t.Layout := by
  induction h with
  | empty => exact .empty
  | insert _ _ _ ih => exact ih.insert
  | erase _ _ ih => exact ih.erase
  | merge _ _ ih _ => exact ih.merge _
  | prune keep _ ih => exact ih.prune keep

end Table

end ObjectHeap
