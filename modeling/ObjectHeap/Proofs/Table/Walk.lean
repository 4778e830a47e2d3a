import ObjectHeap.Proofs.Table.Content
import ObjectHeap.Proofs.Table.Masking

/-!
# The walk of a search by content

`findText?` gives up after as many buckets as there are. The bound is there for the definition's
sake, and `Walks` is the same search without it: from bucket to bucket for as long as it takes, with
an account of which keys are resolved on the way. A walk that ends is what the bounded search does
(`Walks.findFrom_eq`), and in a table that is laid out every walk ends, since it comes to an empty
bucket if it meets no match before.

What is resolved is told by the search itself. `noting` is a way of resolving that keeps a list of
the keys it was called for, and a search is free to be run with it because it runs with any effects.
-/

set_option autoImplicit false

namespace ObjectHeap

namespace Table

variable {t : Table} {buckets : Array Bucket} {text : String} {hash : UInt32}
  {resolve : Symbol → String}

/-- The search for a text from a bucket onwards, without a bound: how many buckets it looks at,
which key it answers, and which keys it resolves, in order. -/
inductive Walks (buckets : Array Bucket) (text : String) (hash : UInt32)
    (resolve : Symbol → String) :
    (index probes : Nat) → (found : Option Symbol) → (resolved : List Symbol) → Prop
  | empty {index : Nat} : buckets[index]? = some .empty →
    Walks buckets text hash resolve index 1 none []
  | tombstone {index probes : Nat} {found : Option Symbol} {resolved : List Symbol} :
    buckets[index]? = some .tombstone →
    Walks buckets text hash resolve (next buckets.size index) probes found resolved →
    Walks buckets text hash resolve index (probes + 1) found resolved
  /-- The hashes differ, and the key is not resolved. -/
  | otherHash {index probes : Nat} {found : Option Symbol} {resolved : List Symbol} {key : Symbol}
    {v : Value} : buckets[index]? = some (.entry key v) → key.hash ≠ hash →
    Walks buckets text hash resolve (next buckets.size index) probes found resolved →
    Walks buckets text hash resolve index (probes + 1) found resolved
  | otherText {index probes : Nat} {found : Option Symbol} {resolved : List Symbol} {key : Symbol}
    {v : Value} : buckets[index]? = some (.entry key v) → key.hash = hash → resolve key ≠ text →
    Walks buckets text hash resolve (next buckets.size index) probes found resolved →
    Walks buckets text hash resolve index (probes + 1) found (key :: resolved)
  | found {index : Nat} {key : Symbol} {v : Value} : buckets[index]? = some (.entry key v) →
    key.hash = hash → resolve key = text →
    Walks buckets text hash resolve index 1 (some key) [key]

/-- Resolves a key and notes it. -/
def noting (resolve : Symbol → String) (key : Symbol) : StateM (List Symbol) String :=
  fun noted => (resolve key, noted ++ [key])

/-- A search ends where the walk ends, if it may look at as many buckets or at more. -/
theorem Walks.findFrom_eq {index probes : Nat} {found : Option Symbol} {resolved : List Symbol}
    (hw : Walks buckets text hash resolve index probes found resolved) (more : Nat)
    (noted : List Symbol) :
    (findFrom buckets text hash (noting resolve) (more + probes) index).run noted =
      (found, noted ++ resolved) := by
  induction hw generalizing noted with
  | empty hb =>
    rw [findFrom, hb, List.append_nil]
    rfl
  | tombstone hb _ ih =>
    rw [← Nat.add_assoc, findFrom, hb]
    exact ih noted
  | otherHash hb hne _ ih =>
    rw [← Nat.add_assoc, findFrom, hb]
    simp only [if_neg hne]
    exact ih noted
  | @otherText _ _ _ _ key _ hb heq hne _ ih =>
    have hrest := ih (noted ++ [key])
    rw [List.append_assoc, List.singleton_append] at hrest
    rw [← Nat.add_assoc, findFrom, hb]
    simp only [if_pos heq, StateT.run_bind]
    show StateT.run (if resolve key = text then _ else _) (noted ++ [key]) = _
    rw [if_neg hne]
    exact hrest
  | @found _ key _ hb heq htext =>
    rw [findFrom, hb]
    simp only [if_pos heq, StateT.run_bind]
    show StateT.run (if resolve key = text then _ else _) (noted ++ [key]) = _
    rw [if_pos htext]
    rfl

/-- A walk resolves keys of the table only, and of those only such as have the hash. -/
theorem Walks.of_mem_resolved {index probes : Nat} {found : Option Symbol}
    {resolved : List Symbol} (hw : Walks buckets text hash resolve index probes found resolved)
    {key : Symbol} (hkey : key ∈ resolved) :
    key.hash = hash ∧ ∃ (i : Nat) (v : Value), buckets[i]? = some (.entry key v) := by
  induction hw with
  | empty _ => cases hkey
  | tombstone _ _ ih => exact ih hkey
  | otherHash _ _ _ ih => exact ih hkey
  | otherText hb heq _ _ ih =>
    rcases List.mem_cons.1 hkey with rfl | hlater
    · exact ⟨heq, _, _, hb⟩
    · exact ih hlater
  | found hb heq _ =>
    obtain rfl := List.mem_singleton.1 hkey
    exact ⟨heq, _, _, hb⟩

/-- The walk from the home of a hash comes to the first bucket that is empty or matches, and ends
there. -/
theorem walks_of_first {steps : Nat} {b : Bucket} (hlt : steps < t.capacity)
    (hp : ∀ earlier < steps, ∀ b, t.buckets[probe t.capacity hash earlier]? = some b →
      ¬(b = .empty ∨ b.Matches text hash resolve))
    (hb : t.buckets[probe t.capacity hash steps]? = some b)
    (hstop : b = .empty ∨ b.Matches text hash resolve) :
    ∃ resolved, Walks t.buckets text hash resolve (home t.capacity hash) (steps + 1)
      (b.binding?.map Prod.fst) resolved := by
  -- From the last bucket backwards: what is left of the walk so many buckets before its end.
  have hback : ∀ left ≤ steps, ∃ resolved, Walks t.buckets text hash resolve
      (probe t.capacity hash (steps - left)) (left + 1) (b.binding?.map Prod.fst) resolved := by
    intro left
    induction left with
    | zero =>
      intro _
      cases b with
      | empty => exact ⟨[], .empty hb⟩
      | tombstone => simp [Bucket.Matches] at hstop
      | entry key v =>
        have hmatch : key.hash = hash ∧ resolve key = text := by simpa [Bucket.Matches] using hstop
        exact ⟨[key], .found hb hmatch.1 hmatch.2⟩
    | succ left ih =>
      intro hle
      obtain ⟨resolved, hrest⟩ := ih (by omega)
      rw [show steps - left = steps - (left + 1) + 1 by omega, ← next_probe] at hrest
      obtain ⟨b', hb'⟩ : ∃ b', t.buckets[probe t.capacity hash (steps - (left + 1))]? = some b' :=
        exists_getElem?_probe (Nat.lt_of_le_of_lt (Nat.zero_le _) hlt) hash _
      have hpass := hp (steps - (left + 1)) (by omega) b' hb'
      cases b' with
      | empty => simp at hpass
      | tombstone => exact ⟨resolved, .tombstone hb' hrest⟩
      | entry key v =>
        by_cases heq : key.hash = hash
        · have htext : resolve key ≠ text := by simpa [Bucket.Matches, heq] using hpass
          exact ⟨key :: resolved, .otherText hb' heq htext hrest⟩
        · exact ⟨resolved, .otherHash hb' heq hrest⟩
  obtain ⟨resolved, hw⟩ := hback steps (Nat.le_refl _)
  rw [Nat.sub_self, probe_zero] at hw
  exact ⟨resolved, hw⟩

/-! ## Exact searches -/

/-- What a search by content is to answer, and what it may resolve. -/
structure FindsExactly (t : Table) (text : String) (hash : UInt32) (resolve : Symbol → String)
    (found : Option Symbol) (resolved : List Symbol) : Prop where
  /-- The walk from the home of the hash ends, and it looks at no bucket twice. -/
  walks : 0 < t.capacity → ∃ probes ≤ t.capacity,
    Walks t.buckets text hash resolve (home t.capacity hash) probes found resolved
  /-- What is found is a key of the table with this hash and this text. -/
  of_some : ∀ key, found = some key →
    (∃ v, (key, v) ∈ t.entries) ∧ key.hash = hash ∧ resolve key = text
  /-- Nothing is found only where there is no such key. -/
  of_none : found = none → ∀ key v, (key, v) ∈ t.entries →
    ¬(key.hash = hash ∧ resolve key = text)
  /-- Of several such keys the first is found, counted from the bucket that the hash is masked to. -/
  first : ∀ key, found = some key → ∃ steps < t.capacity,
    (∃ v, t.HoldsAt (maskedProbe t.capacity hash steps) key v) ∧
    ∀ earlier < steps, ∀ other v, t.HoldsAt (maskedProbe t.capacity hash earlier) other v →
      ¬(other.hash = hash ∧ resolve other = text)
  /-- Only keys of the table are resolved, and of those only such as have the hash. -/
  resolves : ∀ key ∈ resolved, (∃ v, (key, v) ∈ t.entries) ∧ key.hash = hash
  bound : ∀ key, found = some key → ∃ v, t.get? key = some v

/-- In a table with buckets, the bucket at which a search stops. -/
theorem Layout.exists_stop (hl : t.Layout) (hpos : 0 < t.capacity) (text : String) (hash : UInt32)
    (resolve : Symbol → String) : ∃ steps < t.capacity,
      (∃ b, t.buckets[probe t.capacity hash steps]? = some b ∧
        (b = .empty ∨ b.Matches text hash resolve)) ∧
      ∀ earlier < steps, ∀ b, t.buckets[probe t.capacity hash earlier]? = some b →
        ¬(b = .empty ∨ b.Matches text hash resolve) := by
  obtain ⟨i, hi⟩ := hl.exists_empty hpos
  exact exists_first (P := fun b => b = .empty ∨ b.Matches text hash resolve) hash hi (.inl rfl)

/-- The search of a table is the walk over its buckets, if there are any. -/
theorem Layout.exists_walks (hl : t.Layout) (text : String) (hash : UInt32)
    (resolve : Symbol → String) : ∃ resolved,
      (t.findText? text hash (noting resolve)).run [] = (t.search text hash resolve, resolved) ∧
      (t.capacity = 0 → resolved = []) ∧
      (0 < t.capacity → ∃ probes ≤ t.capacity, Walks t.buckets text hash resolve
        (home t.capacity hash) probes (t.search text hash resolve) resolved) := by
  rcases Nat.eq_zero_or_pos t.capacity with hzero | hpos
  · refine ⟨[], ?_, fun _ => rfl, fun hpos => absurd hzero (Nat.ne_of_gt hpos)⟩
    rw [search, findText?, findText?, hzero]
    rfl
  · obtain ⟨steps, hlt, ⟨b, hb, hstop⟩, hp⟩ := hl.exists_stop hpos text hash resolve
    obtain ⟨resolved, hw⟩ := walks_of_first hlt hp hb hstop
    rw [← search_of_first hlt hp hb hstop] at hw
    refine ⟨resolved, ?_, fun hzero => absurd hzero (Nat.ne_of_gt hpos),
      fun _ => ⟨steps + 1, hlt, hw⟩⟩
    have hrun := hw.findFrom_eq (t.capacity - (steps + 1)) []
    rwa [Nat.sub_add_cancel hlt] at hrun

/-- The key that is found is the first on the path that matches. -/
theorem Layout.first_of_search (hl : t.Layout) {key : Symbol}
    (hs : t.search text hash resolve = some key) : ∃ steps < t.capacity,
      (∃ v, t.HoldsAt (maskedProbe t.capacity hash steps) key v) ∧
      ∀ earlier < steps, ∀ other v, t.HoldsAt (maskedProbe t.capacity hash earlier) other v →
        ¬(other.hash = hash ∧ resolve other = text) := by
  have hpos : 0 < t.capacity := by
    obtain ⟨⟨v, he⟩, -⟩ := of_search_eq_some hl hs
    obtain ⟨i, hi⟩ := mem_entries.1 he
    exact Nat.lt_of_le_of_lt (Nat.zero_le i) (Array.getElem?_eq_some_iff.1 hi).1
  obtain ⟨steps, hlt, ⟨b, hb, hstop⟩, hp⟩ := hl.exists_stop hpos text hash resolve
  rw [search_of_first hlt hp hb hstop] at hs
  refine ⟨steps, hlt, ?_, ?_⟩
  · rw [hl.maskedProbe_eq hpos]
    cases b with
    | empty | tombstone => cases hs
    | entry k v =>
      obtain rfl : k = key := Option.some.inj hs
      exact ⟨v, hb⟩
  · intro earlier he other v hother hmatch
    rw [hl.maskedProbe_eq hpos] at hother
    exact hp earlier he _ hother (.inr hmatch)

theorem Layout.findsExactly (hl : t.Layout) (text : String) (hash : UInt32)
    (resolve : Symbol → String) : ∃ resolved,
      (t.findText? text hash (noting resolve)).run [] = (t.search text hash resolve, resolved) ∧
      t.FindsExactly text hash resolve (t.search text hash resolve) resolved := by
  obtain ⟨resolved, hrun, hzero, hwalks⟩ := hl.exists_walks text hash resolve
  refine ⟨resolved, hrun, hwalks, fun key => of_search_eq_some hl, ?_,
    fun key => hl.first_of_search, ?_, ?_⟩
  · intro hnone key v he hmatch
    obtain ⟨found, hfound⟩ := exists_search_eq_some hl he hmatch.1 hmatch.2
    rw [hnone] at hfound
    cases hfound
  · intro key hkey
    rcases Nat.eq_zero_or_pos t.capacity with h0 | hpos
    · rw [hzero h0] at hkey
      cases hkey
    · obtain ⟨probes, -, hw⟩ := hwalks hpos
      obtain ⟨hhash, i, v, hi⟩ := hw.of_mem_resolved hkey
      exact ⟨⟨v, mem_entries.2 ⟨i, hi⟩⟩, hhash⟩
  · intro key hsome
    obtain ⟨⟨v, he⟩, -⟩ := of_search_eq_some hl hsome
    exact ⟨v, (get?_eq_some_iff hl).2 he⟩

end Table

/-- **Searching by content is exact on every table.** Whatever commands have led to a table, and
however keys are resolved, the search with and without an account of the resolved keys gives one
answer, and that is the first key that matches. -/
theorem Store.searches_exactly (commands : List Table.Command) (i : Nat) (text : String)
    (hash : UInt32) (resolve : Symbol → String) :
    ∃ found resolved, ∃ t : Table, ((init Table.operations).run Table.operations commands).1 i = t ∧
      t.search text hash resolve = found ∧
      (t.findText? text hash (Table.noting resolve)).run [] = (found, resolved) ∧
      t.FindsExactly text hash resolve found resolved := by
  obtain ⟨resolved, hrun, hexact⟩ :=
    (layout_run layout_init commands i).findsExactly text hash resolve
  exact ⟨_, resolved, _, rfl, rfl, hrun, hexact⟩

end ObjectHeap
