import ObjectHeap.Proofs.Table.Bindings
import ObjectHeap.Table.Search

/-!
# Searching by content is exact

`findText?` walks like `locate?` and tests otherwise: it stops at the first bucket that is empty or
whose key has the given hash and resolves to the given text (`Matches`). Resolving may have effects,
but only keys of entries with this hash are ever resolved; where those resolve without effects, so
does the search (`findText?_eq_pure`), and it finds a matching key whenever there is one.
-/

set_option autoImplicit false

namespace ObjectHeap

/-- The bucket holds a key with this hash and this text. -/
def Bucket.Matches (text : String) (hash : UInt32) (resolve : Symbol → String) : Bucket → Prop
  | .empty | .tombstone => False
  | .entry key _ => key.hash = hash ∧ resolve key = text

namespace Table

variable {buckets : Array Bucket} {text : String} {hash : UInt32} {resolve : Symbol → String}

/-- A search has no effects but those of resolving keys with the hash that is looked for. -/
theorem findFrom_eq_pure {m : Type → Type} [Monad m] [LawfulMonad m] {f : Symbol → m String}
    (hf : ∀ (i : Nat) k v, buckets[i]? = some (.entry k v) → k.hash = hash → f k = pure (resolve k))
    (steps index : Nat) : findFrom buckets text hash f steps index =
      pure (Id.run (findFrom buckets text hash (fun k => pure (resolve k)) steps index)) := by
  induction steps generalizing index with
  | zero => rfl
  | succ steps ih =>
    unfold findFrom
    cases hb : buckets[index]? with
    | none => rfl
    | some b =>
      cases b with
      | empty => rfl
      | tombstone => exact ih _
      | entry k v =>
        by_cases hk : k.hash = hash
        · by_cases ht : resolve k = text <;> simp [hk, hf index k v hb hk, ht, ih]
        · simp [hk, ih]

/-- The plain search for a text, in which keys are resolved without effects. -/
def search (t : Table) (text : String) (hash : UInt32) (resolve : Symbol → String) :
    Option Symbol :=
  Id.run (t.findText? text hash fun k => pure (resolve k))

theorem findText?_eq_pure {t : Table} {m : Type → Type} [Monad m] [LawfulMonad m]
    {f : Symbol → m String}
    (hf : ∀ e ∈ t.entries, e.1.hash = hash → f e.1 = pure (resolve e.1)) :
    t.findText? text hash f = pure (t.search text hash resolve) :=
  findFrom_eq_pure (fun i k v hb hk => hf (k, v) (mem_entries.2 ⟨i, hb⟩) hk) _ _

/-- What is left of a search after so many steps, none of which ended it. -/
theorem findFrom_home {steps : Nat} (h : steps ≤ buckets.size)
    (hp : ∀ earlier < steps, ∀ b, buckets[probe buckets.size hash earlier]? = some b →
      ¬(b = .empty ∨ b.Matches text hash resolve)) :
    Id.run (findFrom buckets text hash (fun k => pure (resolve k)) buckets.size
        (home buckets.size hash)) =
      Id.run (findFrom buckets text hash (fun k => pure (resolve k)) (buckets.size - steps)
        (probe buckets.size hash steps)) := by
  induction steps with
  | zero => rw [probe_zero]; rfl
  | succ steps ih =>
    rw [ih (by omega) fun earlier he => hp earlier (by omega),
      show buckets.size - steps = (buckets.size - (steps + 1)) + 1 by omega, findFrom]
    obtain ⟨b, hb⟩ : ∃ b, buckets[probe buckets.size hash steps]? = some b :=
      exists_getElem?_probe (by omega) hash steps
    have hpass := hp steps (by omega) b hb
    rw [hb]
    cases b with
    | empty => exact absurd (.inl rfl) hpass
    | tombstone => simp only [next_probe]
    | entry k v =>
      by_cases hk : k.hash = hash
      · have ht : resolve k ≠ text := fun ht => hpass (.inr ⟨hk, ht⟩)
        simp [hk, ht, next_probe]
      · simp [hk, next_probe]

/-- A search ends at the first bucket that is empty or matches, and answers the key there. -/
theorem search_of_first {t : Table} {steps : Nat} {b : Bucket} (h : steps < t.capacity)
    (hp : ∀ earlier < steps, ∀ b, t.buckets[probe t.capacity hash earlier]? = some b →
      ¬(b = .empty ∨ b.Matches text hash resolve))
    (hb : t.buckets[probe t.capacity hash steps]? = some b)
    (hstop : b = .empty ∨ b.Matches text hash resolve) :
    t.search text hash resolve = b.binding?.map Prod.fst := by
  have hrest : t.buckets.size - steps = (t.buckets.size - (steps + 1)) + 1 := by
    unfold capacity at h
    omega
  rw [search, findText?, capacity, findFrom_home (Nat.le_of_lt h) hp, hrest, findFrom,
    show t.buckets[probe t.buckets.size hash steps]? = some b from hb]
  rcases hstop with rfl | hmatch
  · rfl
  · cases b with
    | empty => rfl
    | tombstone => exact absurd hmatch id
    | entry k v => simp [hmatch.1, hmatch.2, Bucket.binding?]

/-- What a search finds is a key of the table that matches. -/
theorem of_search_eq_some {t : Table} (h : t.Layout) {key : Symbol}
    (hs : t.search text hash resolve = some key) :
    (∃ v, (key, v) ∈ t.entries) ∧ key.hash = hash ∧ resolve key = text := by
  have hpos : 0 < t.capacity := by
    apply Nat.pos_of_ne_zero
    intro h0
    rw [search, findText?, h0] at hs
    cases hs
  obtain ⟨i, hi⟩ := h.exists_empty hpos
  obtain ⟨steps, hlt, ⟨b, hb, hstop⟩, hp⟩ :=
    exists_first (P := fun b => b = .empty ∨ b.Matches text hash resolve) hash hi (.inl rfl)
  rw [search_of_first hlt hp hb hstop] at hs
  cases b with
  | empty => cases hs
  | tombstone => cases hs
  | entry k v =>
    obtain rfl : k = key := Option.some.inj hs
    rcases hstop with hempty | hmatch
    · cases hempty
    · exact ⟨⟨v, mem_entries.2 ⟨_, hb⟩⟩, hmatch⟩

/-- Where a key matches, a search finds one. -/
theorem exists_search_eq_some {t : Table} (h : t.Layout) {e : Symbol × Value}
    (he : e ∈ t.entries) (hhash : e.1.hash = hash) (htext : resolve e.1 = text) :
    ∃ key, t.search text hash resolve = some key := by
  obtain ⟨i, hi⟩ := mem_entries.1 he
  obtain ⟨j, hj, rfl, hpass⟩ := h.searchable.reached i e.1 e.2 hi
  rw [hhash] at hi hpass
  obtain ⟨steps, hlt, ⟨b, hb, hstop⟩, hp⟩ :=
    exists_first (P := fun b => b = .empty ∨ b.Matches text hash resolve) hash hi
      (.inr ⟨hhash, htext⟩)
  -- The search cannot have met an empty bucket, since the path goes on to the key.
  have hle : steps ≤ j := Nat.le_of_not_lt fun hjs => hp j hjs _ hi (.inr ⟨hhash, htext⟩)
  cases b with
  | entry k v => exact ⟨k, search_of_first hlt hp hb hstop⟩
  | tombstone =>
    rcases hstop with hempty | hmatch
    · cases hempty
    · exact absurd hmatch id
  | empty =>
    rcases Nat.lt_or_eq_of_le hle with hlt' | rfl
    · exact absurd hb (hpass steps hlt')
    · rw [hi] at hb
      cases hb

end Table

end ObjectHeap
