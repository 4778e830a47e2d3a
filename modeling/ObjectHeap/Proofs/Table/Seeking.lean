import ObjectHeap.Proofs.Table.Masking
import ObjectHeap.Proofs.Table.Reuse

/-!
# A search for a key ends at its place

`locate?` gives up after as many buckets as there are, and steps from one to the next by remainders.
`Seeks` is the same search without a bound, by masks: it goes on for as long as it takes. It need not
end at all, and in an array of buckets that are all in use by other keys it does not.

Where it does end, and with what answer, is said of arrays by `SearchedExactly`. Of a key that is
there it is the bucket of the key, however many tombstones come before it. Of a key that is not it
is the first tombstone on the path before the first empty bucket, and if there is none, that bucket.
An array has this property if its keys can be reached, its size is a power of two, and one of its
buckets is empty (`Searchable.searchedExactly`). Of a table with buckets all three are true at any
time.
-/

set_option autoImplicit false

namespace ObjectHeap

namespace Table

variable {buckets : Array Bucket} {key : Symbol} {e : Nat}

/-! ## The search without a bound -/

/-- The search for a key from a bucket onwards, if this is the first tombstone so far: how many
buckets it looks at, and the place it answers. -/
inductive Seeks (buckets : Array Bucket) (key : Symbol) :
    (index : Nat) → (spare : Option Nat) → (probes : Nat) → Place → Prop
  | empty {index : Nat} {spare : Option Nat} : buckets[index]? = some .empty →
    Seeks buckets key index spare 1 (.absent spare index)
  | tombstone {index probes : Nat} {spare : Option Nat} {place : Place} :
    buckets[index]? = some .tombstone →
    Seeks buckets key ((index + 1) &&& (buckets.size - 1)) (spare.or (some index)) probes place →
    Seeks buckets key index spare (probes + 1) place
  | held {index : Nat} {spare : Option Nat} {v : Value} :
    buckets[index]? = some (.entry key v) → Seeks buckets key index spare 1 (.held index v)
  | other {index probes : Nat} {spare : Option Nat} {place : Place} {k : Symbol} {v : Value} :
    buckets[index]? = some (.entry k v) → k ≠ key →
    Seeks buckets key ((index + 1) &&& (buckets.size - 1)) spare probes place →
    Seeks buckets key index spare (probes + 1) place

/-- A search can end in one way only. -/
theorem Seeks.unique {index probes probes' : Nat} {spare : Option Nat} {place place' : Place}
    (hs : Seeks buckets key index spare probes place)
    (hs' : Seeks buckets key index spare probes' place') : probes = probes' ∧ place = place' := by
  induction hs generalizing probes' place' with
  | empty hb =>
    cases hs' with
    | empty _ => exact ⟨rfl, rfl⟩
    | tombstone hb' | held hb' | other hb' => rw [hb] at hb'; cases hb'
  | tombstone hb _ ih =>
    cases hs' with
    | tombstone _ hrest =>
      obtain ⟨rfl, rfl⟩ := ih hrest
      exact ⟨rfl, rfl⟩
    | empty hb' | held hb' | other hb' => rw [hb] at hb'; cases hb'
  | held hb =>
    cases hs' with
    | held hb' =>
      rw [hb] at hb'
      cases hb'
      exact ⟨rfl, rfl⟩
    | other hb' hne =>
      rw [hb] at hb'
      cases hb'
      exact absurd rfl hne
    | empty hb' | tombstone hb' => rw [hb] at hb'; cases hb'
  | other hb hne _ ih =>
    cases hs' with
    | other hb' _ hrest =>
      obtain ⟨rfl, rfl⟩ := ih hrest
      exact ⟨rfl, rfl⟩
    | held hb' =>
      rw [hb] at hb'
      cases hb'
      exact absurd rfl hne
    | empty hb' | tombstone hb' => rw [hb] at hb'; cases hb'

/-- What a bounded search answers, the search without a bound answers after as many buckets at most. -/
theorem exists_seeks (hsize : buckets.size = 2 ^ e) {steps index : Nat} {spare : Option Nat}
    {place : Place} (hl : locateFrom buckets key steps index spare = some place) :
    ∃ probes ≤ steps, Seeks buckets key index spare probes place := by
  induction steps generalizing index spare with
  | zero => cases hl
  | succ steps ih =>
    rw [locateFrom, ← masked_succ_eq_next hsize] at hl
    cases hb : buckets[index]? with
    | none => rw [hb] at hl; cases hl
    | some b =>
      rw [hb] at hl
      cases b with
      | empty =>
        cases hl
        exact ⟨1, Nat.succ_le_succ (Nat.zero_le _), .empty hb⟩
      | tombstone =>
        obtain ⟨probes, hle, hs⟩ := ih hl
        exact ⟨probes + 1, Nat.succ_le_succ hle, .tombstone hb hs⟩
      | entry k v =>
        dsimp only at hl
        split at hl
        · next heq =>
          cases hl
          subst heq
          exact ⟨1, Nat.succ_le_succ (Nat.zero_le _), .held hb⟩
        · next hne =>
          obtain ⟨probes, hle, hs⟩ := ih hl
          exact ⟨probes + 1, Nat.succ_le_succ hle, .other hb hne hs⟩

/-! ## What it is to answer -/

/-- On the path of a hash, counted by masks, this is the first bucket of such content. -/
def FirstAt (buckets : Array Bucket) (hash : UInt32) (b : Bucket) (steps : Nat) : Prop :=
  buckets[maskedProbe buckets.size hash steps]? = some b ∧
    ∀ earlier < steps, buckets[maskedProbe buckets.size hash earlier]? ≠ some b

/-- The place of a key, as a search has to answer it. -/
structure FindsPlace (buckets : Array Bucket) (key : Symbol) (place : Place) : Prop where
  /-- The search ends, in one way only, and has looked at no more buckets than there are. -/
  seeks : ∃ probes ≤ buckets.size, ∀ n p,
    Seeks buckets key (key.hash.toNat &&& (buckets.size - 1)) none n p ↔ n = probes ∧ p = place
  index_lt : place.index < buckets.size
  /-- A key that is there is found in its own bucket. -/
  held : ∀ (i : Nat) v, buckets[i]? = some (.entry key v) → place = .held i v
  /-- A key that is not there belongs in the first tombstone before the first empty bucket or, without
  such a tombstone, in that bucket. -/
  absent : (∀ (i : Nat) v, buckets[i]? ≠ some (.entry key v)) →
    ∃ stop < buckets.size, FirstAt buckets key.hash .empty stop ∧
      ((∃ passed < stop, FirstAt buckets key.hash .tombstone passed ∧
          place = .reusable (maskedProbe buckets.size key.hash passed)) ∨
        ((∀ passed < stop,
            buckets[maskedProbe buckets.size key.hash passed]? ≠ some .tombstone) ∧
          place = .vacant (maskedProbe buckets.size key.hash stop)))

/-- The array has buckets, and every key has its place in it. -/
def SearchedExactly (buckets : Array Bucket) : Prop :=
  0 < buckets.size ∧ ∀ key, ∃ place, locate? buckets key = some place ∧ FindsPlace buckets key place

theorem SearchedExactly.findsPlace (hb : SearchedExactly buckets) {place : Place}
    (hplace : locate? buckets key = some place) : FindsPlace buckets key place := by
  obtain ⟨place', hplace', hfinds⟩ := hb.2 key
  rw [hplace] at hplace'
  cases hplace'
  exact hfinds

theorem Answers.index_lt {place : Place} (ha : Answers buckets key place) :
    place.index < buckets.size := by
  cases ha with
  | held hb => exact (Array.getElem?_eq_some_iff.1 hb).1
  | reusable _ hpath _ => exact hpath.index_lt
  | vacant _ hpath _ => exact hpath.index_lt

/-- The place of a key that is nowhere in the array, in terms of the path of its hash. -/
theorem locate?_of_nowhere {i : Nat} (hi : buckets[i]? = some .empty)
    (hno : ∀ (i : Nat) v, buckets[i]? ≠ some (.entry key v)) :
    ∃ stop < buckets.size, buckets[probe buckets.size key.hash stop]? = some .empty ∧
      Passes buckets key stop ∧
      locate? buckets key =
        some (.absent (spare buckets key stop) (probe buckets.size key.hash stop)) := by
  obtain ⟨stop, hlt, ⟨b, hb, hends⟩, hp⟩ := exists_first (P := Bucket.Ends key) key.hash hi trivial
  cases b with
  | tombstone => exact absurd hends id
  | entry k v =>
    obtain rfl : k = key := hends
    exact absurd hb (hno _ v)
  | empty => exact ⟨stop, hlt, hb, hp, locate?_of_empty hlt hp hb⟩

theorem Searchable.findsPlace (hs : Searchable buckets) (hsize : buckets.size = 2 ^ e) {i : Nat}
    (hi : buckets[i]? = some .empty) (key : Symbol) :
    ∃ place, locate? buckets key = some place ∧ FindsPlace buckets key place := by
  obtain ⟨place, hplace, hanswers⟩ := exists_locate? key hi
  refine ⟨place, hplace, ?_, hanswers.index_lt, ?_, ?_⟩
  · obtain ⟨probes, hle, hseeks⟩ := exists_seeks hsize hplace
    rw [← masked_eq_home hsize] at hseeks
    refine ⟨probes, hle, fun n p => ⟨fun hother => hother.unique hseeks, ?_⟩⟩
    rintro ⟨rfl, rfl⟩
    exact hseeks
  · intro j v hj
    rw [hs.locate?_of_entry hj] at hplace
    exact (Option.some.inj hplace).symm
  · intro hno
    obtain ⟨stop, hlt, hb, hp, hstop⟩ := locate?_of_nowhere hi hno
    obtain rfl : place = .absent (spare buckets key stop) (probe buckets.size key.hash stop) :=
      Option.some.inj (hplace.symm.trans hstop)
    simp only [FirstAt, maskedProbe_eq_probe hsize]
    refine ⟨stop, hlt, ⟨hb, fun earlier he => hp.ne_empty he⟩, ?_⟩
    cases hspare : spare buckets key stop with
    | some index =>
      obtain ⟨passed, hpassed, rfl, htomb, hfirst⟩ := spare_eq_some hspare
      exact .inl ⟨passed, hpassed, ⟨htomb, hfirst⟩, rfl⟩
    | none =>
      refine .inr ⟨fun passed hpassed htomb => ?_, rfl⟩
      obtain ⟨index, hsome⟩ := exists_spare hpassed htomb
      rw [hspare] at hsome
      cases hsome

theorem Searchable.searchedExactly (hs : Searchable buckets) (hsize : buckets.size = 2 ^ e)
    {i : Nat} (hi : buckets[i]? = some .empty) : SearchedExactly buckets :=
  ⟨Nat.lt_of_le_of_lt (Nat.zero_le i) (Array.getElem?_eq_some_iff.1 hi).1,
    fun key => hs.findsPlace hsize hi key⟩

/-- Every key has its place in a table that has buckets. -/
theorem Layout.searchedExactly {t : Table} (h : t.Layout) (hpos : 0 < t.capacity) :
    SearchedExactly t.buckets := by
  obtain ⟨i, hi⟩ := h.exists_empty hpos
  rcases h.capacity_cases with hzero | ⟨-, e, hsize⟩
  · omega
  · exact h.searchable.searchedExactly hsize hi

end Table

end ObjectHeap
