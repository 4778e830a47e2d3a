import Mathlib.Data.Nat.Find
import ObjectHeap.Table.Layout

/-!
# Where a search ends

`locate?` walks from bucket to bucket and remembers a tombstone on the way. What it answers is said
here without the walk: the search *stops* at the first bucket on its path that is empty or holds the
key, and the answer is read off from there (`locate?_of_entry`, `locate?_of_empty`).

Two facts about the path carry everything. It visits each bucket once (`exists_probe`, `probe_inj`),
so an empty bucket anywhere is enough for the search to end. And a bucket that a search comes to
before an empty one is *on the path* of the hash (`OnPath`), which is what the layout of a table
promises of every entry: so the search for a key that is there stops at that key.
-/

set_option autoImplicit false

namespace ObjectHeap

/-- The search for a key ends at this bucket. -/
def Bucket.Ends (key : Symbol) : Bucket → Prop
  | .empty => True
  | .tombstone => False
  | .entry k _ => k = key

namespace Table

/-! ## The path of a hash -/

section Path

variable {capacity : Nat} {hash : UInt32}

theorem probe_lt (h : 0 < capacity) (steps : Nat) : probe capacity hash steps < capacity :=
  Nat.mod_lt _ h

theorem probe_zero : probe capacity hash 0 = home capacity hash := by
  simp [probe, home]

theorem next_probe (steps : Nat) :
    next capacity (probe capacity hash steps) = probe capacity hash (steps + 1) := by
  simp only [next, probe, Nat.mod_add_mod, Nat.add_assoc]

/-- The path comes to every bucket. -/
theorem exists_probe (hash : UInt32) {index : Nat} (h : index < capacity) :
    ∃ steps < capacity, probe capacity hash steps = index := by
  have hpos : 0 < capacity := Nat.lt_of_le_of_lt (Nat.zero_le _) h
  have hhome : home capacity hash < capacity := Nat.mod_lt _ hpos
  by_cases hle : home capacity hash ≤ index
  · refine ⟨index - home capacity hash, by omega, ?_⟩
    unfold probe
    rw [Nat.add_sub_cancel' hle, Nat.mod_eq_of_lt h]
  · refine ⟨capacity - home capacity hash + index, by omega, ?_⟩
    unfold probe
    rw [show home capacity hash + (capacity - home capacity hash + index) = index + capacity by
      omega, Nat.add_mod_right, Nat.mod_eq_of_lt h]

/-- The path comes to a bucket once. -/
theorem probe_inj {i j : Nat} (hi : i < capacity) (hj : j < capacity)
    (h : probe capacity hash i = probe capacity hash j) : i = j := by
  have hhome : home capacity hash < capacity := Nat.mod_lt _ (by omega)
  unfold probe at h
  have hwrap : ∀ k < capacity, (home capacity hash + k) % capacity =
      if home capacity hash + k < capacity then home capacity hash + k
      else home capacity hash + k - capacity := by
    intro k hk
    split
    · next hlt => exact Nat.mod_eq_of_lt hlt
    · next hge =>
      rw [Nat.mod_eq_sub_mod (by omega), Nat.mod_eq_of_lt (by omega)]
  rw [hwrap i hi, hwrap j hj] at h
  split at h <;> split at h <;> omega

end Path

variable {buckets : Array Bucket} {key : Symbol}

theorem exists_getElem?_probe (h : 0 < buckets.size) (hash : UInt32) (steps : Nat) :
    ∃ b, buckets[probe buckets.size hash steps]? = some b :=
  ⟨_, Array.getElem?_eq_getElem (probe_lt h steps)⟩

/-- The search for a hash comes to this bucket before it comes to an empty one. -/
def OnPath (buckets : Array Bucket) (hash : UInt32) (index : Nat) : Prop :=
  ∃ steps < buckets.size, probe buckets.size hash steps = index ∧
    ∀ earlier < steps, buckets[probe buckets.size hash earlier]? ≠ some .empty

theorem OnPath.index_lt {hash : UInt32} {index : Nat} (h : OnPath buckets hash index) :
    index < buckets.size := by
  obtain ⟨steps, hlt, rfl, _⟩ := h
  exact probe_lt (by omega) steps

/-! ## The end of a search -/

/-- The search for a key goes on past so many buckets. -/
def Passes (buckets : Array Bucket) (key : Symbol) (steps : Nat) : Prop :=
  ∀ earlier < steps, ∀ b, buckets[probe buckets.size key.hash earlier]? = some b → ¬b.Ends key

theorem Passes.mono {i j : Nat} (h : Passes buckets key j) (hij : i ≤ j) : Passes buckets key i :=
  fun earlier he => h earlier (Nat.lt_of_lt_of_le he hij)

theorem Passes.ne_empty {steps earlier : Nat} (h : Passes buckets key steps)
    (he : earlier < steps) : buckets[probe buckets.size key.hash earlier]? ≠ some .empty :=
  fun hb => h earlier he _ hb trivial

/-- The first tombstone among so many buckets of the path. -/
def spare (buckets : Array Bucket) (key : Symbol) (steps : Nat) : Option Nat :=
  ((List.range steps).find? fun j =>
    buckets[probe buckets.size key.hash j]? = some .tombstone).map (probe buckets.size key.hash)

theorem spare_succ (steps : Nat) : spare buckets key (steps + 1) =
    if buckets[probe buckets.size key.hash steps]? = some .tombstone
    then (spare buckets key steps).or (some (probe buckets.size key.hash steps))
    else spare buckets key steps := by
  unfold spare
  rw [List.range_succ, List.find?_append, List.find?_singleton]
  split <;> simp_all

theorem spare_eq_some {steps index : Nat} (h : spare buckets key steps = some index) :
    ∃ j < steps, probe buckets.size key.hash j = index ∧ buckets[index]? = some .tombstone ∧
      ∀ earlier < j, buckets[probe buckets.size key.hash earlier]? ≠ some .tombstone := by
  obtain ⟨j, hj, rfl⟩ := Option.map_eq_some_iff.1 h
  rw [List.find?_range_eq_some] at hj
  obtain ⟨hb, hlt, hfirst⟩ := hj
  exact ⟨j, List.mem_range.1 hlt, rfl, by simpa using hb,
    fun earlier he => by simpa using hfirst earlier he⟩

/-- Up to the end of the search, what is left to do after so many steps. -/
theorem locate?_eq_locateFrom {steps : Nat} (h : steps ≤ buckets.size)
    (hp : Passes buckets key steps) :
    locate? buckets key = locateFrom buckets key (buckets.size - steps)
      (probe buckets.size key.hash steps) (spare buckets key steps) := by
  induction steps with
  | zero => rw [probe_zero]; rfl
  | succ steps ih =>
    rw [ih (by omega) (hp.mono (by omega)), spare_succ,
      show buckets.size - steps = (buckets.size - (steps + 1)) + 1 by omega, locateFrom]
    obtain ⟨b, hb⟩ : ∃ b, buckets[probe buckets.size key.hash steps]? = some b :=
      exists_getElem?_probe (by omega) key.hash steps
    have hpass := hp steps (by omega) b hb
    rw [hb]
    cases b with
    | empty => exact absurd trivial hpass
    | tombstone => simp only [next_probe, if_true]
    | entry k v =>
      have hk : k ≠ key := hpass
      simp [next_probe, hk]

/-- A search that comes to the key answers where it is. -/
theorem locate?_of_entry {steps : Nat} {value : Value} (h : steps < buckets.size)
    (hp : Passes buckets key steps)
    (hb : buckets[probe buckets.size key.hash steps]? = some (.entry key value)) :
    locate? buckets key = some (.held (probe buckets.size key.hash steps) value) := by
  rw [locate?_eq_locateFrom (Nat.le_of_lt h) hp,
    show buckets.size - steps = (buckets.size - (steps + 1)) + 1 by omega, locateFrom, hb]
  simp

/-- A search that comes to an empty bucket answers the first tombstone on the way, or else this
bucket. -/
theorem locate?_of_empty {steps : Nat} (h : steps < buckets.size) (hp : Passes buckets key steps)
    (hb : buckets[probe buckets.size key.hash steps]? = some .empty) :
    locate? buckets key =
      some (.absent (spare buckets key steps) (probe buckets.size key.hash steps)) := by
  rw [locate?_eq_locateFrom (Nat.le_of_lt h) hp,
    show buckets.size - steps = (buckets.size - (steps + 1)) + 1 by omega, locateFrom, hb]

/-- Of the buckets that have a property, one is the first on the path of a hash. -/
theorem exists_first {P : Bucket → Prop} (hash : UInt32) {index : Nat} {b : Bucket}
    (h : buckets[index]? = some b) (hb : P b) :
    ∃ steps < buckets.size, (∃ b, buckets[probe buckets.size hash steps]? = some b ∧ P b) ∧
      ∀ earlier < steps, ∀ b, buckets[probe buckets.size hash earlier]? = some b → ¬P b := by
  classical
  obtain ⟨hlt, -⟩ := Array.getElem?_eq_some_iff.1 h
  obtain ⟨steps, hs, hprobe⟩ := exists_probe hash hlt
  have hex : ∃ steps, ∃ b, buckets[probe buckets.size hash steps]? = some b ∧ P b :=
    ⟨steps, b, by rw [hprobe, h], hb⟩
  refine ⟨Nat.find hex, Nat.lt_of_le_of_lt (Nat.find_min' hex ⟨b, by rw [hprobe, h], hb⟩) hs,
    Nat.find_spec hex, fun earlier he b hb hP => Nat.find_min hex he ⟨b, hb, hP⟩⟩

/-- What a place must be to be the answer of a search. If the key is absent, then it is so from the
whole path, and the place can be filled without cutting the path of any key. -/
inductive Answers (buckets : Array Bucket) (key : Symbol) : Place → Prop
  | held {index : Nat} {value : Value} : buckets[index]? = some (.entry key value) →
    Answers buckets key (.held index value)
  | reusable {index : Nat} : buckets[index]? = some .tombstone → OnPath buckets key.hash index →
    (∀ i v, OnPath buckets key.hash i → buckets[i]? ≠ some (.entry key v)) →
    Answers buckets key (.reusable index)
  | vacant {index : Nat} : buckets[index]? = some .empty → OnPath buckets key.hash index →
    (∀ i v, OnPath buckets key.hash i → buckets[i]? ≠ some (.entry key v)) →
    Answers buckets key (.vacant index)

/-- A key that is not met before an empty bucket is not on the path at all. -/
theorem Passes.absent {steps : Nat} (hp : Passes buckets key steps)
    (hb : buckets[probe buckets.size key.hash steps]? = some .empty) (i : Nat) (v : Value)
    (hi : OnPath buckets key.hash i) : buckets[i]? ≠ some (.entry key v) := by
  obtain ⟨j, hj, rfl, hpass⟩ := hi
  intro hentry
  rcases Nat.lt_trichotomy j steps with hlt | rfl | hgt
  · exact hp j hlt _ hentry rfl
  · rw [hb] at hentry
    cases hentry
  · exact hpass steps hgt hb

/-- Where there is an empty bucket, a search has an answer. -/
theorem exists_locate? (key : Symbol) {index : Nat} (h : buckets[index]? = some .empty) :
    ∃ place, locate? buckets key = some place ∧ Answers buckets key place := by
  obtain ⟨steps, hlt, ⟨b, hb, hends⟩, hp⟩ := exists_first (P := Bucket.Ends key) key.hash h trivial
  have hp : Passes buckets key steps := hp
  cases b with
  | tombstone => exact absurd hends id
  | entry k v =>
    obtain rfl : k = key := hends
    exact ⟨_, locate?_of_entry hlt hp hb, .held hb⟩
  | empty =>
    refine ⟨_, locate?_of_empty hlt hp hb, ?_⟩
    cases hs : spare buckets key steps with
    | none => exact .vacant hb ⟨steps, hlt, rfl, fun _ he => hp.ne_empty he⟩ (hp.absent hb)
    | some index =>
      obtain ⟨j, hj, hprobe, htomb, -⟩ := spare_eq_some hs
      exact .reusable htomb ⟨j, by omega, hprobe, fun e he => hp.ne_empty (by omega)⟩
        (hp.absent hb)

end Table

end ObjectHeap
