import ObjectHeap.Proofs.Table.Operations

/-!
# Masked hashes

A layout tells the buckets of a search by remainders. The number of buckets is a power of two, so
masking the lower bits of a hash comes to the same, and `Laid` has the layout in these terms
together with what follows from it.
-/

set_option autoImplicit false

namespace ObjectHeap

namespace Table

variable {t : Table} {capacity e : Nat}

/-- The bucket that a search looks at after so many steps, by masking the bits above the capacity.
-/
def maskedProbe (capacity : Nat) (hash : UInt32) (steps : Nat) : Nat :=
  ((hash.toNat &&& (capacity - 1)) + steps) &&& (capacity - 1)

/-- The layout of a table in terms of powers of two and masks. -/
structure Laid (t : Table) : Prop extends t.Layout where
  capacity_cases : t.capacity = 0 ∨ 8 ≤ t.capacity ∧ ∃ e, t.capacity = 2 ^ e
  exists_empty : t.capacity ≠ 0 → ∃ i < t.capacity, t.buckets[i]? = some .empty
  /-- Between the bucket that a hash is masked to and the bucket of the key none is empty. -/
  path : ∀ i key v, t.HoldsAt i key v → ∃ steps < t.capacity,
    maskedProbe t.capacity key.hash steps = i ∧
    ∀ earlier < steps, t.buckets[maskedProbe t.capacity key.hash earlier]? ≠ some .empty

theorem masked_eq_home (hpow : capacity = 2 ^ e) (hash : UInt32) :
    hash.toNat &&& (capacity - 1) = home capacity hash := by
  rw [hpow, Nat.and_two_pow_sub_one_eq_mod, home]

theorem masked_succ_eq_next (hpow : capacity = 2 ^ e) (index : Nat) :
    (index + 1) &&& (capacity - 1) = next capacity index := by
  rw [hpow, Nat.and_two_pow_sub_one_eq_mod, next]

theorem maskedProbe_eq_probe (hpow : capacity = 2 ^ e) (hash : UInt32) (steps : Nat) :
    maskedProbe capacity hash steps = probe capacity hash steps := by
  rw [maskedProbe, masked_eq_home hpow, probe, hpow, Nat.and_two_pow_sub_one_eq_mod]

theorem Layout.capacity_cases (hl : t.Layout) :
    t.capacity = 0 ∨ 8 ≤ t.capacity ∧ ∃ e, t.capacity = 2 ^ e := by
  refine hl.capacity_eq.imp_right ?_
  rintro ⟨doublings, hcapacity⟩
  have hpow : t.capacity = 2 ^ (3 + doublings) := by
    rw [hcapacity, Nat.pow_add]
    rfl
  refine ⟨?_, _, hpow⟩
  rw [hpow]
  exact Nat.pow_le_pow_right Nat.two_pos (Nat.le_add_right 3 doublings)

/-- In a table that has buckets, masking a hash is as good as taking its remainder. -/
theorem Layout.maskedProbe_eq (hl : t.Layout) (hpos : 0 < t.capacity) (hash : UInt32)
    (steps : Nat) : maskedProbe t.capacity hash steps = probe t.capacity hash steps := by
  rcases hl.capacity_cases with hzero | ⟨-, e, hpow⟩
  · omega
  · exact maskedProbe_eq_probe hpow hash steps

theorem Layout.laid (hl : t.Layout) : t.Laid where
  toLayout := hl
  capacity_cases := hl.capacity_cases
  exists_empty hne := by
    obtain ⟨i, hi⟩ := hl.exists_empty (Nat.pos_of_ne_zero hne)
    exact ⟨i, (Array.getElem?_eq_some_iff.1 hi).1, hi⟩
  path i key v hi := by
    obtain ⟨steps, hlt, hprobe, hpass⟩ := hl.reached i key v hi
    have hmask := hl.maskedProbe_eq (Nat.lt_of_le_of_lt (Nat.zero_le _) hlt) key.hash
    refine ⟨steps, hlt, (hmask steps).trans hprobe, fun earlier he => ?_⟩
    rw [hmask]
    exact hpass earlier he

end Table

end ObjectHeap
