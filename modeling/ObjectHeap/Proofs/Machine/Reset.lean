import ObjectHeap.Proofs.Machine.Closure
import ObjectHeap.Proofs.Machine.Effects
import ObjectHeap.Proofs.Renaming.Machine

/-!
# Resets

Without roots nothing can be reached, so a reset leaves no object, no interned string and no byte
charged (`Sound.reset`). Nothing times the growth factor is nothing, hence the one thing at which a
collection can fail does not happen, and the threshold falls back to the initial one. The policy of
a machine never changes (`Arises.policy_eq`), so this is the threshold of a new machine.

What a reset does leave is empty slots, a free stack that names them, and a table of interned strings
as large as it was. None of this is counted among what a *vacant* machine lacks. Vacant machines with
one policy are twins.
-/

set_option autoImplicit false

namespace ObjectHeap

namespace Machine

variable {m : Machine} {policy : Policy}

/-- The heap of a machine arises by the operations of heaps, and no text is overwritten. -/
theorem Arises.heap (ha : m.Arises policy) : m.heap.Arises false policy := by
  induction ha with
  | new => exact .new
  | handle _ _ hok ih => exact (undergoes_handle _ _).arises ih (result_onHeap hok)

theorem Arises.policy_eq (ha : m.Arises policy) : m.heap.policy = policy :=
  ha.heap.policy_eq

end Machine

/-! ## Heaps without objects -/

namespace Heap

variable {h : Heap}

theorem not_reach_nil {slot : Nat} : ¬h.Reach [] slot := by
  intro hr
  induction hr with
  | start hmem => exact List.not_mem_nil hmem
  | step _ _ _ _ ih => exact ih

theorem liveSlots_eq_empty (hempty : ∀ slot, ¬h.Occupied slot) : h.liveSlots = ∅ :=
  Finset.eq_empty_of_forall_notMem fun slot hslot => hempty slot (mem_liveSlots.1 hslot)

theorem objectCount_eq_zero_iff : h.objectCount = 0 ↔ ∀ slot, ¬h.Occupied slot := by
  rw [objectCount_eq, Finset.card_eq_zero]
  refine ⟨fun hlive slot ho => ?_, liveSlots_eq_empty⟩
  have hmem := mem_liveSlots.2 ho
  rw [hlive] at hmem
  exact Finset.notMem_empty slot hmem

theorem Balanced.bytes_eq_zero (hb : h.Balanced) (hempty : ∀ slot, ¬h.Occupied slot) :
    h.bytes = 0 := by
  rw [hb.bytes_eq, liveSlots_eq_empty hempty, Finset.sum_empty]

/-- A table of which no key is interned has no entries, however large it is. -/
theorem strings_size_eq_zero (hb : h.strings.Built) (hnone : ∀ key, ¬h.Interned key) :
    h.strings.size = 0 := by
  rw [← hb.layout.length_entries, List.length_eq_zero_iff, List.eq_nil_iff_forall_not_mem]
  rintro ⟨key, v⟩ hmem
  exact hnone key ⟨v, hmem⟩

theorem nextThreshold_of_bytes_eq_zero (hzero : h.bytes = 0) :
    h.nextThreshold = .ok h.policy.initialThreshold := by
  rw [nextThreshold, hzero, Nat.zero_mul, Nat.zero_max]
  rfl

end Heap

/-! ## Vacant machines -/

namespace Machine

variable {m n : Machine} {policy : Policy}

/-- The machine has nothing in use, owes nothing, and its next collection is as far away as that of
a new machine. -/
structure Vacant (policy : Policy) (m : Machine) : Prop where
  objectCount_eq : m.heap.objectCount = 0
  bytes_eq : m.heap.bytes = 0
  uninterned : ∀ key, ¬m.heap.Interned key
  strings_size_eq : m.heap.strings.size = 0
  stack_eq : m.stack = []
  globals_eq : m.globals = ∅
  globals_capacity_eq : m.globals.capacity = 0
  policy_eq : m.heap.policy = policy
  threshold_eq : m.heap.threshold = policy.initialThreshold

theorem Vacant.not_occupied (hv : m.Vacant policy) (slot : Nat) : ¬m.heap.Occupied slot :=
  Heap.objectCount_eq_zero_iff.1 hv.objectCount_eq slot

theorem vacant_new (policy : Policy) : (new policy).Vacant policy where
  objectCount_eq := rfl
  bytes_eq := rfl
  uninterned key hkey := by
    obtain ⟨v, hmem⟩ := hkey
    exact List.not_mem_nil hmem
  strings_size_eq := rfl
  stack_eq := rfl
  globals_eq := rfl
  globals_capacity_eq := rfl
  policy_eq := rfl
  threshold_eq := rfl

/-- **A reset always completes, and leaves a vacant machine.** -/
theorem Sound.reset (hm : m.Sound) :
    ∃ after, m.reset.result = .ok after ∧ after.Vacant m.heap.policy := by
  have hempty := hm.emptied
  have hroots : roots { m with stack := [], globals := ∅ } = [] := rfl
  have hmarked := hempty.heap.mark []
  have hunoccupied : ∀ slot, ¬(m.heap.markAll []).swept.Occupied slot := by
    intro slot ho
    have hr := (Heap.occupied_swept (hm.heap.tidy.markAll []).traced).1 ho
    exact Heap.not_reach_nil ((Heap.reach_markAll_of_clean hm.clean).1 hr)
  have hbytes := hmarked.swept.balanced.bytes_eq_zero hunoccupied
  have hpolicy : (m.heap.markAll []).swept.policy = m.heap.policy :=
    (Heap.swept_policy _).trans (Heap.repainted_markAll _ _).policy_eq
  have hok := collect_result { m with stack := [], globals := ∅ }
  rw [hroots, Heap.collect_result, Heap.nextThreshold_of_bytes_eq_zero hbytes] at hok
  have huninterned : ∀ key, ¬(m.heap.markAll []).swept.Interned key := by
    intro key hkey
    have hr := ((hempty.interned_collect hok).1 hkey).1
    rw [hroots] at hr
    exact Heap.not_reach_nil hr
  refine ⟨_, (reset_result m).trans hok, ?_⟩
  exact
    { objectCount_eq := Heap.objectCount_eq_zero_iff.2 hunoccupied
      bytes_eq := hbytes
      uninterned := huninterned
      strings_size_eq := Heap.strings_size_eq_zero hmarked.swept.strings huninterned
      stack_eq := rfl
      globals_eq := rfl
      globals_capacity_eq := rfl
      policy_eq := hpolicy
      threshold_eq := congrArg Policy.initialThreshold hpolicy }

/-- Vacant machines with one policy are twins under any permutation. -/
theorem Vacant.twins (hm : m.Vacant policy) (hn : n.Vacant policy) {lag : Nat}
    (hlag : n.heap.cycles = m.heap.cycles + lag) (σ : Equiv.Perm Nat) : Twins σ lag m n where
  cells slot := by
    have hleft : m.heap.cell? slot = none := by
      by_contra hne
      exact hm.not_occupied slot (Option.ne_none_iff_exists'.1 hne)
    have hright : n.heap.cell? (σ slot) = none := by
      by_contra hne
      exact hn.not_occupied (σ slot) (Option.ne_none_iff_exists'.1 hne)
    rw [hleft, hright]
    rfl
  policy_eq := hn.policy_eq.trans hm.policy_eq.symm
  threshold_eq := hn.threshold_eq.trans hm.threshold_eq.symm
  cycles_eq := hlag
  stack_eq := by rw [hn.stack_eq, hm.stack_eq, List.map_nil]
  globals_eq := by rw [hn.globals_eq, hm.globals_eq, Table.rename_empty]

end Machine

end ObjectHeap
