import ObjectHeap.Proofs.Machine.Steps
import ObjectHeap.Proofs.Renaming.Heap

/-!
# Renaming slots in machines

Two machines are twins under a permutation of the slots if it carries the heap, the stack and the
globals of one to those of the other, and if their heaps have the same policy and threshold. They
may differ in what happened before: in free slots, in the layout of the interned strings, and in the
number of collections by a fixed lag.

Twins are due for a collection at the same time, since they are charged the same. A collection
leaves twins or overflows in both, and it releases corresponding objects (`Twins.collect`).
-/

set_option autoImplicit false

namespace ObjectHeap

namespace Outcome

variable {α β : Type}

/-- What follows an operation releases nothing. -/
theorem releases_bind_of_quiet {x : Outcome α} {f : α → Outcome β}
    (hf : ∀ a, x.result = .ok a → (f a).releases = []) : (x >>= f).releases = x.releases := by
  unfold releases at hf ⊢
  rw [events_bind, List.filterMap_append]
  cases hres : x.result with
  | error fault => exact List.append_nil _
  | ok a =>
    rw [hf a hres]
    exact List.append_nil _

/-- What comes before an operation releases nothing. -/
theorem releases_bind_of_ok {x : Outcome α} {f : α → Outcome β} {a : α} (hx : x.result = .ok a)
    (hr : x.releases = []) : (x >>= f).releases = (f a).releases := by
  unfold releases at hr ⊢
  rw [events_bind, List.filterMap_append, hr, hx]
  rfl

/-- Events that say nothing about any slot release none. -/
theorem releases_report {events : List Event}
    (he : ∀ slot, ∀ e ∈ events, e.verdict? slot = none) : (report events).releases = [] :=
  List.filterMap_eq_nil_iff.2 fun e hmem => Heap.released?_eq_none fun slot => he slot e hmem

end Outcome

namespace Machine

variable {m n : Machine} {σ τ : Equiv.Perm Nat} {lag : Nat}

/-- The permutation carries all that one machine has stored to what the other has stored, and they
collect by the same rules. -/
structure Twins (σ : Equiv.Perm Nat) (lag : Nat) (m n : Machine) : Prop where
  cells : Heap.Matches σ m.heap n.heap
  policy_eq : n.heap.policy = m.heap.policy
  threshold_eq : n.heap.threshold = m.heap.threshold
  cycles_eq : n.heap.cycles = m.heap.cycles + lag
  stack_eq : n.stack = m.stack.map (Value.rename σ)
  globals_eq : n.globals = m.globals.rename σ

namespace Twins

/-- Nothing that is stored in a sound machine refers to an empty slot. -/
theorem congr (ht : Twins σ lag m n) (hm : m.Sound)
    (hagree : ∀ slot, m.heap.Occupied slot → τ slot = σ slot) : Twins τ lag m n where
  cells := ht.cells.congr hm.closed.heap hagree
  policy_eq := ht.policy_eq
  threshold_eq := ht.threshold_eq
  cycles_eq := ht.cycles_eq
  stack_eq := by
    rw [ht.stack_eq]
    refine List.map_congr_left fun v hv => (Value.rename_congr fun slot hslot => ?_)
    exact (hagree slot ((hm.closed.stack v hv).occupied hslot)).symm
  globals_eq := by
    rw [ht.globals_eq]
    refine Table.rename_congr fun slot hslot => (hagree slot ?_).symm
    obtain ⟨key, v, he, hrefers⟩ := Table.mem_targets.1 hslot
    obtain ⟨hkey, hv⟩ := hm.closed.globals _ he
    rcases hrefers with rfl | hrefers
    · exact hkey.occupied
    · exact hv.occupied hrefers

theorem bytes_eq (ht : Twins σ lag m n) (hm : m.Sound) (hn : n.Sound) :
    n.heap.bytes = m.heap.bytes :=
  ht.cells.bytes_eq hm.heap.balanced hn.heap.balanced

theorem due_eq (ht : Twins σ lag m n) (hm : m.Sound) (hn : n.Sound) :
    n.heap.due = m.heap.due := by
  rw [Heap.due, Heap.due, ht.policy_eq, ht.threshold_eq, ht.bytes_eq hm hn]

theorem roots_eq (ht : Twins σ lag m n) : n.roots = m.roots.map σ := by
  have htargets : ∀ v : Value, (v.rename σ).target? = v.target?.map σ := Value.target?_rename σ
  rw [roots, roots, ht.stack_eq, ht.globals_eq, Table.targets_rename, List.map_append,
    ← List.map_reverse, List.filterMap_map, List.map_filterMap]
  exact congrArg (List.filterMap · _ ++ _) (funext htargets)

theorem withStack (ht : Twins σ lag m n) {stack stack' : List Value}
    (heq : stack' = stack.map (Value.rename σ)) :
    Twins σ lag { m with stack } { n with stack := stack' } :=
  { ht with stack_eq := heq }

theorem push (ht : Twins σ lag m n) (v : Value) :
    Twins σ lag (m.push v) (n.push (v.rename σ)) :=
  ht.withStack (by rw [ht.stack_eq, List.map_cons])

theorem pop (ht : Twins σ lag m n) : Twins σ lag m.pop.1 n.pop.1 :=
  ht.withStack (by rw [ht.stack_eq, List.map_tail])

theorem withGlobals (ht : Twins σ lag m n) {globals globals' : Table}
    (heq : globals' = globals.rename σ) :
    Twins σ lag { m with globals } { n with globals := globals' } :=
  { ht with globals_eq := heq }

theorem replace (ht : Twins σ lag m n) {k : Kind} (r : Ref k) (p : k.Payload) :
    Twins σ lag { m with heap := m.heap.replace r p }
      { n with heap := n.heap.replace (r.rename σ) (k.rename σ p) } where
  cells := ht.cells.replace r p
  policy_eq := ht.policy_eq
  threshold_eq := ht.threshold_eq
  cycles_eq := ht.cycles_eq
  stack_eq := ht.stack_eq
  globals_eq := ht.globals_eq

/-- The same object is put on both heaps. The permutation then carries one new slot to the other. -/
theorem place (ht : Twins σ lag m n) (hm : m.Sound) (hn : n.Sound) {o : Object}
    (ho : m.heap.ValidObject o) : ∃ τ : Equiv.Perm Nat,
      Twins τ lag { m with heap := (m.heap.place o).1 }
        { n with heap := (n.heap.place (o.rename σ)).1 } ∧
      τ (m.heap.place o).2 = (n.heap.place (o.rename σ)).2 ∧
      ∀ slot, m.heap.Occupied slot → τ slot = σ slot := by
  let τ := Heap.pointTo σ (m.heap.place o).2 (n.heap.place (o.rename σ)).2
  have hagree : ∀ slot, m.heap.Occupied slot → τ slot = σ slot := fun slot hslot =>
    ht.cells.pointTo_of_occupied (Heap.place_slot_empty hm.heap.slotted)
      (Heap.place_slot_empty hn.heap.slotted) hslot
  have hobject : o.rename σ = o.rename τ :=
    Object.rename_congr fun slot hslot => (hagree slot (ho.occupied hslot)).symm
  have hslot : τ (m.heap.place o).2 = (n.heap.place (o.rename σ)).2 := Heap.pointTo_self _ _ _
  have ht' : Twins τ lag m n := ht.congr hm hagree
  have hcells := ht'.cells.place hm.heap.slotted hn.heap.slotted (hobject ▸ hslot)
  obtain ⟨hpolicy, hthreshold, hcycles⟩ := Heap.place_schedule m.heap o
  obtain ⟨hpolicy', hthreshold', hcycles'⟩ := Heap.place_schedule n.heap (o.rename σ)
  refine ⟨τ, ⟨?_, ?_, ?_, ?_, ht'.stack_eq, ht'.globals_eq⟩, hslot, hagree⟩
  · rw [hobject]
    exact hcells
  · exact hpolicy'.trans (ht.policy_eq.trans hpolicy.symm)
  · exact hthreshold'.trans (ht.threshold_eq.trans hthreshold.symm)
  · show (n.heap.place (o.rename σ)).1.cycles = (m.heap.place o).1.cycles + lag
    rw [hcycles', hcycles, ht.cycles_eq]

end Twins

/-! ## Collections -/

theorem releases_collect (m : Machine) :
    m.collect.releases = (m.heap.markAll m.roots).collect.releases := by
  have hmarks : (Outcome.report (Heap.marksSince m.heap (m.heap.markAll m.roots))).releases = [] :=
    Outcome.releases_report fun _ => Heap.verdict?_marksSince
  exact (Outcome.releases_bind_of_ok rfl hmarks).trans (Outcome.releases_bind_pure _ _)

/-- A collection releases exactly the objects that are not there afterwards. -/
theorem mem_releases_collect {after : Machine} (hc : m.collect.result = .ok after) {slot : Nat}
    (ho : m.heap.Occupied slot) :
    slot ∈ m.collect.releases ↔ ¬after.heap.Occupied slot := by
  obtain ⟨heap, hheap, rfl⟩ := of_collect_eq_ok hc
  have hmarked : (m.heap.markAll m.roots).Occupied slot :=
    (Heap.repainted_markAll m.heap m.roots).occupied_iff.2 ho
  rw [releases_collect, Heap.occupied_collect_iff hheap]
  constructor
  · exact fun hr hkept => hkept.2 hr
  · intro hgone
    by_contra hr
    exact hgone ⟨hmarked, hr⟩

/-- A reset is a collection of a machine that has nothing in use. -/
theorem reset_result (m : Machine) :
    m.reset.result = (collect { m with stack := [], globals := ∅ }).result :=
  Outcome.result_bind _ _

theorem releases_reset (m : Machine) :
    m.reset.releases = (collect { m with stack := [], globals := ∅ }).releases :=
  Outcome.releases_bind_of_ok rfl rfl

theorem Sound.emptied (hm : m.Sound) : Sound { m with stack := [], globals := ∅ } :=
  (hm.withGlobals .empty Heap.validTable_empty).withStack fun _ hv => absurd hv List.not_mem_nil

/-- Two operations that may collect overflow both, or leave twins and have released corresponding
objects. -/
def ClearAlike (σ : Equiv.Perm Nat) (lag : Nat) (m n : Machine) (x y : Outcome Machine) : Prop :=
  (x.result = .error .thresholdOverflow ∧ y.result = .error .thresholdOverflow) ∨
  ∃ roomy roomy', x.result = .ok roomy ∧ y.result = .ok roomy' ∧
    m.Cleared x.releases roomy ∧ n.Cleared y.releases roomy' ∧ Twins σ lag roomy roomy' ∧
    ∀ slot, m.heap.Occupied slot → (slot ∈ x.releases ↔ σ slot ∈ y.releases)

namespace Twins

theorem swept (ht : Twins σ lag m n) (hm : m.Sound) (hn : n.Sound) :
    Heap.Matches σ (m.heap.markAll m.roots).swept (n.heap.markAll n.roots).swept := by
  rw [ht.roots_eq]
  exact ht.cells.swept hm.heap hn.heap hm.clean hn.clean m.roots

theorem swept_policy_eq (ht : Twins σ lag m n) :
    (n.heap.markAll n.roots).swept.policy = (m.heap.markAll m.roots).swept.policy := by
  rw [Heap.swept_policy, Heap.swept_policy, (Heap.repainted_markAll _ _).policy_eq,
    (Heap.repainted_markAll _ _).policy_eq, ht.policy_eq]

/-- The heaps are charged the same after the sweep, so they have the same threshold next. -/
theorem nextThreshold_eq (ht : Twins σ lag m n) (hm : m.Sound) (hn : n.Sound) :
    (n.heap.markAll n.roots).swept.nextThreshold =
      (m.heap.markAll m.roots).swept.nextThreshold := by
  have hbytes := (ht.swept hm hn).bytes_eq (hm.heap.mark m.roots).swept.balanced
    (hn.heap.mark n.roots).swept.balanced
  simp only [Heap.nextThreshold, hbytes, ht.swept_policy_eq]

theorem collect (ht : Twins σ lag m n) (hm : m.Sound) (hn : n.Sound) :
    ClearAlike σ lag m n m.collect n.collect := by
  have hleft := collect_result m
  have hright := collect_result n
  rw [Heap.collect_result] at hleft hright
  rw [ht.nextThreshold_eq hm hn] at hright
  cases hnext : (m.heap.markAll m.roots).swept.nextThreshold with
  | error f =>
    rw [hnext] at hleft hright
    have hf : f = .thresholdOverflow := of_collect_eq_error hleft
    rw [hf] at hleft hright
    exact .inl ⟨hleft, hright⟩
  | ok threshold =>
    rw [hnext] at hleft hright
    have hcells := ht.swept hm hn
    refine .inr ⟨_, _, hleft, hright, hm.collect_cleared hleft, hn.collect_cleared hright,
      ⟨hcells, ht.swept_policy_eq, rfl, ?_, ht.stack_eq, ht.globals_eq⟩, ?_⟩
    · show (n.heap.markAll n.roots).swept.cycles + 1 =
        (m.heap.markAll m.roots).swept.cycles + 1 + lag
      rw [Heap.swept_cycles, Heap.swept_cycles, (Heap.repainted_markAll _ _).cycles_eq,
        (Heap.repainted_markAll _ _).cycles_eq, ht.cycles_eq]
      omega
    · intro slot ho
      rw [mem_releases_collect hleft ho, mem_releases_collect hright (ht.cells.occupied_iff.2 ho)]
      exact not_congr hcells.occupied_iff.symm

theorem makeRoom (ht : Twins σ lag m n) (hm : m.Sound) (hn : n.Sound) :
    ClearAlike σ lag m n m.makeRoom n.makeRoom := by
  unfold Machine.makeRoom
  rw [ht.due_eq hm hn]
  split
  · exact ht.collect hm hn
  · exact .inr ⟨m, n, rfl, rfl, hm.cleared_self _, hn.cleared_self _, ht,
      fun slot _ => iff_of_false List.not_mem_nil List.not_mem_nil⟩

end Twins

end Machine

end ObjectHeap
