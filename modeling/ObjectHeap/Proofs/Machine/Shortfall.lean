import Mathlib.Algebra.BigOperators.Ring.Finset
import ObjectHeap.Proofs.Machine.Reset
import ObjectHeap.Proofs.Machine.Rooted

/-!
# What the bytes leave out

An object is charged at its allocation. The table of a class or of an instance has no buckets then,
and nothing is charged when it gets some, so the bytes of a machine fall short of what its objects
take now: by the buckets of all their tables, and by nothing else (`Arises.understates`). Strings are
charged in full, because a machine never overwrites their texts.

The threshold after a collection is computed from the bytes, hence the buckets do not count there
either. They are no part of what decides when a collection is due.
-/

set_option autoImplicit false

namespace ObjectHeap

/-- The number of buckets in the table of an object. -/
def Object.buckets : Object → Nat
  | .cls c => c.methods.capacity
  | .inst i => i.fields.capacity
  | .str _ | .box _ => 0

namespace Heap

variable {h : Heap}

/-- What the object in a slot would be charged if it were allocated as it is now. -/
def currentAt (h : Heap) (slot : Nat) : Nat := ((h.object? slot).map chargeOf).getD 0

/-- The number of buckets in the table of the object in a slot. -/
def bucketsAt (h : Heap) (slot : Nat) : Nat := ((h.object? slot).map Object.buckets).getD 0

/-- What all objects would be charged if they were allocated as they are now. -/
def currentBytes (h : Heap) : Nat := ∑ slot ∈ h.liveSlots, h.currentAt slot

/-- The number of buckets in the tables of all objects. -/
def bucketCount (h : Heap) : Nat := ∑ slot ∈ h.liveSlots, h.bucketsAt slot

/-- What an object was charged is all that it takes now, but for its buckets. -/
def ChargedBare (h : Heap) : Prop := ∀ slot c, h.cell? slot = some c →
  c.charge + Object.bucketBytes * c.object.buckets = chargeOf c.object

theorem chargedBare_new (policy : Policy) : (Heap.new policy).ChargedBare := by
  intro slot c hc
  rw [cell?_of_size_le (Nat.zero_le slot)] at hc
  cases hc

/-- A table may change if the object takes as much as before without its buckets. -/
theorem ChargedBare.replace (hc : h.ChargedBare) {k : Kind} {r : Ref k} {p q : k.Payload}
    (hr : h.object? r.slot = some (.of k p))
    (hbare : chargeOf (.of k q) + Object.bucketBytes * (Object.of k p).buckets =
      chargeOf (.of k p) + Object.bucketBytes * (Object.of k q).buckets) :
    (h.replace r q).ChargedBare := by
  intro slot c hslot
  rw [cell?_replace] at hslot
  split at hslot
  · next heq =>
    obtain ⟨c', hc', rfl⟩ := Option.map_eq_some_iff.1 hslot
    have hold := hc slot c' hc'
    rw [heq] at hc'
    rw [object?, hc', Option.map_some, Option.some.injEq] at hr
    rw [hr] at hold
    show c'.charge + Object.bucketBytes * (Object.of k q).buckets = chargeOf (.of k q)
    omega
  · exact hc slot c hslot

theorem ChargedBare.replaceMethods (hc : h.ChargedBare) {r : Ref .cls} {c : Class}
    (ho : h.object? r.slot = some (.cls c)) (methods : Table) :
    (h.replace r { c with methods }).ChargedBare := by
  refine hc.replace (k := .cls) (p := c) ho ?_
  simp only [chargeOf, Object.of, Object.footprint, Object.buckets]
  omega

theorem ChargedBare.replaceFields (hc : h.ChargedBare) {r : Ref .inst} {i : Instance}
    (ho : h.object? r.slot = some (.inst i)) (fields : Table) :
    (h.replace r { i with fields }).ChargedBare := by
  refine hc.replace (k := .inst) (p := i) ho ?_
  simp only [chargeOf, Object.of, Object.footprint, Object.buckets]
  omega

theorem ChargedBare.chargeAt_add (hc : h.ChargedBare) {slot : Nat} (ho : h.Occupied slot) :
    h.chargeAt slot + Object.bucketBytes * h.bucketsAt slot = h.currentAt slot := by
  obtain ⟨c, hslot⟩ := ho
  rw [chargeAt, bucketsAt, currentAt, object?, hslot]
  exact hc slot c hslot

theorem ChargedBare.bytes_add (hc : h.ChargedBare) (hb : h.Balanced) :
    h.bytes + Object.bucketBytes * h.bucketCount = h.currentBytes := by
  rw [hb.bytes_eq, bucketCount, Finset.mul_sum, ← Finset.sum_add_distrib, currentBytes]
  exact Finset.sum_congr rfl fun slot hslot => hc.chargeAt_add (mem_liveSlots.1 hslot)

theorem bucketCount_eq_zero_iff :
    h.bucketCount = 0 ↔ ∀ slot o, h.object? slot = some o → o.buckets = 0 := by
  rw [bucketCount, Finset.sum_eq_zero_iff]
  constructor
  · intro hzero slot o ho
    have hslot := hzero slot (mem_liveSlots.2 (occupied_iff_object?.2 ⟨o, ho⟩))
    rwa [bucketsAt, ho] at hslot
  · intro hnone slot hslot
    obtain ⟨o, ho⟩ := occupied_iff_object?.1 (mem_liveSlots.1 hslot)
    rw [bucketsAt, ho]
    exact hnone slot o ho

end Heap

namespace Machine

variable {m after : Machine} {policy : Policy} {request : Request}

/-! ## What one request keeps -/

/-- A new object has no buckets. -/
theorem Brings.buckets_eq {reply : Reply} {fired : Bool} {fresh : Option (Nat × Object)}
    (hb : m.Brings request reply fired fresh) :
    ∀ slot o, fresh = some (slot, o) → o.buckets = 0 := by
  induction hb with
  | found | collect => nofun
  | string | cls | inst =>
    rintro slot o ⟨⟩
    rfl
  | concatenate _ _ _ ih => exact ih

/-- What is left was charged before, and what is new is charged as it is. -/
theorem Spares.chargedBare {held : List Nat} {fired : Bool} {fresh : Option (Nat × Object)}
    (hs : m.Spares held fired fresh after) (hc : m.heap.ChargedBare)
    (hfresh : ∀ slot o, fresh = some (slot, o) → o.buckets = 0) : after.heap.ChargedBare := by
  intro slot c hslot
  by_cases hleft : m.heap.Outlasts fired (m.roots ++ held) slot
  · rw [hs.kept slot hleft] at hslot
    exact hc slot c hslot
  · by_cases hnew : ∃ o, fresh = some (slot, o)
    · obtain ⟨o, hnew⟩ := hnew
      rw [(hs.fresh slot o hnew).2, Option.some.injEq] at hslot
      rw [← hslot]
      show Heap.chargeOf o + Object.bucketBytes * o.buckets = Heap.chargeOf o
      rw [hfresh slot o hnew, Nat.mul_zero, Nat.add_zero]
    · rw [hs.gone slot hleft (not_exists.1 hnew)] at hslot
      cases hslot

theorem Sound.chargedBare_of_mayCollect (hm : m.Sound) (ha : m.Accepts request)
    (hr : request.mayCollect = true) {reply : Reply}
    (hok : (m.handle request).result = .ok (after, reply)) (hc : m.heap.ChargedBare) :
    after.heap.ChargedBare := by
  rcases hm.sparesIn ha hr with
    ⟨hfault, -⟩ | ⟨after', reply', fired, fresh, hok', hbrings, hspares⟩
  · rw [hok] at hfault
    cases hfault
  · rw [hok, Except.ok.injEq, Prod.mk.injEq] at hok'
    obtain ⟨rfl, rfl⟩ := hok'
    exact hspares.chargedBare hc hbrings.buckets_eq

theorem Sound.chargedBare_reset (hm : m.Sound) {reply : Reply}
    (hok : (m.handle .reset).result = .ok (after, reply)) : after.heap.ChargedBare := by
  obtain ⟨vacant, hreset, hvacant⟩ := hm.reset
  obtain ⟨after', hreset', hok⟩ := Outcome.of_bind_eq_ok hok
  cases hok
  obtain rfl := Except.ok.inj (hreset.symm.trans hreset')
  intro slot c hslot
  exact absurd ⟨c, hslot⟩ (hvacant.not_occupied slot)

/-- A request keeps what objects were charged in step with what they take without buckets. -/
theorem Sound.chargedBare_handle (hm : m.Sound) (ha : m.Accepts request) {reply : Reply}
    (hok : (m.handle request).result = .ok (after, reply)) (hc : m.heap.ChargedBare) :
    after.heap.ChargedBare := by
  by_cases hr : request.mayCollect = true
  · exact hm.chargedBare_of_mayCollect ha hr hok hc
  · have hstep := hm.step_of_handle ha hok
    cases hstep with
    | push | pop | peek | defineGlobal | getGlobal | getUndefined | setGlobal | setUndefined
    | globalNames | inheritNoClass | getField | getMethod | getUnknown | getNoInstance
    | setNoInstance | display => exact hc
    | internOld | internNew | concatenate | newClass | newInstance | collect => exact absurd rfl hr
    | defineMethod name method ho => exact hc.replaceMethods ho _
    | inherit _ ho => exact hc.replaceMethods ho _
    | setField name v ho => exact hc.replaceFields ho _
    | reset => exact hm.chargedBare_reset hok

/-! ## All machines -/

theorem Arises.chargedBare (ha : m.Arises policy) : m.heap.ChargedBare := by
  induction ha with
  | new => exact Heap.chargedBare_new policy
  | handle hprev haccepts hok ih => exact hprev.sound.chargedBare_handle haccepts hok ih

/-- The bytes fall short by the buckets of objects, and so does what thresholds are computed from. -/
structure Understates (policy : Policy) (m : Machine) : Prop where
  charge : ∀ slot c, m.heap.cell? slot = some c →
    c.charge + Object.bucketBytes * c.object.buckets = Heap.chargeOf c.object
  bytes : m.heap.bytes + Object.bucketBytes * m.heap.bucketCount = m.heap.currentBytes
  exact_iff : m.heap.bytes = m.heap.currentBytes ↔
    ∀ slot o, m.heap.object? slot = some o → o.buckets = 0
  threshold : ∀ after, (m.handle .collect).result = .ok (after, .done) →
    after.heap.threshold =
      max ((after.heap.currentBytes - Object.bucketBytes * after.heap.bucketCount) *
        policy.growthFactor) policy.initialThreshold

theorem Arises.bytes_add (ha : m.Arises policy) :
    m.heap.bytes + Object.bucketBytes * m.heap.bucketCount = m.heap.currentBytes :=
  ha.chargedBare.bytes_add ha.sound.heap.balanced

theorem Arises.threshold_collect (ha : m.Arises policy)
    (hok : (m.handle .collect).result = .ok (after, .done)) : after.heap.threshold =
      max (after.heap.bytes * policy.growthFactor) policy.initialThreshold := by
  obtain ⟨collected, hc, hok⟩ := Outcome.of_bind_eq_ok hok
  cases hok
  obtain ⟨heap, hheap, rfl⟩ := of_collect_eq_ok hc
  have hpolicy : (m.heap.markAll m.roots).policy = policy :=
    (Heap.repainted_markAll m.heap m.roots).policy_eq.trans ha.policy_eq
  rw [Heap.threshold_collect hheap, hpolicy]

/-- **The bytes of a machine are what its objects take now, without the buckets of their tables.**
They are all that the objects take if and only if no class and no instance has buckets. -/
theorem Arises.understates (ha : m.Arises policy) : m.Understates policy where
  charge := ha.chargedBare
  bytes := ha.bytes_add
  exact_iff := by
    rw [← Heap.bucketCount_eq_zero_iff, ← ha.bytes_add, Object.bucketBytes]
    omega
  threshold after hok := by
    have hafter : after.Arises policy := .handle ha (show m.Accepts .collect from trivial) hok
    rw [ha.threshold_collect hok, ← hafter.bytes_add, Nat.add_sub_cancel]

/-! ## A class with a method -/

theorem arises_grown : Arises {} { heap := Heap.grown } := by
  have hclass : Heap.classed.Valid (⟨1⟩ : Ref .cls) := ⟨{ name := Heap.ringName }, rfl⟩
  have hname : Heap.classed.ValidSymbol Heap.ringName := ⟨.ofText "A" 0, rfl, rfl⟩
  exact .handle arises_classed
    (show Accepts _ (.defineMethod ⟨1⟩ Heap.ringName (.cls ⟨1⟩)) from ⟨hclass, hname, hclass⟩)
    (show _ = Except.ok (_, .done) by decide +kernel)

/-- The class has eight buckets, which nobody has been charged for. -/
theorem understates_grown : Understates {} { heap := Heap.grown } ∧
    Heap.grown.bytes = 153 ∧ Heap.grown.bucketCount = 8 ∧ Heap.grown.currentBytes = 473 := by
  have hunderstates := Arises.understates arises_grown
  have hcount : Heap.grown.bucketCount = 8 := by decide +kernel
  have hbytes : Heap.grown.bytes = 153 := by decide +kernel
  refine ⟨hunderstates, hbytes, hcount, ?_⟩
  have hcurrent : Heap.grown.bytes + Object.bucketBytes * Heap.grown.bucketCount =
      Heap.grown.currentBytes := hunderstates.bytes
  rw [← hcurrent, hbytes, hcount]
  rfl

/-- The bytes are not always what the objects take now. -/
theorem not_bytes_current : ¬∀ (policy : Policy) (m : Machine), m.Arises policy →
    m.heap.bytes = m.heap.currentBytes := by
  intro hall
  have heq := hall {} _ arises_grown
  exact absurd heq (by decide +kernel)

end Machine

end ObjectHeap
