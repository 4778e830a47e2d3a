import ObjectHeap.Proofs.Heap.Ledger
import ObjectHeap.Proofs.Heap.Lookups

/-!
# When a collection fails

A collection reads slots, takes charges off the bytes and multiplies what is left by the growth
factor. Only the last of these can go wrong, and whether it does can be told before the collection
starts: if what the reachable objects have been charged, times the factor, does not fit in a word
(`History.ends_by_charge`). The sum does not mention the sweep, but it is what the sweep leaves,
because tracing is exact and so are the accounts.

Everything else has been done by then. No slot that a collection looks up is missing, as long as the
references that objects hold have been handed out (`Consults`), and there is never less to subtract
from than is subtracted.
-/

set_option autoImplicit false

namespace ObjectHeap

namespace Heap

variable {h after : Heap} {overwrites : Bool} {policy : Policy} {slot : Nat}

/-! ## The bytes that a sweep leaves -/

/-- What the objects that can be reached from the marked slots have been charged. -/
noncomputable def reachableCharge (h : Heap) : Nat :=
  open Classical in ∑ slot ∈ h.liveSlots with h.Reach h.markedSlots slot, h.chargeAt slot

/-- An object that is left is charged what it was. -/
theorem chargeAt_swept (ht : h.Traced) (hr : h.Reach h.markedSlots slot) :
    h.swept.chargeAt slot = h.chargeAt slot := by
  obtain ⟨c, hc⟩ := hr.occupied
  have hleft : h.swept.cell? slot = some c.bare := (cell?_swept ht).2 ⟨hr, by rw [hc]; rfl⟩
  rw [chargeAt, chargeAt, hleft, hc]
  rfl

/-- **What is left are the charges of the reachable objects.** -/
theorem Sound.bytes_swept (hs : h.Sound) : h.swept.bytes = h.reachableCharge := by
  classical
  have ht := hs.tidy.traced
  have hlive : h.swept.liveSlots = h.liveSlots.filter (h.Reach h.markedSlots) := by
    ext slot
    rw [Finset.mem_filter, mem_liveSlots, mem_liveSlots, occupied_swept ht]
    exact ⟨fun hr => ⟨hr.occupied, hr⟩, And.right⟩
  rw [hs.balanced.swept.bytes_eq, hlive, reachableCharge]
  refine Finset.sum_congr (by congr) fun slot hslot => ?_
  exact chargeAt_swept ht (Finset.mem_filter.1 hslot).2

theorem Sound.reachableCharge_le (hs : h.Sound) : h.reachableCharge ≤ h.bytes := by
  classical
  rw [hs.balanced.bytes_eq, reachableCharge]
  exact Finset.sum_le_sum_of_subset (Finset.filter_subset _ _)

/-! ## The two ends of a collection -/

theorem collect_of_fits (hfits : h.swept.bytes * h.policy.growthFactor < UInt64.size) :
    h.collect.result = .ok { h.swept with
      cycles := h.cycles + 1
      threshold := max (h.swept.bytes * h.policy.growthFactor) h.policy.initialThreshold } := by
  rw [← swept_policy h] at hfits ⊢
  rw [collect_result, nextThreshold, if_pos hfits, ← swept_cycles h]
  rfl

theorem collect_of_overflow (hover : UInt64.size ≤ h.swept.bytes * h.policy.growthFactor) :
    h.collect.result = .error .thresholdOverflow := by
  rw [← swept_policy h] at hover
  rw [collect_result, nextThreshold, if_neg (Nat.not_lt.2 hover)]
  rfl

/-- The journal of a collection that fails ends with the releases. -/
theorem events_collect_of_error {f : Fault} (hc : h.collect.result = .error f) :
    h.collect.events = .cycleBegan :: h.trace.2 ++ h.collect.releases.map .freed := by
  rw [releases_collect]
  have hnext : ∃ f, h.trace.1.dropStrings.1.sweep.nextThreshold = .error f := by
    rw [collect_result] at hc
    cases ht : h.swept.nextThreshold with
    | error f => exact ⟨f, ht⟩
    | ok threshold => rw [ht] at hc; cases hc
  obtain ⟨f, hnext⟩ := hnext
  simp only [collect, Outcome.events_bind, Outcome.events_report, Outcome.result_report,
    Outcome.events_liftM, Outcome.result_liftM, hnext, List.append_nil]
  rfl

theorem Sound.mem_releases_iff (hs : h.Sound) :
    slot ∈ h.collect.releases ↔ h.Occupied slot ∧ ¬h.Reach h.markedSlots slot := by
  have hpaint := repainted_trace h
  rw [releases_collect, mem_garbage, ← isMarked_trace_iff hs.tidy.traced, ← hpaint.occupied_iff]
  constructor
  · intro hw
    have ho : h.trace.1.Occupied slot := (isWhite_iff.1 hw).imp fun _ => And.left
    exact ⟨ho, (isWhite_iff_not_isMarked ho).1 hw⟩
  · rintro ⟨ho, hm⟩
    exact (isWhite_iff_not_isMarked ho).2 hm

/-! ## Every collection -/

/-- How a collection ends, if these slots have been handed out so far. -/
structure EndsByCharge (policy : Policy) (handed : List Nat) (h : Heap) : Prop where
  fails_iff : (∃ f, h.collect.result = .error f) ↔
    UInt64.size ≤ h.reachableCharge * policy.growthFactor
  /-- It fails at the threshold and after the sweep. -/
  failed : ∀ f, h.collect.result = .error f → f = .thresholdOverflow ∧
    h.collect.events = .cycleBegan :: h.trace.2 ++ h.collect.releases.map .freed
  completes : h.reachableCharge * policy.growthFactor < UInt64.size →
    ∃ after, h.collect.result = .ok after ∧ after.cycles = h.cycles + 1 ∧
      after.bytes = h.reachableCharge ∧
      after.threshold = max (h.reachableCharge * policy.growthFactor) policy.initialThreshold
  /-- The sweep releases what cannot be reached, however the collection ends. -/
  released : ∀ slot, slot ∈ h.collect.releases ↔ h.Occupied slot ∧ ¬h.Reach h.markedSlots slot
  /-- At every release at least its charge is left. -/
  covered : ∀ before slot rest, h.collect.releases = before ++ slot :: rest →
    h.chargeAt slot ≤ h.bytes - h.chargesAt before
  dropped_le : h.trace.1.dropStrings.2 ≤ h.strings.size
  left_le : h.reachableCharge ≤ h.bytes
  lt_size : (∀ slot o target, h.object? slot = some o → o.RefersTo target → target ∈ handed) →
    ∀ slot, h.Consults slot → slot < h.cells.size

variable {past : List Heap} {handed : List Nat} {journal : List Event}

/-- **When a collection fails.** In every heap that arises, whatever has been marked, a collection
fails if and only if what the objects that can be reached from the marked slots have been charged,
times the growth factor, does not fit in a word. Then all has been traced, pruned and released, and
only the threshold is missing. Otherwise the collection completes: it counts as one more, and the
threshold is that product, or the initial threshold if the product is less. -/
theorem History.ends_by_charge (hh : History overwrites policy (h :: past) handed journal) :
    h.EndsByCharge policy handed := by
  have hs := hh.arises.sound
  have hbytes := hs.bytes_swept
  have hpolicy := hh.arises.policy_eq
  have hcompletes : h.reachableCharge * policy.growthFactor < UInt64.size →
      ∃ after, h.collect.result = .ok after ∧ after.cycles = h.cycles + 1 ∧
        after.bytes = h.reachableCharge ∧
        after.threshold =
          max (h.reachableCharge * policy.growthFactor) policy.initialThreshold := by
    intro hfits
    rw [← hbytes, ← hpolicy] at hfits ⊢
    exact ⟨_, collect_of_fits hfits, rfl, rfl, rfl⟩
  refine ⟨⟨?_, ?_⟩, ?_, hcompletes, fun slot => hs.mem_releases_iff, ?_, ?_, hs.reachableCharge_le,
    ?_⟩
  · rintro ⟨f, hf⟩
    by_contra hfits
    obtain ⟨after, hok, -⟩ := hcompletes (Nat.not_le.1 hfits)
    rw [hok] at hf
    cases hf
  · intro hover
    rw [← hbytes, ← hpolicy] at hover
    exact ⟨_, collect_of_overflow hover⟩
  · exact fun f hf => ⟨of_collect_eq_error hf, events_collect_of_error hf⟩
  · exact fun before slot rest => hs.balanced.covered
  · rw [← (repainted_trace h).strings_eq]
    refine Table.Layout.dropped_le ?_ _
    rw [(repainted_trace h).strings_eq]
    exact hs.strings.layout
  · exact fun hheld slot => hh.consults_lt_size hheld

/-! ## A steep factor -/

/-- A heap with a string that is marked and one that is not. -/
def steep : Heap :=
  ((((Heap.new { growthFactor := 2 ^ 58 }).withString (.ofText "a" 0)).1.withString
    (.ofText "b" 0)).1).mark 0

theorem history_steep : ∃ past journal,
    History false { growthFactor := 2 ^ 58 } (steep :: past) [0, 1] journal := by
  have hfirst : ((Heap.new { growthFactor := 2 ^ 58 }).internReserving "a" 0).result =
      .ok (((Heap.new { growthFactor := 2 ^ 58 }).withString (.ofText "a" 0)).1,
        { str := ⟨0⟩, hash := Text.hash "a" }) := by decide +kernel
  have hsecond : (((Heap.new { growthFactor := 2 ^ 58 }).withString
      (.ofText "a" 0)).1.internReserving "b" 0).result =
      .ok ((((Heap.new { growthFactor := 2 ^ 58 }).withString (.ofText "a" 0)).1.withString
        (.ofText "b" 0)).1, { str := ⟨1⟩, hash := Text.hash "b" }) := by decide +kernel
  exact ⟨_, _, ((History.new.step (.intern hfirst)).step (.intern hsecond)).step (.mark 0)⟩

/-- Of 130 bytes 65 are left, and with this factor 64 would be too much already. The other string is
gone by then. -/
theorem ends_by_charge_steep : steep.bytes = 130 ∧ steep.reachableCharge = 65 ∧
    (∃ f, steep.collect.result = .error f) ∧
    (1 ∈ steep.collect.releases ↔ steep.Occupied 1 ∧ ¬steep.Reach steep.markedSlots 1) := by
  obtain ⟨past, journal, hh⟩ := history_steep
  have hends := hh.ends_by_charge
  have hcharge : steep.reachableCharge = 65 :=
    hh.arises.sound.bytes_swept.symm.trans (by decide +kernel)
  exact ⟨by decide +kernel, hcharge, hends.fails_iff.2 (by rw [hcharge]; decide),
    hends.released 1⟩

end Heap

end ObjectHeap
