import ObjectHeap.Proofs.Heap.Slots

/-!
# Accounts

The bytes of a heap are the charges of its objects, added up (`Balanced`). Nothing is ever
recomputed: an allocation adds the charge of the new object, a sweep takes off those of the white
ones, and what an object was charged stays with it however its tables grow. So a sweep never takes
off more than there is, and the truncated subtraction in it is an exact one.
-/

set_option autoImplicit false

namespace ObjectHeap

namespace Heap

variable {h g : Heap}

/-- The bytes are the charges of all objects together. -/
def Balanced (h : Heap) : Prop := h.bytes = h.chargesAt (List.range h.cells.size)

theorem chargesAt_append (h : Heap) (l l' : List Nat) :
    h.chargesAt (l ++ l') = h.chargesAt l + h.chargesAt l' := by
  induction l with
  | nil => simp [chargesAt]
  | cons slot rest ih => simp only [List.cons_append, chargesAt, ih, Nat.add_assoc]

theorem chargesAt_congr {l : List Nat} (heq : ∀ slot ∈ l, g.chargeAt slot = h.chargeAt slot) :
    g.chargesAt l = h.chargesAt l := by
  induction l with
  | nil => rfl
  | cons slot rest ih =>
    rw [chargesAt, chargesAt, heq slot List.mem_cons_self,
      ih fun s hs => heq s (List.mem_cons_of_mem _ hs)]

theorem chargeAt_of_empty {slot : Nat} (he : h.cell? slot = none) : h.chargeAt slot = 0 := by
  rw [chargeAt, he]
  rfl

/-- Where one slot differs, the sums differ by what is charged there. -/
theorem chargesAt_of_ne {slot : Nat} {l : List Nat} (hn : l.Nodup) (hmem : slot ∈ l)
    (hempty : h.cell? slot = none) (hne : ∀ s, s ≠ slot → g.chargeAt s = h.chargeAt s) :
    g.chargesAt l = h.chargesAt l + g.chargeAt slot := by
  induction l with
  | nil => exact absurd hmem List.not_mem_nil
  | cons s rest ih =>
    obtain ⟨hs, hrest⟩ := List.nodup_cons.1 hn
    rw [chargesAt, chargesAt]
    by_cases heq : s = slot
    · have hsame : g.chargesAt rest = h.chargesAt rest :=
        chargesAt_congr fun t ht => hne t fun hts => hs (by rwa [heq, ← hts])
      rw [heq, hsame, chargeAt_of_empty hempty]
      omega
    · have hin : slot ∈ rest := (List.mem_cons.1 hmem).resolve_left (Ne.symm heq)
      rw [ih hrest hin, hne s heq]
      omega

/-- What a predicate selects and what it leaves make up the whole. -/
theorem chargesAt_filter_add (h : Heap) (p : Nat → Bool) (l : List Nat) :
    h.chargesAt (l.filter p) + h.chargesAt (l.filter fun slot => !p slot) = h.chargesAt l := by
  induction l with
  | nil => rfl
  | cons slot rest ih =>
    rw [chargesAt, ← ih]
    cases hp : p slot
    · rw [List.filter_cons_of_neg (by simp [hp]), List.filter_cons_of_pos (by simp [hp]), chargesAt]
      omega
    · rw [List.filter_cons_of_pos hp, List.filter_cons_of_neg (by simp [hp]), chargesAt]
      omega

/-! ## Operations -/

theorem balanced_new (policy : Policy) : (Heap.new policy).Balanced := rfl

theorem Repainted.balanced (hg : Repainted h g) (hb : h.Balanced) : g.Balanced := by
  rw [Balanced, hg.bytes_eq, hg.size_eq, hb]
  exact (chargesAt_congr fun slot _ => hg.chargeAt_eq slot).symm

theorem bytes_place (h : Heap) (o : Object) : (h.place o).1.bytes = h.bytes + chargeOf o := by
  cases hf : h.free with
  | nil => rw [place_of_full hf]
  | cons slot free => rw [place_of_free hf]

theorem Balanced.place (hb : h.Balanced) (hs : h.Slotted) (o : Object) :
    (h.place o).1.Balanced := by
  have hcharge : (h.place o).1.chargeAt (h.place o).2 = chargeOf o := by
    rw [chargeAt, cell?_place hs, if_pos rfl]
    rfl
  have hne : ∀ s, s ≠ (h.place o).2 → (h.place o).1.chargeAt s = h.chargeAt s := by
    intro s hne
    rw [chargeAt, cell?_place hs, if_neg hne, chargeAt]
  rw [Balanced, bytes_place, hb, ← hcharge]
  cases hf : h.free with
  | nil =>
    have hslot : (h.place o).2 = h.cells.size := by rw [place_of_full hf]
    have hsize : (h.place o).1.cells.size = h.cells.size + 1 := by
      rw [place_of_full hf, Array.size_push]
    have hold : (h.place o).1.chargesAt (List.range h.cells.size) =
        h.chargesAt (List.range h.cells.size) := by
      refine chargesAt_congr fun s hs' => hne s ?_
      have hlt := List.mem_range.1 hs'
      omega
    rw [hsize, List.range_succ, chargesAt_append, hold, hslot]
    simp [chargesAt]
  | cons slot free =>
    have hslot : (h.place o).2 = slot := by rw [place_of_free hf]
    have hsize : (h.place o).1.cells.size = h.cells.size := by
      rw [place_of_free hf, Array.size_setIfInBounds]
    have hfree := (hs.mem_iff slot).1 (hf ▸ List.mem_cons_self)
    rw [hslot] at hne ⊢
    rw [hsize]
    exact (chargesAt_of_ne List.nodup_range (List.mem_range.2 hfree.1) hfree.2 hne).symm

theorem Balanced.replace (hb : h.Balanced) {k : Kind} {r : Ref k} {p : k.Payload} :
    (h.replace r p).Balanced := by
  have hcharge : ∀ slot, (h.replace r p).chargeAt slot = h.chargeAt slot := by
    intro slot
    rw [chargeAt, cell?_replace, chargeAt]
    split
    · cases h.cell? slot <;> rfl
    · rfl
  rw [Balanced, show (h.replace r p).bytes = h.bytes from rfl, hb,
    show (h.replace r p).cells.size = h.cells.size from Array.size_modify]
  exact (chargesAt_congr fun slot _ => hcharge slot).symm

/-- Only cells and bytes matter. -/
theorem Balanced.congr (hb : h.Balanced) (hcells : g.cells = h.cells) (hbytes : g.bytes = h.bytes) :
    g.Balanced := by
  have hcharge : ∀ slot, g.chargeAt slot = h.chargeAt slot := by
    intro slot
    rw [chargeAt, cell?, hcells, chargeAt, cell?]
  rw [Balanced, hcells, hbytes, hb]
  exact (chargesAt_congr fun slot _ => hcharge slot).symm

/-- A sweep takes off the charges of the objects that it releases, and these are there to be taken.
-/
theorem Balanced.sweep (hb : h.Balanced) : h.sweep.Balanced := by
  have hcharge : ∀ slot, h.sweep.chargeAt slot =
      if h.isWhite slot then 0 else h.chargeAt slot := by
    intro slot
    rw [chargeAt, cell?_sweep, chargeAt, isWhite]
    rcases h.cell? slot with _ | ⟨o, n, marked⟩
    · rfl
    · cases marked <;> rfl
  have hsize : h.sweep.cells.size = h.cells.size := Array.size_map
  have hsplit := chargesAt_filter_add h h.isWhite (List.range h.cells.size)
  have hsplit' := chargesAt_filter_add h.sweep h.isWhite (List.range h.cells.size)
  -- What is swept is charged nothing any more, the rest what it was.
  have hswept : h.sweep.chargesAt ((List.range h.cells.size).filter h.isWhite) = 0 := by
    generalize List.range h.cells.size = l
    induction l with
    | nil => rfl
    | cons slot rest ih =>
      by_cases hw : h.isWhite slot = true
      · rw [List.filter_cons_of_pos hw, chargesAt, hcharge, if_pos hw, ih]
      · rw [List.filter_cons_of_neg hw, ih]
  have hrest : h.sweep.chargesAt ((List.range h.cells.size).filter fun s => !h.isWhite s) =
      h.chargesAt ((List.range h.cells.size).filter fun s => !h.isWhite s) := by
    apply chargesAt_congr
    intro slot hslot
    have hw := (List.mem_filter.1 hslot).2
    rw [hcharge, if_neg (by simpa using hw)]
  rw [Balanced, hsize, ← hsplit', hswept, hrest,
    show h.sweep.bytes =
      h.bytes - h.chargesAt ((List.range h.cells.size).filter h.isWhite) from rfl, hb, ← hsplit]
  omega

theorem Balanced.swept (hb : h.Balanced) : h.swept.Balanced := by
  have htraced := (repainted_trace h).balanced hb
  have hdropped : h.trace.1.dropStrings.1.Balanced := htraced.congr rfl rfl
  exact hdropped.sweep

end Heap

end ObjectHeap
