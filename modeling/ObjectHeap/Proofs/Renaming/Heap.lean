import Mathlib.Logic.Equiv.Basic
import ObjectHeap.Proofs.Heap.Kept
import ObjectHeap.Proofs.Heap.Ledger
import ObjectHeap.Proofs.Machine.Clearing
import ObjectHeap.Proofs.Renaming.Table

/-!
# Renaming slots in heaps

Two heaps match under a permutation of the slots if it carries the cells of one to those of the
other (`Matches`). Nothing is said about free slots, nor about the table of interned strings: what
can be reached, what is spelled, what is charged and how many objects there are can all be told from
the cells. So these agree between matching heaps, and allocation, editing and collection keep the
heaps matching.

Allocation chooses its slot by the free stack, and the free stacks may differ. The permutation is
then changed so that it carries the slot chosen in one heap to the slot chosen in the other
(`pointTo`). Both slots were empty, so no reference that is stored anywhere notices.
-/

set_option autoImplicit false

namespace ObjectHeap

/-! ## Objects -/

def Class.rename (σ : Nat → Nat) (c : Class) : Class :=
  { name := c.name.rename σ, methods := c.methods.rename σ }

def Instance.rename (σ : Nat → Nat) (i : Instance) : Instance :=
  { cls := i.cls.rename σ, fields := i.fields.rename σ }

/-- What an object of the given kind consists of, renamed. -/
def Kind.rename (σ : Nat → Nat) : (k : Kind) → k.Payload → k.Payload
  | .str, s => s
  | .cls, c => Class.rename σ c
  | .inst, i => Instance.rename σ i
  | .box, v => Value.rename σ v

namespace Object

def rename (σ : Nat → Nat) : Object → Object
  | .str s => .str s
  | .cls c => .cls (c.rename σ)
  | .inst i => .inst (i.rename σ)
  | .box v => .box (v.rename σ)

theorem rename_of (σ : Nat → Nat) (k : Kind) (p : k.Payload) :
    (of k p).rename σ = of k (k.rename σ p) := by
  cases k <;> rfl

/-- An object is of the kind that it is renamed to. -/
theorem of_rename_eq {σ : Nat → Nat} {o : Object} {k : Kind} {p : k.Payload}
    (ho : o.rename σ = of k p) : ∃ q, o = of k q ∧ k.rename σ q = p := by
  cases k <;> cases o <;> cases ho <;> exact ⟨_, rfl, rfl⟩

@[simp] theorem footprint_rename (σ : Nat → Nat) (o : Object) :
    (o.rename σ).footprint = o.footprint := by
  cases o with
  | str s => rfl
  | cls c => simp [rename, footprint, Class.rename]
  | inst i => simp [rename, footprint, Instance.rename]
  | box v => rfl

@[simp] theorem targets_rename (σ : Nat → Nat) (o : Object) :
    (o.rename σ).targets = o.targets.map σ := by
  cases o with
  | str s => rfl
  | cls c => simp [rename, targets, Class.rename]
  | inst i => simp [rename, targets, Instance.rename]
  | box v => rw [rename, targets, targets, Value.target?_rename, Option.toList_map]

theorem refersTo_rename {σ : Nat → Nat} {o : Object} {slot : Nat} :
    (o.rename σ).RefersTo slot ↔ ∃ s, o.RefersTo s ∧ σ s = slot := by
  simp only [← mem_targets, targets_rename, List.mem_map]

/-- Only the slots that an object refers to matter. -/
theorem rename_congr {σ τ : Nat → Nat} {o : Object}
    (heq : ∀ slot, o.RefersTo slot → σ slot = τ slot) : o.rename σ = o.rename τ := by
  cases o with
  | str s => rfl
  | cls c =>
    have hname : c.name.rename σ = c.name.rename τ := by
      simp only [Symbol.rename, Ref.rename, heq _ (.name c)]
    have hmethods : c.methods.rename σ = c.methods.rename τ := by
      refine Table.rename_congr fun slot hslot => heq slot ?_
      rw [← mem_targets]
      exact List.mem_cons_of_mem _ hslot
    simp only [rename, Class.rename, hname, hmethods]
  | inst i =>
    have hcls : i.cls.rename σ = i.cls.rename τ := by
      simp only [Ref.rename, heq _ (.cls i)]
    have hfields : i.fields.rename σ = i.fields.rename τ := by
      refine Table.rename_congr fun slot hslot => heq slot ?_
      rw [← mem_targets]
      exact List.mem_cons_of_mem _ hslot
    simp only [rename, Instance.rename, hcls, hfields]
  | box v =>
    have hv : v.rename σ = v.rename τ :=
      Value.rename_congr fun slot hslot => heq slot (.box hslot)
    simp only [rename, hv]

end Object

def Cell.rename (σ : Nat → Nat) (c : Cell) : Cell := { c with object := c.object.rename σ }

namespace Heap

variable {h g : Heap} {σ τ : Equiv.Perm Nat}

/-- The permutation carries the cells of one heap to those of the other. -/
def Matches (σ : Equiv.Perm Nat) (h g : Heap) : Prop :=
  ∀ slot, g.cell? (σ slot) = (h.cell? slot).map (Cell.rename σ)

namespace Matches

/-! ## What matching heaps have in common -/

theorem object?_eq (hm : Matches σ h g) (slot : Nat) :
    g.object? (σ slot) = (h.object? slot).map (Object.rename σ) := by
  rw [object?, hm slot, object?, Option.map_map, Option.map_map]
  rfl

theorem occupied_iff (hm : Matches σ h g) {slot : Nat} :
    g.Occupied (σ slot) ↔ h.Occupied slot := by
  rw [Occupied, Occupied, ← Option.isSome_iff_exists, ← Option.isSome_iff_exists, hm slot,
    Option.isSome_map]

theorem chargeAt_eq (hm : Matches σ h g) (slot : Nat) : g.chargeAt (σ slot) = h.chargeAt slot := by
  rw [chargeAt, hm slot, chargeAt, Option.map_map]
  rfl

theorem liveSlots_eq (hm : Matches σ h g) : g.liveSlots = h.liveSlots.map σ.toEmbedding := by
  ext slot
  obtain ⟨s, rfl⟩ := σ.surjective slot
  rw [mem_liveSlots, hm.occupied_iff, ← mem_liveSlots]
  exact (Finset.mem_map' σ.toEmbedding).symm

theorem objectCount_eq (hm : Matches σ h g) : g.objectCount = h.objectCount := by
  rw [Heap.objectCount_eq, Heap.objectCount_eq, hm.liveSlots_eq, Finset.card_map]

theorem bytes_eq (hm : Matches σ h g) (hb : h.Balanced) (hb' : g.Balanced) :
    g.bytes = h.bytes := by
  rw [hb.bytes_eq, hb'.bytes_eq, hm.liveSlots_eq, Finset.sum_map]
  exact Finset.sum_congr rfl fun slot _ => hm.chargeAt_eq slot

/-- Edges are carried to edges, so what can be reached is carried to what can be reached. -/
theorem reach_iff (hm : Matches σ h g) {start : List Nat} {slot : Nat} :
    g.Reach (start.map σ) (σ slot) ↔ h.Reach start slot := by
  constructor
  · generalize hs : σ slot = target
    intro hr
    induction hr generalizing slot with
    | start hmem ho =>
      subst hs
      obtain ⟨s, hstart, heq⟩ := List.mem_map.1 hmem
      rw [σ.injective heq] at hstart
      exact .start hstart (hm.occupied_iff.1 ho)
    | @step a b o _ ho hrefers hocc ih =>
      subst hs
      obtain ⟨s, rfl⟩ := σ.surjective a
      rw [hm.object?_eq] at ho
      obtain ⟨o, hold, rfl⟩ := Option.map_eq_some_iff.1 ho
      obtain ⟨t, ht, heq⟩ := Object.refersTo_rename.1 hrefers
      rw [σ.injective heq] at ht
      exact .step (ih rfl) hold ht (hm.occupied_iff.1 hocc)
  · intro hr
    induction hr with
    | start hmem ho => exact .start (List.mem_map_of_mem hmem) (hm.occupied_iff.2 ho)
    | @step a b o _ ho hrefers hocc ih =>
      refine .step ih ?_ (Object.refersTo_rename.2 ⟨b, hrefers, rfl⟩) (hm.occupied_iff.2 hocc)
      rw [hm.object?_eq, ho]
      rfl

/-! ## References -/

theorem object?_of {k : Kind} (hm : Matches σ h g) {slot : Nat} {p : k.Payload}
    (ho : h.object? slot = some (.of k p)) : g.object? (σ slot) = some (.of k (k.rename σ p)) := by
  rw [hm.object?_eq, ho, ← Object.rename_of]
  rfl

theorem valid {k : Kind} {r : Ref k} (hm : Matches σ h g) (hv : h.Valid r) :
    g.Valid (r.rename σ) := by
  obtain ⟨p, ho⟩ := hv
  exact ⟨_, hm.object?_of ho⟩

theorem validSymbol {s : Symbol} (hm : Matches σ h g) (hv : h.ValidSymbol s) :
    g.ValidSymbol (s.rename σ) := by
  obtain ⟨str, ho, hhash⟩ := hv
  exact ⟨str, hm.object?_of (k := .str) ho, hhash⟩

theorem validValue {v : Value} (hm : Matches σ h g) (hv : h.ValidValue v) :
    g.ValidValue (v.rename σ) := by
  cases v with
  | nil | bool b | num n => trivial
  | str s => exact hm.validSymbol hv
  | cls c => exact hm.valid hv
  | inst i => exact hm.valid hv

theorem spells_iff {key : Symbol} {text : String} (hm : Matches σ h g) :
    g.Spells (key.rename σ) text ↔ h.Spells key text := by
  constructor
  · rintro ⟨s, ho, htext, hhash, hkey⟩
    rw [Symbol.slot_rename, hm.object?_eq] at ho
    obtain ⟨o, hold, hrename⟩ := Option.map_eq_some_iff.1 ho
    obtain ⟨q, rfl, rfl⟩ := Object.of_rename_eq (k := .str) hrename
    exact ⟨q, hold, htext, hhash, hkey⟩
  · rintro ⟨s, ho, htext, hhash, hkey⟩
    exact ⟨s, hm.object?_of (k := .str) ho, htext, hhash, hkey⟩

theorem deref_eq {k : Kind} {r : Ref k} {p : k.Payload} (hm : Matches σ h g) (hk : k ≠ .box)
    (ho : h.object? r.slot = some (.of k p)) : g.deref (r.rename σ) = .ok (k.rename σ p) :=
  deref_of_object? hk (hm.object?_of ho)

/-- Corresponding references lead to corresponding classes. -/
theorem deref_cls {c : Ref .cls} (hm : Matches σ h g) (hv : h.Valid c) : ∃ cls : Class,
    h.deref c = .ok cls ∧ g.deref (c.rename σ) = .ok (cls.rename σ) ∧
      h.object? c.slot = some (.cls cls) := by
  obtain ⟨cls, hcls, ho⟩ := hv.deref (by decide)
  exact ⟨cls, hcls, hm.deref_eq (k := .cls) (by decide) ho, ho⟩

theorem deref_inst {i : Ref .inst} (hm : Matches σ h g) (hv : h.Valid i) : ∃ inst : Instance,
    h.deref i = .ok inst ∧ g.deref (i.rename σ) = .ok (inst.rename σ) ∧
      h.object? i.slot = some (.inst inst) := by
  obtain ⟨inst, hinst, ho⟩ := hv.deref (by decide)
  exact ⟨inst, hinst, hm.deref_eq (k := .inst) (by decide) ho, ho⟩

theorem textOf_eq {key : Symbol} (hm : Matches σ h g) (hv : h.ValidSymbol key) :
    g.textOf (key.rename σ) = h.textOf key := by
  obtain ⟨str, ho, -⟩ := hv
  have hleft : h.deref key.str = .ok str := deref_of_object? (k := .str) (by decide) ho
  have hright : g.deref (key.str.rename σ) = .ok str := hm.deref_eq (k := .str) (by decide) ho
  rw [textOf, textOf, hleft, show (key.rename σ).str = key.str.rename σ from rfl, hright]

/-- A class is displayed in the same way. -/
theorem display_cls_eq {c : Ref .cls} (hm : Matches σ h g) (hc : h.Closed) (hv : h.Valid c) :
    (g.deref (c.rename σ) >>= fun cls => g.textOf cls.name) =
      (h.deref c >>= fun cls => h.textOf cls.name) := by
  obtain ⟨cls, hleft, hright, ho⟩ := hm.deref_cls hv
  have hname : h.ValidSymbol cls.name := (hc _ _ ho).1
  rw [hleft, hright]
  exact hm.textOf_eq hname

theorem display_eq {v : Value} (hm : Matches σ h g) (hc : h.Closed) (hv : h.ValidValue v) :
    g.display (v.rename σ) = h.display v := by
  cases v with
  | nil | num n => rfl
  | bool b => cases b <;> rfl
  | str s => exact hm.textOf_eq hv
  | cls c => exact hm.display_cls_eq hc hv
  | inst i =>
    obtain ⟨inst, hleft, hright, ho⟩ := hm.deref_inst hv
    have hcls : h.Valid inst.cls := (hc _ _ ho).1
    have hname := hm.display_cls_eq hc hcls
    simp only [Value.rename, display, hleft, hright]
    -- What is read of the class is the same, and so is what is added to it.
    have hbind := congrArg (fun x : Except Fault String => x >>= fun name =>
      (pure (name ++ " instance") : Except Fault String)) hname
    simp only [bind_assoc] at hbind
    exact hbind

/-! ## Changing the permutation -/

/-- Only what happens to occupied slots matters: what is stored there refers to such slots only. -/
theorem congr (hm : Matches σ h g) (hc : h.Closed)
    (hagree : ∀ slot, h.Occupied slot → τ slot = σ slot) : Matches τ h g := by
  intro slot
  cases hcell : h.cell? slot with
  | some c =>
    have ho : h.object? slot = some c.object := by rw [object?, hcell]; rfl
    have hobject : c.object.rename τ = c.object.rename σ :=
      Object.rename_congr fun t ht => hagree t ((hc slot _ ho).occupied ht)
    rw [hagree slot ⟨c, hcell⟩, hm slot, hcell, Option.map_some, Option.map_some, Cell.rename,
      Cell.rename, hobject]
  | none =>
    -- The slot that it is carried to now was the image of a slot that is empty, too.
    obtain ⟨s, hs⟩ := σ.surjective (τ slot)
    have hempty : h.cell? s = none := by
      by_contra hne
      have heq : τ s = τ slot := by
        rw [hagree s (Option.ne_none_iff_exists'.1 hne), hs]
      rw [τ.injective heq] at hne
      exact hne hcell
    rw [← hs, hm s, hempty]
    rfl

end Matches

/-- The permutation that carries one slot to another and leaves all others alone, as far as it can.
-/
def pointTo (σ : Equiv.Perm Nat) (slot target : Nat) : Equiv.Perm Nat :=
  σ.trans (Equiv.swap (σ slot) target)

theorem pointTo_self (σ : Equiv.Perm Nat) (slot target : Nat) :
    pointTo σ slot target slot = target :=
  Equiv.swap_apply_left _ _

theorem pointTo_of_ne {slot target s : Nat} (hslot : s ≠ slot) (htarget : σ s ≠ target) :
    pointTo σ slot target s = σ s :=
  Equiv.swap_apply_of_ne_of_ne (fun heq => hslot (σ.injective heq)) htarget

/-- If the slots are empty, then the occupied ones are left alone. -/
theorem Matches.pointTo_of_occupied (hm : Matches σ h g) {slot target s : Nat}
    (hslot : h.cell? slot = none) (htarget : g.cell? target = none) (ho : h.Occupied s) :
    pointTo σ slot target s = σ s := by
  apply pointTo_of_ne
  · rintro rfl
    obtain ⟨c, hc⟩ := ho
    rw [hslot] at hc
    cases hc
  · rintro rfl
    obtain ⟨c, hc⟩ := hm.occupied_iff.2 ho
    rw [htarget] at hc
    cases hc

namespace Matches

/-! ## Operations -/

/-- Allocation keeps heaps matching, if the permutation carries the new slots to each other. -/
theorem place (hm : Matches σ h g) (hs : h.Slotted) (hs' : g.Slotted) {o : Object}
    (hslot : σ (h.place o).2 = (g.place (o.rename σ)).2) :
    Matches σ (h.place o).1 (g.place (o.rename σ)).1 := by
  intro slot
  rw [cell?_place hs', cell?_place hs, ← hslot, hm slot]
  by_cases heq : slot = (h.place o).2
  · rw [if_pos heq, if_pos (congrArg σ heq), chargeOf, Object.footprint_rename]
    rfl
  · rw [if_neg heq, if_neg fun hσ => heq (σ.injective hσ)]

theorem replace (hm : Matches σ h g) {k : Kind} (r : Ref k) (p : k.Payload) :
    Matches σ (h.replace r p) (g.replace (r.rename σ) (k.rename σ p)) := by
  intro slot
  rw [cell?_replace, cell?_replace, hm slot, Ref.slot_rename]
  by_cases heq : slot = r.slot
  · rw [if_pos heq, if_pos (congrArg σ heq), Option.map_map, Option.map_map]
    refine congrArg (Option.map · _) (funext ?_)
    intro c
    simp only [Function.comp_apply, Cell.rename, Object.rename_of]
  · rw [if_neg heq, if_neg fun hσ => heq (σ.injective hσ)]

end Matches

/-- What a collection leaves of a heap without marks. -/
theorem cell?_swept_markAll (hs : h.Sound) (hc : h.Clean) {roots : List Nat} {slot : Nat}
    {c : Cell} : (h.markAll roots).swept.cell? slot = some c ↔
      h.Reach roots slot ∧ h.cell? slot = some c := by
  rw [cell?_swept (hs.tidy.markAll roots).traced, reach_markAll_of_clean hc,
    (repainted_markAll h roots).cells]
  refine and_congr_right fun _ => ?_
  rw [Option.map_eq_some_iff]
  constructor
  · rintro ⟨c', hcell, rfl⟩
    rw [hc.bare_eq hcell]
    exact hcell
  · exact fun hcell => ⟨c, hcell, hc.bare_eq hcell⟩

/-- A collection keeps heaps matching: what is left is what can be reached. -/
theorem Matches.swept (hm : Matches σ h g) (hs : h.Sound) (hs' : g.Sound) (hc : h.Clean)
    (hc' : g.Clean) (roots : List Nat) :
    Matches σ (h.markAll roots).swept (g.markAll (roots.map σ)).swept := by
  intro slot
  apply Option.ext
  intro c
  rw [cell?_swept_markAll hs' hc', hm.reach_iff, hm slot, Option.map_eq_some_iff,
    Option.map_eq_some_iff]
  simp only [cell?_swept_markAll hs hc]
  constructor
  · rintro ⟨hr, c', hcell, rfl⟩
    exact ⟨c', ⟨hr, hcell⟩, rfl⟩
  · rintro ⟨c', ⟨hr, hcell⟩, rfl⟩
    exact ⟨hr, c', hcell, rfl⟩

end Heap

end ObjectHeap
