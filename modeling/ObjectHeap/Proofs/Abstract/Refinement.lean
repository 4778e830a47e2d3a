import Mathlib.Data.List.Forall2
import ObjectHeap.Proofs.Abstract.Represents

/-!
# Refinement

A machine refines an abstract one, under an assignment of numbers to slots, if its stack, its
globals and all its objects represent those of the abstract machine, and no two slots have the same
number. Not every object of the abstract machine is represented, since objects that nothing refers
to may be gone; but what a machine still has is right.

What operations do to a machine is accompanied by what they do to the abstract one: a collection
does nothing to it, an allocation adds an object, and a change of an object changes the one with its
number.
-/

set_option autoImplicit false

namespace ObjectHeap

namespace Machine

variable {m : Machine} {ids ids' : Nat → Nat} {a : Abstract.Machine}

/-- The slot holds a class or an instance. -/
def Numbered (m : Machine) (slot : Nat) : Prop :=
  ∃ o, m.heap.object? slot = some o ∧ ∀ s, o ≠ .str s

structure Refines (m : Machine) (ids : Nat → Nat) (a : Abstract.Machine) : Prop where
  sound : m.Sound
  stack : List.Forall₂ (m.heap.Stands ids) m.stack a.stack
  globals : m.heap.Tabulates ids m.globals a.globals
  objects : ∀ slot o, m.heap.object? slot = some o → (∀ s, o ≠ .str s) →
    ∃ b, a.objects[ids slot]? = some b ∧ m.heap.Depicts ids o b
  distinct : ∀ slot slot', m.Numbered slot → m.Numbered slot' → ids slot = ids slot' → slot = slot'

theorem refines_new (policy : Policy) (ids : Nat → Nat) : (Machine.new policy).Refines ids {} where
  sound := sound_new policy
  stack := .nil
  globals := Heap.tabulates_empty
  objects slot o ho := by
    rw [new, Heap.object?_new] at ho
    cases ho
  distinct slot slot' hslot := by
    obtain ⟨o, ho, -⟩ := hslot
    rw [new, Heap.object?_new] at ho
    cases ho

theorem Refines.unambiguous (hr : m.Refines ids a) : m.heap.Unambiguous :=
  fun _ _ _ => hr.sound.symbol_unique

/-- No two references to classes or instances have the same number. -/
theorem Refines.ref_injective (hr : m.Refines ids a) {k : Kind} (hk : k ≠ .str) {r r' : Ref k}
    (hv : m.heap.Valid r) (hv' : m.heap.Valid r') (heq : ids r.slot = ids r'.slot) : r = r' := by
  have hnumbered : ∀ r : Ref k, m.heap.Valid r → m.Numbered r.slot := by
    rintro r ⟨p, ho⟩
    refine ⟨_, ho, ?_⟩
    cases k with
    | str => exact absurd rfl hk
    | cls | inst | box => exact nofun
  have hslot := hr.distinct r.slot r'.slot (hnumbered r hv) (hnumbered r' hv') heq
  cases r
  cases r'
  exact congrArg _ hslot

/-- No two values stand for the same. -/
theorem Refines.stands_injective (hr : m.Refines ids a) {v v' : Value} {w : Abstract.Value}
    (hv : m.heap.Stands ids v w) (hv' : m.heap.Stands ids v' w) : v = v' := by
  cases hv with
  | nil | bool b | num n => cases hv'; rfl
  | str hspells =>
    cases hv' with
    | str hspells' => rw [hr.unambiguous _ _ _ hspells hspells']
  | cls hvalid =>
    obtain ⟨c', rfl, hvalid', heq⟩ := hv'.of_cls
    rw [hr.ref_injective (by decide) hvalid hvalid' heq.symm]
  | inst hvalid =>
    obtain ⟨i', rfl, hvalid', heq⟩ := hv'.of_inst
    rw [hr.ref_injective (by decide) hvalid hvalid' heq.symm]

/-! ## Stack and globals -/

theorem Refines.withStack (hr : m.Refines ids a) {stack : List Value}
    {abstract : List Abstract.Value} (hs : List.Forall₂ (m.heap.Stands ids) stack abstract) :
    { m with stack }.Refines ids { a with stack := abstract } where
  sound := hr.sound.withStack fun v hv => by
    obtain ⟨i, hi, rfl⟩ := List.mem_iff_getElem.1 hv
    exact (hs.get hi (hs.length_eq ▸ hi)).validValue
  stack := hs
  globals := hr.globals
  objects := hr.objects
  distinct := hr.distinct

theorem Refines.withGlobals (hr : m.Refines ids a) {globals : Table} {b : Abstract.Bindings}
    (hb : globals.Built) (ht : m.heap.Tabulates ids globals b) :
    { m with globals }.Refines ids { a with globals := b } where
  sound := hr.sound.withGlobals hb ht.validTable
  stack := hr.stack
  globals := ht
  objects := hr.objects
  distinct := hr.distinct

/-! ## The heap -/

/-- The assignment in which one slot has another number. -/
def assign (ids : Nat → Nat) (slot id : Nat) : Nat → Nat := fun s => if s = slot then id else ids s

theorem assign_self (ids : Nat → Nat) (slot id : Nat) : assign ids slot id slot = id := if_pos rfl

theorem assign_of_ne {slot other : Nat} (hne : other ≠ slot) (id : Nat) :
    assign ids slot id other = ids other := if_neg hne

theorem carries_place {h : Heap} (hs : h.Slotted) (o : Object) (id slot : Nat) :
    h.Carries ids (h.place o).1 (assign ids (h.place o).2 id) slot := by
  refine ⟨Heap.keeps_place hs o slot, fun ho => assign_of_ne ?_ id⟩
  rintro rfl
  obtain ⟨c, hc⟩ := ho
  rw [Heap.place_slot_empty hs] at hc
  cases hc

theorem carries_of_keeps {h after : Heap} {slot : Nat} (hk : h.Keeps after slot) :
    h.Carries ids after ids slot := ⟨hk, fun _ => rfl⟩

/-- What happens after a collection carries over what the collection has not released. -/
theorem Cleared.carries {released : List Nat} {roomy : Machine} (hc : m.Cleared released roomy)
    {after : Heap} (hcarries : ∀ slot, roomy.heap.Carries ids after ids' slot) {slot : Nat}
    (hslot : slot ∉ released) : m.heap.Carries ids after ids' slot := by
  refine ⟨fun o ho => ?_, fun ho => (hcarries slot).2 (hc.unreleased slot ho hslot)⟩
  have hroomy := hc.unreleased slot (Heap.occupied_iff_object?.2 ⟨o, ho⟩) hslot
  exact (hcarries slot).1 o ((hc.object?_eq slot hroomy).trans ho)

/-- A stack whose values are carried over stands for the same. -/
theorem stack_carries {h after : Heap} {stack : List Value} {abstract : List Abstract.Value}
    (hs : List.Forall₂ (h.Stands ids) stack abstract)
    (hc : ∀ v ∈ stack, ∀ slot, v.RefersTo slot → h.Carries ids after ids' slot) :
    List.Forall₂ (after.Stands ids') stack abstract :=
  ((List.forall₂_and_left _ _).2 ⟨hc, hs⟩).imp fun _ _ hv => hv.2.carries hv.1

/-- A collection is nothing to the abstract machine. -/
theorem Refines.cleared (hr : m.Refines ids a) {released : List Nat} {after : Machine}
    (hc : m.Cleared released after) : after.Refines ids a where
  sound := hr.sound.cleared hc
  stack := by
    rw [hc.stack_eq]
    exact stack_carries hr.stack fun v hv slot hslot => carries_of_keeps (hc.keeps_stack hv hslot)
  globals := by
    rw [hc.globals_eq]
    exact hr.globals.carries (fun key v he => hc.keeps_globalName he)
      fun key v slot he hslot => carries_of_keeps (hc.keeps_global he hslot)
  objects slot o ho hstr := by
    obtain ⟨b, hb, hd⟩ := hr.objects slot o (hc.object?_of_after ho) hstr
    exact ⟨b, hb, hd.carries fun target ht => carries_of_keeps (hc.keeps_targets ho ht)⟩
  distinct slot slot' := by
    rintro ⟨o, ho, hstr⟩ ⟨o', ho', hstr'⟩
    exact hr.distinct slot slot' ⟨o, hc.object?_of_after ho, hstr⟩
      ⟨o', hc.object?_of_after ho', hstr'⟩

/-- If all slots are carried over, only the objects have to be looked at. -/
theorem Refines.carries (hr : m.Refines ids a) {heap : Heap} {objects : List Abstract.Object}
    (hsound : { m with heap }.Sound) (hc : ∀ slot, m.heap.Carries ids heap ids' slot)
    (hobjects : ∀ slot o, heap.object? slot = some o → (∀ s, o ≠ .str s) →
      ∃ b, objects[ids' slot]? = some b ∧ m.heap.Depicts ids o b)
    (hdistinct : ∀ slot slot', Numbered { m with heap } slot → Numbered { m with heap } slot' →
      ids' slot = ids' slot' → slot = slot') :
    { m with heap }.Refines ids' { a with objects } where
  sound := hsound
  stack := stack_carries hr.stack fun _ _ slot _ => hc slot
  globals := hr.globals.carries (fun key _ _ => (hc key.str.slot).1) fun _ _ slot _ _ => hc slot
  objects slot o ho hstr := by
    obtain ⟨b, hb, hd⟩ := hobjects slot o ho hstr
    exact ⟨b, hb, hd.carries fun target _ => hc target⟩
  distinct := hdistinct

/-- A new string is nothing to the abstract machine. -/
theorem Refines.withString (hr : m.Refines ids a) {s : Str} (hhash : s.hash = Text.hash s.text)
    (hnone : m.heap.find? s.text = .ok none) :
    { m with heap := (m.heap.withString s).1 }.Refines ids a := by
  have hold : ∀ slot o, (m.heap.withString s).1.object? slot = some o → (∀ s', o ≠ .str s') →
      m.heap.object? slot = some o := by
    intro slot o ho hstr
    rcases Heap.of_object?_withString hr.sound.heap ho with ⟨-, rfl⟩ | hold
    · exact absurd rfl (hstr s)
    · exact hold
  refine hr.carries (hr.sound.withString hhash hnone)
    (fun slot => carries_of_keeps (Heap.keeps_withString hr.sound.heap.slotted s slot))
    (fun slot o ho hstr => hr.objects slot o (hold slot o ho hstr) hstr) ?_
  rintro slot slot' ⟨o, ho, hstr⟩ ⟨o', ho', hstr'⟩
  exact hr.distinct slot slot' ⟨o, hold _ o ho hstr, hstr⟩ ⟨o', hold _ o' ho' hstr', hstr'⟩

theorem Refines.id_lt (hr : m.Refines ids a) {slot : Nat} (hn : m.Numbered slot) :
    ids slot < a.objects.length := by
  obtain ⟨o, ho, hstr⟩ := hn
  obtain ⟨b, hb, -⟩ := hr.objects slot o ho hstr
  exact (List.getElem?_eq_some_iff.1 hb).1

/-- A new class or instance gets the next number. -/
theorem Refines.place (hr : m.Refines ids a) {o : Object} {b : Abstract.Object}
    (hstr : ∀ s, o ≠ .str s) (hb : o.HasBuiltTables) (hd : m.heap.Depicts ids o b) :
    { m with heap := (m.heap.place o).1 }.Refines
      (assign ids (m.heap.place o).2 a.objects.length) (a.addObject b) := by
  have hs := hr.sound.heap.slotted
  refine hr.carries (hr.sound.place hstr hb hd.validObject) (carries_place hs o _)
    (fun slot o' ho' hstr' => ?_) ?_
  · rcases Heap.of_object?_place hs ho' with ⟨rfl, rfl⟩ | ⟨hne, hold⟩
    · exact ⟨b, by rw [assign_self, List.getElem?_concat_length], hd⟩
    · obtain ⟨b', hb', hd'⟩ := hr.objects slot o' hold hstr'
      refine ⟨b', ?_, hd'⟩
      rw [assign_of_ne hne, List.getElem?_append_left (hr.id_lt ⟨o', hold, hstr'⟩), hb']
  -- The new number is larger than all numbers of objects that were there before.
  · rintro slot slot' ⟨o₁, ho₁, hstr₁⟩ ⟨o₂, ho₂, hstr₂⟩ heq
    rcases Heap.of_object?_place hs ho₁ with ⟨rfl, -⟩ | ⟨hne, hold⟩ <;>
      rcases Heap.of_object?_place hs ho₂ with ⟨rfl, -⟩ | ⟨hne', hold'⟩
    · rfl
    · rw [assign_self, assign_of_ne hne'] at heq
      exact absurd (hr.id_lt ⟨o₂, hold', hstr₂⟩) (by omega)
    · rw [assign_self, assign_of_ne hne] at heq
      exact absurd (hr.id_lt ⟨o₁, hold, hstr₁⟩) (by omega)
    · rw [assign_of_ne hne, assign_of_ne hne'] at heq
      exact hr.distinct slot slot' ⟨o₁, hold, hstr₁⟩ ⟨o₂, hold', hstr₂⟩ heq

/-- A change of an object changes the one with its number. -/
theorem Refines.replace (hr : m.Refines ids a) {k : Kind} {r : Ref k} {p q : k.Payload}
    {b : Abstract.Object} (hk : k ≠ .str) (hp : m.heap.object? r.slot = some (.of k p))
    (hb : (Object.of k q).HasBuiltTables) (hd : m.heap.Depicts ids (.of k q) b) :
    { m with heap := m.heap.replace r q }.Refines ids (a.setObject (ids r.slot) b) := by
  have hstr : ∀ p' : k.Payload, ∀ s, Object.of k p' ≠ .str s := by
    cases k with
    | str => exact absurd rfl hk
    | cls | inst | box => exact nofun
  have hnumbered : m.Numbered r.slot := ⟨_, hp, hstr p⟩
  -- A slot that holds a class or an instance now did so before.
  have hold : ∀ slot, Numbered { m with heap := m.heap.replace r q } slot → m.Numbered slot := by
    rintro slot ⟨o, ho, ho'⟩
    rcases Heap.of_object?_replace ho with ⟨rfl, -⟩ | ⟨-, hold⟩
    · exact hnumbered
    · exact ⟨o, hold, ho'⟩
  refine hr.carries (hr.sound.replace hk hp hb hd.validObject)
    (fun slot => carries_of_keeps (Heap.keeps_replace hk hp q slot)) (fun slot o ho hostr => ?_)
    fun slot slot' hn hn' => hr.distinct slot slot' (hold slot hn) (hold slot' hn')
  rcases Heap.of_object?_replace ho with ⟨rfl, rfl⟩ | ⟨hne, hsame⟩
  · exact ⟨b, List.getElem?_set_self (hr.id_lt hnumbered), hd⟩
  · obtain ⟨b', hb', hd'⟩ := hr.objects slot o hsame hostr
    refine ⟨b', ?_, hd'⟩
    rw [List.getElem?_set_ne, hb']
    exact fun heq => hne (hr.distinct r.slot slot hnumbered ⟨o, hsame, hostr⟩ heq).symm

end Machine

end ObjectHeap
