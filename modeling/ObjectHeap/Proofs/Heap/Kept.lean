import ObjectHeap.Heap.Display
import ObjectHeap.Heap.Valid
import ObjectHeap.Proofs.Heap.Interning

/-!
# What validity depends on

Whether a reference is valid depends on the object in its slot, and of that on its kind and, for a
string, on its hash. Two objects are *alike* if they agree in this much and in the text, so a slot
that holds an alike object after an operation is *kept*, even if a table in the object has changed.
An operation that keeps the slots which a value, a table or an object refers to keeps it valid.
-/

set_option autoImplicit false

namespace ObjectHeap

/-- Objects of one kind and, if they are strings, with one text and hash. -/
inductive Object.Alike : Object → Object → Prop
  | str {s s' : Str} : s.text = s'.text → s.hash = s'.hash → Alike (.str s) (.str s')
  | cls (c c' : Class) : Alike (.cls c) (.cls c')
  | inst (i i' : Instance) : Alike (.inst i) (.inst i')
  | box (v v' : Value) : Alike (.box v) (.box v')

theorem Object.Alike.refl (o : Object) : o.Alike o := by
  cases o with
  | str s => exact .str rfl rfl
  | cls c => exact .cls c c
  | inst i => exact .inst i i
  | box v => exact .box v v

/-- An object that is no string is alike to all objects of its kind. -/
theorem Object.alike_of {k : Kind} (hk : k ≠ .str) (p q : k.Payload) :
    (Object.of k p).Alike (.of k q) := by
  cases k with
  | str => exact absurd rfl hk
  | cls => exact .cls p q
  | inst => exact .inst p q
  | box => exact .box p q

theorem Object.Alike.of_eq {k : Kind} {p : k.Payload} {o : Object} (ha : (Object.of k p).Alike o) :
    ∃ q, o = .of k q := by
  cases k <;> cases ha <;> exact ⟨_, rfl⟩

namespace Heap

variable {h after : Heap}

/-- The slot holds an object like the one it held before, if it held one. -/
def Keeps (h after : Heap) (slot : Nat) : Prop :=
  ∀ o, h.object? slot = some o → ∃ o', after.object? slot = some o' ∧ o.Alike o'

theorem Keeps.of_eq {slot : Nat} (heq : after.object? slot = h.object? slot) :
    h.Keeps after slot :=
  fun o ho => ⟨o, heq.trans ho, .refl o⟩

theorem Valid.occupied {k : Kind} {r : Ref k} (hv : h.Valid r) : h.Occupied r.slot := by
  obtain ⟨p, ho⟩ := hv
  exact occupied_iff_object?.2 ⟨_, ho⟩

theorem ValidSymbol.occupied {s : Symbol} (hv : h.ValidSymbol s) : h.Occupied s.str.slot := by
  obtain ⟨str, ho, -⟩ := hv
  exact occupied_iff_object?.2 ⟨_, ho⟩

theorem ValidValue.occupied {v : Value} {slot : Nat} (hv : h.ValidValue v)
    (hslot : v.RefersTo slot) : h.Occupied slot := by
  cases hslot with
  | str s => exact ValidSymbol.occupied hv
  | cls c => exact Valid.occupied hv
  | inst i => exact Valid.occupied hv

theorem keeps_place (hs : h.Slotted) (o : Object) (slot : Nat) : h.Keeps (h.place o).1 slot := by
  intro o' ho'
  have heq := object?_place_of_occupied (o := o) hs (occupied_iff_object?.2 ⟨o', ho'⟩)
  exact ⟨o', heq.trans ho', .refl o'⟩

theorem keeps_withString (hs : h.Slotted) (s : Str) (slot : Nat) :
    h.Keeps (h.withString s).1 slot :=
  keeps_place hs (.str s) slot

/-- What is not a string may be changed. -/
theorem keeps_replace {k : Kind} {r : Ref k} {p : k.Payload} (hk : k ≠ .str)
    (hr : h.object? r.slot = some (.of k p)) (q : k.Payload) (slot : Nat) :
    h.Keeps (h.replace r q) slot := by
  intro o ho
  rw [object?_replace]
  split
  · next heq =>
    rw [heq, hr, Option.some.injEq] at ho
    exact ⟨.of k q, by rw [heq, hr]; rfl, ho ▸ Object.alike_of hk p q⟩
  · exact ⟨o, ho, .refl o⟩

/-! ## Validity is kept -/

theorem Valid.keeps {k : Kind} {r : Ref k} (hv : h.Valid r) (hk : h.Keeps after r.slot) :
    after.Valid r := by
  obtain ⟨p, ho⟩ := hv
  obtain ⟨o', ho', ha⟩ := hk _ ho
  obtain ⟨q, rfl⟩ := ha.of_eq
  exact ⟨q, ho'⟩

theorem Spells.keeps {s : Symbol} {text : String} (hs : h.Spells s text)
    (hk : h.Keeps after s.str.slot) : after.Spells s text := by
  obtain ⟨str, ho, htext, hhash, heq⟩ := hs
  obtain ⟨o', ho', ha⟩ := hk _ ho
  cases ha with
  | @str _ str' ht hh => exact ⟨str', ho', ht ▸ htext, hh ▸ hhash, heq⟩

theorem ValidSymbol.keeps {s : Symbol} (hv : h.ValidSymbol s) (hk : h.Keeps after s.str.slot) :
    after.ValidSymbol s := by
  obtain ⟨str, ho, hhash⟩ := hv
  obtain ⟨o', ho', ha⟩ := hk _ ho
  cases ha with
  | @str _ str' _ hh => exact ⟨str', ho', hh ▸ hhash⟩

theorem ValidValue.keeps {v : Value} (hv : h.ValidValue v)
    (hk : ∀ slot, v.RefersTo slot → h.Keeps after slot) : after.ValidValue v := by
  cases v with
  | nil | bool b | num n => trivial
  | str s => exact ValidSymbol.keeps hv (hk _ (.str s))
  | cls c => exact Valid.keeps hv (hk _ (.cls c))
  | inst i => exact Valid.keeps hv (hk _ (.inst i))

theorem ValidTable.keeps {t : Table} (hv : h.ValidTable t)
    (hkeys : ∀ key v, (key, v) ∈ t.entries → h.Keeps after key.str.slot)
    (hvalues : ∀ key v slot, (key, v) ∈ t.entries → v.RefersTo slot → h.Keeps after slot) :
    after.ValidTable t :=
  fun e he => ⟨(hv e he).1.keeps (hkeys e.1 e.2 he),
    (hv e he).2.keeps fun slot hslot => hvalues e.1 e.2 slot he hslot⟩

theorem ValidObject.keeps {o : Object} (hv : h.ValidObject o)
    (hk : ∀ slot, o.RefersTo slot → h.Keeps after slot) : after.ValidObject o := by
  cases o with
  | str s => trivial
  | cls c =>
    exact ⟨hv.1.keeps (hk _ (.name c)), hv.2.keeps (fun key v he => hk _ (.methodName he))
      fun key v slot he hslot => hk slot (.method he hslot)⟩
  | inst i =>
    exact ⟨hv.1.keeps (hk _ (.cls i)), hv.2.keeps (fun key v he => hk _ (.fieldName he))
      fun key v slot he hslot => hk slot (.field he hslot)⟩
  | box v => exact ValidValue.keeps hv fun slot hslot => hk slot (.box hslot)

/-- What a valid object refers to is there. -/
theorem ValidObject.occupied {o : Object} {slot : Nat} (hv : h.ValidObject o)
    (hslot : o.RefersTo slot) : h.Occupied slot := by
  cases hslot with
  | name c => exact hv.1.occupied
  | methodName he => exact (hv.2 _ he).1.occupied
  | method he hs => exact (hv.2 _ he).2.occupied hs
  | cls i => exact hv.1.occupied
  | fieldName he => exact (hv.2 _ he).1.occupied
  | field he hs => exact (hv.2 _ he).2.occupied hs
  | box hs => exact ValidValue.occupied hv hs

/-! ## Valid tables -/

theorem validTable_empty : h.ValidTable ∅ := fun _ he => absurd he List.not_mem_nil

theorem ValidTable.insert {t : Table} (hv : h.ValidTable t) (ht : t.Layout) {key : Symbol}
    {v : Value} (hkey : h.ValidSymbol key) (hvalue : h.ValidValue v) :
    h.ValidTable (t.insert key v).1 := by
  intro e he
  rcases (Table.mem_entries_insert ht).1 he with rfl | ⟨-, hold⟩
  · exact ⟨hkey, hvalue⟩
  · exact hv e hold

theorem ValidTable.erase {t : Table} (hv : h.ValidTable t) (ht : t.Layout) {key : Symbol} :
    h.ValidTable (t.erase key).1 :=
  fun e he => hv e ((Table.mem_entries_erase ht).1 he).2

theorem ValidTable.merge {t other : Table} (hv : h.ValidTable t) (ht : t.Layout)
    (hv' : h.ValidTable other) (ho : other.Layout) : h.ValidTable (t.merge other) := by
  intro ⟨key, v⟩ he
  rw [← Table.get?_eq_some_iff (ht.merge other), Table.get?_merge ht ho] at he
  cases hget : other.get? key with
  | some w =>
    rw [hget, Option.some_or, Option.some.injEq] at he
    exact hv' _ (he ▸ (Table.get?_eq_some_iff ho).1 hget)
  | none =>
    rw [hget, Option.none_or] at he
    exact hv _ ((Table.get?_eq_some_iff ht).1 he)

/-! ## Following valid references -/

theorem Valid.deref {k : Kind} {r : Ref k} (hv : h.Valid r) (hk : k ≠ .box) :
    ∃ p, h.deref r = .ok p ∧ h.object? r.slot = some (.of k p) := by
  obtain ⟨p, ho⟩ := hv
  exact ⟨p, deref_of_object? hk ho, ho⟩

theorem ValidSymbol.textOf {s : Symbol} (hv : h.ValidSymbol s) : ∃ text, h.textOf s = .ok text := by
  obtain ⟨str, ho, -⟩ := hv
  exact ⟨str.text, by rw [Heap.textOf, deref_of_object? (k := .str) (by decide) ho]; rfl⟩

/-- In a closed heap every valid value can be displayed. -/
theorem Closed.display (hc : h.Closed) {v : Value} (hv : h.ValidValue v) :
    ∃ text, h.display v = .ok text := by
  have hclass : ∀ c : Ref .cls, h.Valid c →
      ∃ cls text, h.deref c = .ok cls ∧ h.textOf cls.name = .ok text := by
    intro c hc'
    obtain ⟨cls, hcls, ho⟩ := hc'.deref (by decide)
    obtain ⟨text, htext⟩ := (hc _ _ ho).1.textOf
    exact ⟨cls, text, hcls, htext⟩
  cases v with
  | nil => exact ⟨_, rfl⟩
  | bool b => cases b <;> exact ⟨_, rfl⟩
  | num n => exact ⟨_, rfl⟩
  | str s => exact ValidSymbol.textOf hv
  | cls c =>
    obtain ⟨cls, text, hcls, htext⟩ := hclass c hv
    exact ⟨text, by rw [Heap.display, hcls]; exact htext⟩
  | inst i =>
    obtain ⟨inst, hinst, ho⟩ := Valid.deref hv (by decide)
    obtain ⟨cls, text, hcls, htext⟩ := hclass inst.cls (hc _ _ ho).1
    refine ⟨text ++ " instance", ?_⟩
    simp only [Heap.display, hinst, hcls, htext, bind, Except.bind]
    rfl

end Heap

end ObjectHeap
