import ObjectHeap.Proofs.Abstract.Basic
import ObjectHeap.Proofs.Machine.Closure

/-!
# What stands for what

How a heap represents what the abstract machine has. A symbol stands for the text that it spells. A
reference to a class or an instance stands for the number that is assigned to its slot; the
assignment is not part of the heap and changes whenever a slot is taken by a new object. A table
represents a finite map if its keys spell the names of the map and its values stand for those of the
map.

All of this depends on the objects that are referred to and on nothing else. So it survives any
operation that keeps these, and the numbers of their slots (`Carries`).
-/

set_option autoImplicit false

namespace ObjectHeap

namespace Heap

/-- The value stands for an abstract one. -/
inductive Stands (h : Heap) (ids : Nat → Nat) : Value → Abstract.Value → Prop
  | nil : Stands h ids .nil .nil
  | bool (b : Bool) : Stands h ids (.bool b) (.bool b)
  | num (n : Number) : Stands h ids (.num n) (.num n)
  | str {s : Symbol} {text : String} : h.Spells s text → Stands h ids (.str s) (.str text)
  | cls {c : Ref .cls} : h.Valid c → Stands h ids (.cls c) (.cls (ids c.slot))
  | inst {i : Ref .inst} : h.Valid i → Stands h ids (.inst i) (.inst (ids i.slot))

/-- The table represents a finite map. -/
structure Tabulates (h : Heap) (ids : Nat → Nat) (t : Table) (b : Abstract.Bindings) : Prop where
  entry : ∀ key v, (key, v) ∈ t.entries →
    ∃ text w, h.Spells key text ∧ b.lookup text = some w ∧ h.Stands ids v w
  name : ∀ text w, b.lookup text = some w → ∃ key v, (key, v) ∈ t.entries ∧ h.Spells key text

/-- The object represents an abstract one. -/
inductive Depicts (h : Heap) (ids : Nat → Nat) : Object → Abstract.Object → Prop
  | cls {c : Class} {name : String} {methods : Abstract.Bindings} : h.Spells c.name name →
    h.Tabulates ids c.methods methods → Depicts h ids (.cls c) (.cls name methods)
  | inst {i : Instance} {fields : Abstract.Bindings} : h.Valid i.cls →
    h.Tabulates ids i.fields fields → Depicts h ids (.inst i) (.inst (ids i.cls.slot) fields)

variable {h after : Heap} {ids ids' : Nat → Nat}

/-! ## What it depends on -/

/-- The slot is kept, and so is the number assigned to it. -/
def Carries (h : Heap) (ids : Nat → Nat) (after : Heap) (ids' : Nat → Nat) (slot : Nat) : Prop :=
  h.Keeps after slot ∧ (h.Occupied slot → ids' slot = ids slot)

theorem Stands.carries {v : Value} {w : Abstract.Value} (hv : h.Stands ids v w)
    (hc : ∀ slot, v.RefersTo slot → h.Carries ids after ids' slot) : after.Stands ids' v w := by
  cases hv with
  | nil => exact .nil
  | bool b => exact .bool b
  | num n => exact .num n
  | str hspells => exact .str (hspells.keeps (hc _ (.str _)).1)
  | cls hvalid =>
    obtain ⟨hk, hids⟩ := hc _ (.cls _)
    exact hids hvalid.occupied ▸ .cls (hvalid.keeps hk)
  | inst hvalid =>
    obtain ⟨hk, hids⟩ := hc _ (.inst _)
    exact hids hvalid.occupied ▸ .inst (hvalid.keeps hk)

theorem Tabulates.carries {t : Table} {b : Abstract.Bindings} (ht : h.Tabulates ids t b)
    (hkeys : ∀ key v, (key, v) ∈ t.entries → h.Keeps after key.str.slot)
    (hvalues : ∀ key v slot, (key, v) ∈ t.entries → v.RefersTo slot →
      h.Carries ids after ids' slot) : after.Tabulates ids' t b where
  entry key v he := by
    obtain ⟨text, w, hspells, hlookup, hv⟩ := ht.entry key v he
    exact ⟨text, w, hspells.keeps (hkeys key v he), hlookup,
      hv.carries fun slot hslot => hvalues key v slot he hslot⟩
  name text w hlookup := by
    obtain ⟨key, v, he, hspells⟩ := ht.name text w hlookup
    exact ⟨key, v, he, hspells.keeps (hkeys key v he)⟩

theorem Depicts.carries {o : Object} {a : Abstract.Object} (hd : h.Depicts ids o a)
    (hc : ∀ slot, o.RefersTo slot → h.Carries ids after ids' slot) : after.Depicts ids' o a := by
  cases hd with
  | cls hname ht =>
    exact .cls (hname.keeps (hc _ (.name _)).1)
      (ht.carries (fun key v he => (hc _ (.methodName he)).1)
        fun key v slot he hslot => hc slot (.method he hslot))
  | inst hcls ht =>
    obtain ⟨hk, hids⟩ := hc _ (.cls _)
    exact hids hcls.occupied ▸ .inst (hcls.keeps hk)
      (ht.carries (fun key v he => (hc _ (.fieldName he)).1)
        fun key v slot he hslot => hc slot (.field he hslot))

theorem Stands.validValue {v : Value} {w : Abstract.Value} (hv : h.Stands ids v w) :
    h.ValidValue v := by
  cases hv with
  | nil | bool b | num n => trivial
  | str hspells => exact hspells.validSymbol
  | cls hvalid | inst hvalid => exact hvalid

theorem Tabulates.validTable {t : Table} {b : Abstract.Bindings} (ht : h.Tabulates ids t b) :
    h.ValidTable t := by
  intro e he
  obtain ⟨text, w, hspells, -, hv⟩ := ht.entry e.1 e.2 he
  exact ⟨hspells.validSymbol, hv.validValue⟩

theorem Depicts.validObject {o : Object} {a : Abstract.Object} (hd : h.Depicts ids o a) :
    h.ValidObject o := by
  cases hd with
  | cls hname ht => exact ⟨hname.validSymbol, ht.validTable⟩
  | inst hcls ht => exact ⟨hcls, ht.validTable⟩

/-- A value stands for one abstract value. -/
theorem Stands.unique {v : Value} {w w' : Abstract.Value} (hw : h.Stands ids v w)
    (hw' : h.Stands ids v w') : w = w' := by
  cases hw with
  | nil | bool b | num n => cases hw'; rfl
  | str hspells =>
    cases hw' with
    | str hspells' => rw [hspells.text_unique hspells']
  | cls _ | inst _ => cases hw'; rfl

/-! ## What stands for a class or an instance -/

theorem Stands.of_cls {v : Value} {id : Nat} (hv : h.Stands ids v (.cls id)) :
    ∃ c, v = .cls c ∧ h.Valid c ∧ ids c.slot = id := by
  cases hv with
  | @cls c hvalid => exact ⟨c, rfl, hvalid, rfl⟩

theorem Stands.of_inst {v : Value} {id : Nat} (hv : h.Stands ids v (.inst id)) :
    ∃ i, v = .inst i ∧ h.Valid i ∧ ids i.slot = id := by
  cases hv with
  | @inst i hvalid => exact ⟨i, rfl, hvalid, rfl⟩

/-- What stands for the same in two heaps refers to objects that are alike. -/
theorem Stands.exists_alike {v v' : Value} {w : Abstract.Value} (hv : h.Stands ids v w)
    (hv' : after.Stands ids' v' w) {slot : Nat} (hslot : v.RefersTo slot) :
    ∃ slot' o o', v'.RefersTo slot' ∧ h.object? slot = some o ∧ after.object? slot' = some o' ∧
      o.Alike o' := by
  cases hslot with
  | str symbol =>
    cases hv with
    | str hspells =>
      cases hv' with
      | str hspells' =>
        obtain ⟨s, ho, htext, hhash, heq⟩ := hspells
        obtain ⟨s', ho', htext', hhash', heq'⟩ := hspells'
        exact ⟨_, _, _, .str _, ho, ho', .str (htext.trans htext'.symm)
          (by rw [hhash, heq, hhash', heq'])⟩
  | cls c =>
    cases hv with
    | cls hvalid =>
      obtain ⟨p, ho⟩ := hvalid
      obtain ⟨c', rfl, ⟨p', ho'⟩, -⟩ := hv'.of_cls
      exact ⟨_, _, _, .cls c', ho, ho', .cls p p'⟩
  | inst i =>
    cases hv with
    | inst hvalid =>
      obtain ⟨p, ho⟩ := hvalid
      obtain ⟨i', rfl, ⟨p', ho'⟩, -⟩ := hv'.of_inst
      exact ⟨_, _, _, .inst i', ho, ho', .inst p p'⟩

/-! ## Tables -/

section Tables

/-- No two symbols spell the same. -/
def Unambiguous (h : Heap) : Prop :=
  ∀ a b text, h.Spells a text → h.Spells b text → a = b

variable {t : Table} {b : Abstract.Bindings} {key : Symbol} {text : String}

theorem tabulates_empty : h.Tabulates ids ∅ ∅ where
  entry _ _ he := absurd he List.not_mem_nil
  name text w hlookup := by
    rw [AList.lookup_empty] at hlookup
    cases hlookup

/-- Only the entries matter, not the buckets. -/
theorem Tabulates.congr {other : Table} (ht : h.Tabulates ids t b)
    (heq : ∀ e, e ∈ other.entries ↔ e ∈ t.entries) : h.Tabulates ids other b where
  entry key v he := ht.entry key v ((heq _).1 he)
  name text w hlookup := by
    obtain ⟨key, v, he, hspells⟩ := ht.name text w hlookup
    exact ⟨key, v, (heq _).2 he, hspells⟩

theorem Tabulates.lookup_of_get? (ht : h.Tabulates ids t b) (hl : t.Layout)
    (hspells : h.Spells key text) {v : Value} (hget : t.get? key = some v) :
    ∃ w, b.lookup text = some w ∧ h.Stands ids v w := by
  obtain ⟨text', w, hspells', hlookup, hv⟩ := ht.entry key v ((Table.get?_eq_some_iff hl).1 hget)
  obtain rfl := hspells.text_unique hspells'
  exact ⟨w, hlookup, hv⟩

theorem Tabulates.lookup_of_absent (ht : h.Tabulates ids t b) (hl : t.Layout)
    (hu : h.Unambiguous) (hspells : h.Spells key text) (hget : t.get? key = none) :
    b.lookup text = none := by
  rw [Table.get?_eq_none_iff hl] at hget
  cases hlookup : b.lookup text with
  | none => rfl
  | some w =>
    obtain ⟨key', v, he, hspells'⟩ := ht.name text w hlookup
    obtain rfl := hu _ _ _ hspells hspells'
    exact absurd he (hget v)

theorem Tabulates.insert (ht : h.Tabulates ids t b) (hl : t.Layout) (hu : h.Unambiguous)
    (hspells : h.Spells key text) {v : Value} {w : Abstract.Value} (hv : h.Stands ids v w) :
    h.Tabulates ids (t.insert key v).1 (b.insert text w) where
  entry key' v' he := by
    rcases (Table.mem_entries_insert hl).1 he with heq | ⟨hne, hold⟩
    · cases heq
      exact ⟨text, w, hspells, AList.lookup_insert b, hv⟩
    · obtain ⟨text', w', hspells', hlookup, hv'⟩ := ht.entry key' v' hold
      refine ⟨text', w', hspells', ?_, hv'⟩
      rw [AList.lookup_insert_ne, hlookup]
      rintro rfl
      exact hne (hu _ _ _ hspells' hspells)
  name text' w' hlookup := by
    by_cases heq : text' = text
    · subst heq
      exact ⟨key, v, (Table.mem_entries_insert hl).2 (.inl rfl), hspells⟩
    · rw [AList.lookup_insert_ne heq] at hlookup
      obtain ⟨key', v', hold, hspells'⟩ := ht.name text' w' hlookup
      refine ⟨key', v', (Table.mem_entries_insert hl).2 (.inr ⟨?_, hold⟩), hspells'⟩
      rintro rfl
      exact heq (hspells'.text_unique hspells)

theorem Tabulates.merge {other : Table} {c : Abstract.Bindings} (ht : h.Tabulates ids t b)
    (hl : t.Layout) (ho : h.Tabulates ids other c) (hlo : other.Layout) (hu : h.Unambiguous) :
    h.Tabulates ids (t.merge other) (c ∪ b) where
  entry key v he := by
    rw [← Table.get?_eq_some_iff (hl.merge other), Table.get?_merge hl hlo] at he
    cases hget : other.get? key with
    | some v' =>
      rw [hget, Option.some_or, Option.some.injEq] at he
      obtain ⟨text, w, hspells, hlookup, hv⟩ :=
        ho.entry key v' ((Table.get?_eq_some_iff hlo).1 hget)
      exact ⟨text, w, hspells, AList.lookup_union_eq_some.2 (.inl hlookup), he ▸ hv⟩
    | none =>
      rw [hget, Option.none_or] at he
      obtain ⟨text, w, hspells, hlookup, hv⟩ := ht.entry key v ((Table.get?_eq_some_iff hl).1 he)
      have habsent := AList.lookup_eq_none.1 (ho.lookup_of_absent hlo hu hspells hget)
      exact ⟨text, w, hspells, AList.lookup_union_eq_some.2 (.inr ⟨habsent, hlookup⟩), hv⟩
  name text w hlookup := by
    have hmem : ∀ key, (∃ v, (t.merge other).get? key = some v) →
        ∃ v, (key, v) ∈ (t.merge other).entries :=
      fun key ⟨v, hget⟩ => ⟨v, (Table.get?_eq_some_iff (hl.merge other)).1 hget⟩
    rcases AList.lookup_union_eq_some.1 hlookup with hleft | ⟨-, hright⟩
    · obtain ⟨key, v, he, hspells⟩ := ho.name text w hleft
      obtain ⟨v', he'⟩ := hmem key ⟨v, by
        rw [Table.get?_merge hl hlo, (Table.get?_eq_some_iff hlo).2 he, Option.some_or]⟩
      exact ⟨key, v', he', hspells⟩
    · obtain ⟨key, v, he, hspells⟩ := ht.name text w hright
      obtain ⟨v', he'⟩ := hmem key (by
        rw [Table.get?_merge hl hlo, (Table.get?_eq_some_iff hl).2 he]
        cases other.get? key <;> exact ⟨_, rfl⟩)
      exact ⟨key, v', he', hspells⟩

end Tables

end Heap

end ObjectHeap
