import ObjectHeap.Proofs.Machine.Closure
import ObjectHeap.Proofs.Table.View

/-!
# Reading tables

To a program of the machine a table is a map from texts, not from symbols: `Heap.reading` is its
view under the texts of its keys. This is a map because texts are interned. Two keys of one text
would be two symbols that are valid and spell the same, and there are no such.

What a table reads depends on the slots of its keys only. It is the same in any heap that keeps
these.
-/

set_option autoImplicit false

namespace ObjectHeap

namespace Heap

variable {h after : Heap} {t other : Table} {key : Symbol} {v : Value}

/-- The map from texts to values that a table is. -/
def reading (h : Heap) (t : Table) : Mapping String := t.view h.textOrEmpty

/-- Valid symbols with one text are the same. -/
def DistinctTexts (h : Heap) : Prop := Set.InjOn h.textOrEmpty {s | h.ValidSymbol s}

theorem textOrEmpty_eq {text : String} (htext : h.textOf key = .ok text) :
    h.textOrEmpty key = text := by
  rw [textOrEmpty, htext]

theorem ValidSymbol.textOrEmpty_keeps (hv : h.ValidSymbol key)
    (hk : h.Keeps after key.str.slot) : after.textOrEmpty key = h.textOrEmpty key := by
  obtain ⟨s, ho, -⟩ := hv
  obtain ⟨o', ho', ha⟩ := hk _ ho
  cases ha with
  | @str _ s' htext _ =>
    rw [textOrEmpty, textOrEmpty, Heap.textOf, Heap.textOf,
      deref_of_object? (k := .str) (by decide) ho, deref_of_object? (k := .str) (by decide) ho']
    exact htext.symm

theorem ValidTable.keysIn (hv : h.ValidTable t) : t.KeysIn {s | h.ValidSymbol s} :=
  fun e he => (hv e he).1

@[simp] theorem reading_empty : h.reading ∅ = ∅ := Table.view_empty

/-- What is bound is the texts of the keys. -/
theorem mem_reading {text : String} :
    text ∈ h.reading t ↔ text ∈ t.entries.map fun e => h.textOrEmpty e.1 := by
  rw [reading, Table.mem_view, List.mem_map]

theorem reading_keeps (hv : h.ValidTable t)
    (hk : ∀ key v, (key, v) ∈ t.entries → h.Keeps after key.str.slot) :
    after.reading t = h.reading t := by
  have hrenamed : t.renamed after.textOrEmpty = t.renamed h.textOrEmpty := by
    refine List.map_congr_left fun e he => ?_
    rw [(hv e he).1.textOrEmpty_keeps (hk e.1 e.2 he)]
  rw [reading, reading, Table.view, Table.view, hrenamed]

section DistinctTexts

variable (hd : h.DistinctTexts)

include hd

/-- Looking for the text of a key is looking for the key. -/
theorem lookup_reading (hl : t.Layout) (hv : h.ValidTable t) (hkey : h.ValidSymbol key)
    {text : String} (htext : h.textOf key = .ok text) : (h.reading t).lookup text = t.get? key := by
  rw [← textOrEmpty_eq htext]
  exact Table.lookup_view hl hv.keysIn hd hkey

/-- No two keys have the same text. -/
theorem nodup_texts (hl : t.Layout) (hv : h.ValidTable t) :
    (t.entries.map fun e => h.textOrEmpty e.1).Nodup := by
  have hnodup : (t.renamed h.textOrEmpty).keys.Nodup := Table.nodupKeys_renamed hl hv.keysIn hd
  rwa [List.keys, Table.renamed, List.map_map] at hnodup

theorem reading_congr (hl : t.Layout) (hv : h.ValidTable t) (ho : other.Layout)
    (hv' : h.ValidTable other) (heq : ∀ key, other.get? key = t.get? key) :
    h.reading other = h.reading t :=
  Table.view_congr hl hv.keysIn ho hv'.keysIn hd heq

theorem reading_insert (hl : t.Layout) (hv : h.ValidTable t) (hkey : h.ValidSymbol key) :
    h.reading (t.insert key v).1 = (h.reading t).insert (h.textOrEmpty key) v :=
  Table.view_insert hl hv.keysIn hd hkey

theorem reading_merge (hl : t.Layout) (hv : h.ValidTable t) (ho : other.Layout)
    (hv' : h.ValidTable other) :
    h.reading (t.merge other) = h.reading other ∪ h.reading t :=
  Table.view_merge hl hv.keysIn ho hv'.keysIn hd

end DistinctTexts

end Heap

theorem Machine.Sound.distinctTexts {m : Machine} (hm : m.Sound) : m.heap.DistinctTexts := by
  intro a ha b hb heq
  obtain ⟨text, hspells⟩ := hm.spells_of_valid ha
  obtain ⟨text', hspells'⟩ := hm.spells_of_valid hb
  rw [hspells.textOrEmpty, hspells'.textOrEmpty] at heq
  exact hm.symbol_unique hspells (heq ▸ hspells')

end ObjectHeap
