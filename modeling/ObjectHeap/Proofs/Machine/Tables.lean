import ObjectHeap.Proofs.Machine.Closure
import ObjectHeap.Proofs.Table.Masking

/-!
# The tables that there are

The layout is the same for a table that is worked on alone and for one that is part of something:
the table of interned strings, the globals, and the methods and fields of objects. Nobody ever makes
these otherwise than by operations of tables, which is why a heap or a machine that arises is as
good as a run of commands (`Machine.tables_laid`).
-/

set_option autoImplicit false

namespace ObjectHeap

/-- The table is that of the interned strings, or it belongs to an object. -/
def Heap.HasTable (h : Heap) (t : Table) : Prop :=
  t = h.strings ∨
  (∃ slot c, h.object? slot = some (.cls c) ∧ t = c.methods) ∨
  ∃ slot i, h.object? slot = some (.inst i) ∧ t = i.fields

/-- The table is that of the globals, or it is on the heap. -/
def Machine.HasTable (m : Machine) (t : Table) : Prop := t = m.globals ∨ m.heap.HasTable t

theorem Heap.Sound.laid {h : Heap} (hs : h.Sound) {t : Table} (ht : h.HasTable t) : t.Laid := by
  rcases ht with rfl | ⟨slot, c, ho, rfl⟩ | ⟨slot, i, ho, rfl⟩
  · exact hs.strings.layout.laid
  · exact (hs.layout_methods ho).laid
  · exact (hs.layout_fields ho).laid

theorem Machine.Sound.laid {m : Machine} (hm : m.Sound) {t : Table} (ht : m.HasTable t) :
    t.Laid := by
  rcases ht with rfl | hheap
  · exact hm.globals.layout.laid
  · exact hm.heap.laid hheap

/-- **All tables are laid out.** So are those that commands lead to, those of a heap that arises,
and those of a machine that arises. -/
theorem Machine.tables_laid {policy : Policy} :
    (∀ commands i, (((Store.init Table.operations).run Table.operations commands).1 i).Laid) ∧
    (∀ overwrites (h : Heap), h.Arises overwrites policy → ∀ t, h.HasTable t → t.Laid) ∧
    ∀ m : Machine, m.Arises policy → ∀ t, m.HasTable t → t.Laid :=
  ⟨fun commands i => (Store.layout_run Store.layout_init commands i).laid,
    fun _ _ ha _ ht => ha.sound.laid ht, fun _ ha _ ht => ha.sound.laid ht⟩

/-- In the ring these are the methods of the class, in the machine the interned strings. -/
theorem Machine.tables_laid_pair :
    ((∅ : Table).insert Heap.ringName (.inst ⟨2⟩)).1.Laid ∧ Heap.pair.strings.Laid := by
  have hall := @Machine.tables_laid {}
  have hring : Heap.ring.HasTable ((∅ : Table).insert Heap.ringName (.inst ⟨2⟩)).1 :=
    .inr (.inl ⟨1, { name := Heap.ringName, methods := _ }, by decide +kernel, rfl⟩)
  exact ⟨hall.2.1 true Heap.ring Heap.arises_ring _ hring,
    hall.2.2 { heap := Heap.pair } Machine.arises_pair _ (.inr (.inl rfl))⟩

end ObjectHeap
