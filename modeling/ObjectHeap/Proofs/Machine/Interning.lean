import ObjectHeap.Proofs.Machine.Closure

/-!
# Strings of a machine are equal if their texts are

In any heap the interned strings are canonical, but there may be others beside them, which were
allocated without being interned. A machine never does that: each of its strings is the string of
one interned symbol. This is what equality of values relies on when it compares symbols and not
texts.
-/

set_option autoImplicit false

namespace ObjectHeap

namespace Machine

variable {m : Machine}

/-- Each string is the string of exactly one interned symbol. -/
theorem Sound.exists_unique_entry (hm : m.Sound) {slot : Nat} {s : Str}
    (ho : m.heap.object? slot = some (.str s)) : ∃ e ∈ m.heap.strings.entries,
      e.1.str.slot = slot ∧ ∀ f ∈ m.heap.strings.entries, f.1.str.slot = slot → f = e := by
  obtain ⟨key, ⟨v, he⟩, rfl⟩ := hm.interned slot s ho
  refine ⟨(key, v), he, rfl, fun (key', v') hf hslot => ?_⟩
  obtain rfl : key' = key := hm.canonical.eq_of_slot ⟨v', hf⟩ ⟨v, he⟩ hslot
  rw [hm.heap.strings.layout.eq_of_mem he hf]

theorem Sound.symbol_eq_iff (hm : m.Sound) {a b : Symbol} (ha : m.heap.ValidSymbol a)
    (hb : m.heap.ValidSymbol b) : a = b ↔ m.heap.textOf a = m.heap.textOf b := by
  refine ⟨fun heq => by rw [heq], ?_⟩
  intro heq
  obtain ⟨text, hspells⟩ := hm.spells_of_valid ha
  exact hm.symbol_unique hspells
    (hm.canonical.spells_of_textOf (hm.interned_of_valid hb) (heq.symm.trans hspells.textOf))

/-- **Interning is canonical.** A heap in which no text has been overwritten interns each text once.
So does the heap of a machine, and there every string is that of exactly one interned symbol, so
that valid symbols are equal if and only if their texts are. -/
theorem interning_canonical {policy : Policy} :
    (∀ h : Heap, h.Arises false policy → h.InternsOnce) ∧
    ∀ m : Machine, m.Arises policy → m.heap.InternsOnce ∧
      (∀ slot s, m.heap.object? slot = some (.str s) → ∃ e ∈ m.heap.strings.entries,
        e.1.str.slot = slot ∧ ∀ f ∈ m.heap.strings.entries, f.1.str.slot = slot → f = e) ∧
      ∀ a b, m.heap.ValidSymbol a → m.heap.ValidSymbol b →
        (a = b ↔ m.heap.textOf a = m.heap.textOf b) := by
  refine ⟨fun h ha => ha.canonical.internsOnce ha.sound, ?_⟩
  intro m ha
  have hm := ha.sound
  exact ⟨hm.canonical.internsOnce hm.heap, fun slot s ho => hm.exists_unique_entry ho,
    fun a b => hm.symbol_eq_iff⟩

/-- The name of the class is interned already, in the heap as in the machine. -/
theorem interning_canonical_pair :
    (Heap.pair.internReserving "A" 0).result = .ok (Heap.pair, Heap.ringName) ∧
    (∃ after key, (Heap.pair.internReserving "B" 0).result = .ok (after, key) ∧
      Heap.pair.Gains "B" 0 after key) ∧
    (∀ a b, Heap.pair.ValidSymbol a → Heap.pair.ValidSymbol b →
      (a = b ↔ Heap.pair.textOf a = Heap.pair.textOf b)) := by
  have hall := @interning_canonical {}
  have hheap := hall.1 Heap.pair (Heap.arises_pair false)
  have hmachine := hall.2 { heap := Heap.pair } arises_pair
  exact ⟨hheap.hit "A" 0 Heap.ringName (by decide +kernel),
    hheap.miss "B" 0 (by decide +kernel), hmachine.2.2⟩

end Machine

end ObjectHeap
