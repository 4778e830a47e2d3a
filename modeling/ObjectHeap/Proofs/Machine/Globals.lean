import ObjectHeap.Proofs.Machine.Chronicle
import ObjectHeap.Proofs.Text.ByteOrder

/-!
# Globals are a map from texts

The table of globals compares symbols, which are slots and hashes. What a program sees of it is a
map from texts: however a name has been come by, and whatever has been collected since the global
was defined, the value is that of the last definition or assignment under the text
(`Machine.Chronicled.tellsGlobals`). An assignment to what is not defined is refused. It goes
through the table all the same, but nothing comes of that.
-/

set_option autoImplicit false

namespace ObjectHeap

namespace Machine

variable {m : Machine} {c : Chronicle} {policy : Policy}

/-- Looking for the text in the chronicle is looking for the name in the table. -/
theorem Confirms.lookup_globals (hc : m.Confirms c) (hm : m.Sound) {name : Symbol} {text : String}
    (hv : m.heap.ValidSymbol name) (htext : m.heap.textOf name = .ok text) :
    c.globals.lookup text = m.globals.get? name := by
  rw [hc.globals]
  exact Heap.lookup_reading hm.distinctTexts hm.globals.layout hm.closed.globals hv htext

theorem Confirms.mem_globals (hc : m.Confirms c) (hm : m.Sound) {name : Symbol} {text : String}
    (hv : m.heap.ValidSymbol name) (htext : m.heap.textOf name = .ok text) :
    text ∈ c.globals ↔ m.globals.get? name ≠ none := by
  rw [← hc.lookup_globals hm hv htext, ne_eq, Finmap.lookup_eq_none, not_not]

/-! ## What is answered -/

theorem Confirms.getGlobal (hc : m.Confirms c) (hm : m.Sound) {name : Symbol} {text : String}
    (hv : m.heap.ValidSymbol name) (htext : m.heap.textOf name = .ok text) :
    (m.handle (.getGlobal name)).result =
      .ok (m, .foundOr (.undefinedVariable text) (c.globals.lookup text)) := by
  have hlookup := hc.lookup_globals hm hv htext
  obtain ⟨after, reply, hok, hstep⟩ := hm.takes_getGlobal hv
  rw [hok, hlookup]
  cases hstep with
  | getGlobal hget => rw [hget]; rfl
  | getUndefined hget hspells =>
    obtain rfl := Except.ok.inj (hspells.textOf.symm.trans htext)
    rw [hget]
    rfl

theorem Confirms.setGlobal (hc : m.Confirms c) (hm : m.Sound) {name : Symbol} {text : String}
    (hv : m.heap.ValidSymbol name) (htext : m.heap.textOf name = .ok text) (v : Value) :
    ∃ after, (m.handle (.setGlobal name v)).result = .ok (after,
        if text ∈ c.globals then .done else .refused (.undefinedVariable text)) ∧
      after.stack = m.stack ∧ after.heap = m.heap := by
  have hmem := hc.mem_globals hm hv htext
  obtain ⟨after, reply, hok, hstep⟩ := hm.takes_setGlobal hv v
  refine ⟨after, ?_⟩
  rw [hok]
  cases hstep with
  | setGlobal _ hget =>
    have hbound : text ∈ c.globals := hmem.2 (hget ▸ Option.some_ne_none _)
    rw [if_pos hbound]
    exact ⟨rfl, rfl, rfl⟩
  | setUndefined _ hget hspells =>
    obtain rfl := Except.ok.inj (hspells.textOf.symm.trans htext)
    rw [if_neg fun hbound => hmem.1 hbound hget]
    exact ⟨rfl, rfl, rfl⟩

theorem Confirms.globalNames (hc : m.Confirms c) (hm : m.Sound) :
    ∃ names, (m.handle .globalNames).result = .ok (m, .names names) ∧
      (names.Pairwise fun a b => Text.utf8 a < Text.utf8 b) ∧
      (∀ text, text ∈ names ↔ text ∈ c.globals) ∧ names.length = m.globals.size := by
  have hl := hm.globals.layout
  have hnodup := Heap.nodup_texts hm.distinctTexts hl hm.closed.globals
  obtain ⟨after, reply, hok, hstep⟩ := hm.takes_globalNames
  cases hstep
  refine ⟨_, hok, Text.pairwise_utf8_lt_mergeSort hnodup, fun text => ?_, ?_⟩
  · rw [List.mem_mergeSort, hc.globals, Heap.mem_reading]
  · rw [List.length_mergeSort, List.length_map, hl.length_entries]

/-! ## All machines -/

/-- All that can be seen of the globals is what the chronicle says of them. -/
structure TellsGlobals (policy : Policy) (m : Machine) (c : Chronicle) : Prop where
  named : ∀ name, m.heap.ValidSymbol name → ∃ text, m.heap.textOf name = .ok text
  get : ∀ name text, m.heap.ValidSymbol name → m.heap.textOf name = .ok text →
    (m.handle (.getGlobal name)).result =
      .ok (m, .foundOr (.undefinedVariable text) (c.globals.lookup text))
  define : ∀ name text v, m.heap.ValidSymbol name → m.heap.textOf name = .ok text →
    m.heap.ValidValue v → ∃ after, (m.handle (.defineGlobal name v)).result = .ok (after, .done) ∧
      after.Chronicled policy { c with globals := c.globals.insert text v }
  set_bound : ∀ name text v, m.heap.ValidSymbol name → m.heap.textOf name = .ok text →
    m.heap.ValidValue v → text ∈ c.globals →
    ∃ after, (m.handle (.setGlobal name v)).result = .ok (after, .done) ∧
      after.Chronicled policy { c with globals := c.globals.insert text v }
  set_unbound : ∀ name text v, m.heap.ValidSymbol name → m.heap.textOf name = .ok text →
    m.heap.ValidValue v → text ∉ c.globals →
    ∃ after, (m.handle (.setGlobal name v)).result =
        .ok (after, .refused (.undefinedVariable text)) ∧
      after.Chronicled policy c ∧ after.stack = m.stack ∧ after.heap = m.heap
  names : ∃ names, (m.handle .globalNames).result = .ok (m, .names names) ∧
    (names.Pairwise fun a b => Text.utf8 a < Text.utf8 b) ∧
    (∀ text, text ∈ names ↔ text ∈ c.globals) ∧ names.length = m.globals.size

section Chronicled

variable {name : Symbol} {text : String} {v : Value}

theorem Chronicled.defineGlobal (hc : m.Chronicled policy c) (hv : m.heap.ValidSymbol name)
    (htext : m.heap.textOf name = .ok text) (hvalue : m.heap.ValidValue v) :
    ∃ after, (m.handle (.defineGlobal name v)).result = .ok (after, .done) ∧
      after.Chronicled policy { c with globals := c.globals.insert text v } := by
  have ha : m.Accepts (.defineGlobal name v) := ⟨hv, hvalue⟩
  have hafter := hc.handle ha rfl
  rw [Chronicle.next, Heap.textOrEmpty_eq htext] at hafter
  exact ⟨_, rfl, hafter⟩

theorem Chronicled.setGlobal_bound (hc : m.Chronicled policy c) (hv : m.heap.ValidSymbol name)
    (htext : m.heap.textOf name = .ok text) (hvalue : m.heap.ValidValue v)
    (hbound : text ∈ c.globals) :
    ∃ after, (m.handle (.setGlobal name v)).result = .ok (after, .done) ∧
      after.Chronicled policy { c with globals := c.globals.insert text v } := by
  have ha : m.Accepts (.setGlobal name v) := ⟨hv, hvalue⟩
  obtain ⟨after, hok, -, -⟩ := hc.confirms.setGlobal hc.arises.sound hv htext v
  rw [if_pos hbound] at hok
  have hafter := hc.handle ha hok
  rw [Chronicle.next, Heap.textOrEmpty_eq htext] at hafter
  exact ⟨after, hok, hafter⟩

theorem Chronicled.setGlobal_unbound (hc : m.Chronicled policy c) (hv : m.heap.ValidSymbol name)
    (htext : m.heap.textOf name = .ok text) (hvalue : m.heap.ValidValue v)
    (hunbound : text ∉ c.globals) :
    ∃ after, (m.handle (.setGlobal name v)).result =
        .ok (after, .refused (.undefinedVariable text)) ∧
      after.Chronicled policy c ∧ after.stack = m.stack ∧ after.heap = m.heap := by
  have ha : m.Accepts (.setGlobal name v) := ⟨hv, hvalue⟩
  obtain ⟨after, hok, hstack, hheap⟩ := hc.confirms.setGlobal hc.arises.sound hv htext v
  rw [if_neg hunbound] at hok
  exact ⟨after, hok, hc.handle ha hok, hstack, hheap⟩

end Chronicled

/-- **Globals are a map from texts.** -/
theorem Chronicled.tellsGlobals (hc : m.Chronicled policy c) : m.TellsGlobals policy c where
  named _ hv := hv.textOf
  get _ _ hv htext := hc.confirms.getGlobal hc.arises.sound hv htext
  define _ _ _ hv htext hvalue := hc.defineGlobal hv htext hvalue
  set_bound _ _ _ hv htext hvalue hbound := hc.setGlobal_bound hv htext hvalue hbound
  set_unbound _ _ _ hv htext hvalue hunbound := hc.setGlobal_unbound hv htext hvalue hunbound
  names := hc.confirms.globalNames hc.arises.sound

/-- A global that has been defined is found. -/
theorem tellsGlobals_pair : ∃ after,
    (handle { heap := Heap.pair } (.defineGlobal Heap.ringName .nil)).result = .ok (after, .done) ∧
    (after.handle (.getGlobal Heap.ringName)).result = .ok (after, .found .nil) := by
  obtain ⟨c, hc⟩ := arises_pair.exists_chronicled
  have hname : Heap.pair.ValidSymbol Heap.ringName := ⟨.ofText "A" 0, rfl, rfl⟩
  have htext : Heap.pair.textOf Heap.ringName = .ok "A" := rfl
  obtain ⟨after, hok, hafter⟩ :=
    (Chronicled.tellsGlobals hc).define Heap.ringName "A" .nil hname htext trivial
  refine ⟨after, hok, ?_⟩
  cases hok
  rw [(Chronicled.tellsGlobals hafter).get Heap.ringName "A" hname htext, Finmap.lookup_insert]
  rfl

end Machine

end ObjectHeap
