import ObjectHeap.Machine.Run
import ObjectHeap.Proofs.Heap.Kept

/-!
# Sound machines

What is true of a machine between two requests: its heap is sound and canonical, no slot is marked,
every string is interned, and everything that is stored anywhere is valid. The operations of which
requests are made keep this; the one that has to be looked at closely is a collection.

A collection may happen in the middle of a request, or not, and a request must not depend on which.
So what is said about it (`Cleared`) holds in both cases: some objects may be gone, but none that
can be reached from a root, and none that one of those left refers to.
-/

set_option autoImplicit false

namespace ObjectHeap

namespace Machine

variable {m after : Machine}

structure Sound (m : Machine) : Prop where
  heap : m.heap.Sound
  clean : m.heap.Clean
  canonical : m.heap.Canonical
  interned : ∀ slot s, m.heap.object? slot = some (.str s) →
    ∃ key, m.heap.Interned key ∧ key.str.slot = slot
  globals : m.globals.Built
  closed : m.Closed

theorem sound_new (policy : Policy) : (Machine.new policy).Sound where
  heap := Heap.sound_new policy
  clean := Heap.clean_new policy
  canonical := Heap.canonical_new policy
  interned slot s ho := by
    rw [new, Heap.object?_new] at ho
    cases ho
  globals := .empty
  closed :=
    { heap := fun slot o ho => by
        rw [new, Heap.object?_new] at ho
        cases ho
      stack := fun v hv => absurd hv List.not_mem_nil
      globals := Heap.validTable_empty }

/-- A valid symbol is interned, since its string is under the same hash. -/
theorem Sound.interned_of_valid (hm : m.Sound) {s : Symbol} (hs : m.heap.ValidSymbol s) :
    m.heap.Interned s := by
  obtain ⟨str, ho, hhash⟩ := hs
  obtain ⟨key, hkey, hslot⟩ := hm.interned _ str ho
  obtain ⟨text, str', ho', -, hhash', -⟩ := hm.canonical.spelled key hkey
  rw [hslot, ho, Option.some.injEq, Object.str.injEq] at ho'
  have hkeyhash : key.hash = s.hash := by rw [← hhash', ← ho', hhash]
  obtain ⟨⟨slot⟩, hash⟩ := s
  obtain ⟨⟨slot'⟩, hash'⟩ := key
  obtain rfl : slot' = slot := hslot
  obtain rfl : hash' = hash := hkeyhash
  exact hkey

theorem Sound.spells_of_valid (hm : m.Sound) {s : Symbol} (hs : m.heap.ValidSymbol s) :
    ∃ text, m.heap.Spells s text :=
  hm.canonical.spelled s (hm.interned_of_valid hs)

/-- Two valid symbols with one text are the same. -/
theorem Sound.symbol_unique (hm : m.Sound) {a b : Symbol} {text : String}
    (ha : m.heap.Spells a text) (hb : m.heap.Spells b text) : a = b :=
  hm.canonical.unique a b text (hm.interned_of_valid ha.validSymbol)
    (hm.interned_of_valid hb.validSymbol) ha hb

/-! ## Changes of stack, globals and objects -/

theorem Sound.withStack (hm : m.Sound) {stack : List Value}
    (hs : ∀ v ∈ stack, m.heap.ValidValue v) : { m with stack }.Sound :=
  { hm with closed := { hm.closed with stack := hs } }

theorem Sound.push (hm : m.Sound) {v : Value} (hv : m.heap.ValidValue v) : (m.push v).Sound :=
  hm.withStack fun w hw => by
    rcases List.mem_cons.1 hw with rfl | hold
    · exact hv
    · exact hm.closed.stack w hold

theorem Sound.withGlobals (hm : m.Sound) {globals : Table} (hb : globals.Built)
    (hv : m.heap.ValidTable globals) : { m with globals }.Sound :=
  { hm with globals := hb, closed := { hm.closed with globals := hv } }

/-- A machine stays closed if all slots are kept and only valid objects have come in. -/
theorem Closed.keeps (hm : m.Closed) {heap : Heap} (hk : ∀ slot, m.heap.Keeps heap slot)
    (hv : ∀ slot o, heap.object? slot = some o → m.heap.ValidObject o) :
    { m with heap }.Closed where
  heap slot o ho := (hv slot o ho).keeps fun target _ => hk target
  stack v hmem := (hm.stack v hmem).keeps fun slot _ => hk slot
  globals := hm.globals.keeps (fun key _ _ => hk key.str.slot) fun _ _ slot _ _ => hk slot

/-- Another object is put on the heap, which is no string. -/
theorem Sound.place (hm : m.Sound) {o : Object} (hstr : ∀ s, o ≠ .str s) (hb : o.HasBuiltTables)
    (hv : m.heap.ValidObject o) : { m with heap := (m.heap.place o).1 }.Sound where
  heap := hm.heap.place hb
  clean := hm.clean.place hm.heap.slotted
  canonical := hm.canonical.place hm.heap o
  interned slot s ho := by
    rcases Heap.of_object?_place hm.heap.slotted ho with ⟨-, rfl⟩ | ⟨-, hold⟩
    · exact absurd rfl (hstr s)
    · obtain ⟨key, hkey, hslot⟩ := hm.interned slot s hold
      exact ⟨key, by rwa [Heap.Interned, Heap.place_strings], hslot⟩
  globals := hm.globals
  closed := hm.closed.keeps (Heap.keeps_place hm.heap.slotted o) fun slot o' ho' => by
    rcases Heap.of_object?_place hm.heap.slotted ho' with ⟨-, rfl⟩ | ⟨-, hold⟩
    · exact hv
    · exact hm.closed.heap slot o' hold

/-- A text is interned that was not. -/
theorem Sound.withString (hm : m.Sound) {s : Str} (hhash : s.hash = Text.hash s.text)
    (hnone : m.heap.find? s.text = .ok none) :
    { m with heap := (m.heap.withString s).1 }.Sound where
  heap := hm.heap.withString s
  clean := hm.clean.withString hm.heap.slotted s
  canonical := hm.canonical.withString hm.heap hhash hnone
  interned slot s' ho := by
    rcases Heap.of_object?_withString hm.heap ho with ⟨heq, -⟩ | hold
    · exact ⟨_, (Heap.interned_withString hm.canonical hm.heap).2 (.inl rfl), heq.symm⟩
    · obtain ⟨key, hkey, hslot⟩ := hm.interned slot s' hold
      exact ⟨key, (Heap.interned_withString hm.canonical hm.heap).2 (.inr hkey), hslot⟩
  globals := hm.globals
  closed := hm.closed.keeps (Heap.keeps_withString hm.heap.slotted s) fun slot o ho => by
    rcases Heap.of_object?_withString hm.heap ho with ⟨-, rfl⟩ | hold
    · trivial
    · exact hm.closed.heap slot o hold

/-- An object is changed that is no string. -/
theorem Sound.replace (hm : m.Sound) {k : Kind} {r : Ref k} {p q : k.Payload} (hk : k ≠ .str)
    (hr : m.heap.object? r.slot = some (.of k p)) (hb : (Object.of k q).HasBuiltTables)
    (hv : m.heap.ValidObject (.of k q)) : { m with heap := m.heap.replace r q }.Sound where
  heap := hm.heap.replace hb
  clean := hm.clean.replace
  canonical := hm.canonical.replace hk hr q
  interned slot s ho := by
    rcases Heap.of_object?_replace ho with ⟨-, heq⟩ | ⟨-, hold⟩
    · cases k with
      | str => exact absurd rfl hk
      | cls | inst | box => cases heq
    · exact hm.interned slot s hold
  globals := hm.globals
  closed := hm.closed.keeps (Heap.keeps_replace hk hr q) fun slot o ho => by
    rcases Heap.of_object?_replace ho with ⟨-, rfl⟩ | ⟨-, hold⟩
    · exact hv
    · exact hm.closed.heap slot o hold

/-! ## Collections -/

/-- A collection has happened, or not. If it has, the slots it released are among those listed. -/
structure Cleared (m : Machine) (released : List Nat) (after : Machine) : Prop where
  stack_eq : after.stack = m.stack
  globals_eq : after.globals = m.globals
  heap : after.heap.Sound
  clean : after.heap.Clean
  canonical : after.heap.Canonical
  object?_eq : ∀ slot, after.heap.Occupied slot → after.heap.object? slot = m.heap.object? slot
  /-- What can be reached from the roots is left. -/
  reached : ∀ slot, m.heap.Reach m.roots slot → after.heap.Occupied slot
  /-- What an object refers to that is left, is left. -/
  targets : ∀ slot o target, after.heap.object? slot = some o → o.RefersTo target →
    m.heap.Occupied target → after.heap.Occupied target
  interned : ∀ key, m.heap.Interned key → after.heap.Occupied key.str.slot →
    after.heap.Interned key
  unreleased : ∀ slot, m.heap.Occupied slot → slot ∉ released → after.heap.Occupied slot

theorem Sound.cleared_self (hm : m.Sound) (released : List Nat) : m.Cleared released m where
  stack_eq := rfl
  globals_eq := rfl
  heap := hm.heap
  clean := hm.clean
  canonical := hm.canonical
  object?_eq _ _ := rfl
  reached _ hr := hr.occupied
  targets _ _ _ _ _ ho := ho
  interned _ hkey _ := hkey
  unreleased _ ho _ := ho

theorem mem_roots {slot : Nat} : slot ∈ m.roots ↔ (∃ v ∈ m.stack, v.RefersTo slot) ∨
    ∃ key v, (key, v) ∈ m.globals.entries ∧ (slot = key.str.slot ∨ v.RefersTo slot) := by
  simp only [roots, List.mem_append, List.mem_filterMap, List.mem_reverse, Table.mem_targets,
    ← Value.mem_target?, Option.mem_toList]

section Cleared

variable {released : List Nat}

theorem Cleared.keeps (hc : m.Cleared released after) {slot : Nat}
    (ho : after.heap.Occupied slot) : m.heap.Keeps after.heap slot :=
  .of_eq (hc.object?_eq slot ho)

theorem Cleared.keeps_root (hc : m.Cleared released after) {slot : Nat} (hr : slot ∈ m.roots) :
    m.heap.Keeps after.heap slot := by
  intro o ho
  exact hc.keeps (hc.reached slot (.start hr (Heap.occupied_iff_object?.2 ⟨o, ho⟩))) o ho

/-- What an operand on the stack refers to is kept. -/
theorem Cleared.keeps_stack (hc : m.Cleared released after) {v : Value} (hv : v ∈ m.stack)
    {slot : Nat} (hslot : v.RefersTo slot) : m.heap.Keeps after.heap slot :=
  hc.keeps_root (mem_roots.2 (.inl ⟨v, hv, hslot⟩))

/-- So is a name of the globals, and what the value under it refers to. -/
theorem Cleared.keeps_globalName (hc : m.Cleared released after) {key : Symbol} {v : Value}
    (he : (key, v) ∈ m.globals.entries) : m.heap.Keeps after.heap key.str.slot :=
  hc.keeps_root (mem_roots.2 (.inr ⟨key, v, he, .inl rfl⟩))

theorem Cleared.keeps_global (hc : m.Cleared released after) {key : Symbol} {v : Value}
    (he : (key, v) ∈ m.globals.entries) {slot : Nat} (hslot : v.RefersTo slot) :
    m.heap.Keeps after.heap slot :=
  hc.keeps_root (mem_roots.2 (.inr ⟨key, v, he, .inr hslot⟩))

theorem Cleared.keeps_targets (hc : m.Cleared released after) {slot target : Nat} {o : Object}
    (ho : after.heap.object? slot = some o) (ht : o.RefersTo target) :
    m.heap.Keeps after.heap target := by
  intro o' ho'
  exact hc.keeps (hc.targets slot o target ho ht (Heap.occupied_iff_object?.2 ⟨o', ho'⟩)) o' ho'

theorem Cleared.object?_of_after (hc : m.Cleared released after) {slot : Nat} {o : Object}
    (ho : after.heap.object? slot = some o) : m.heap.object? slot = some o := by
  rw [← hc.object?_eq slot (Heap.occupied_iff_object?.2 ⟨o, ho⟩), ho]

theorem Sound.cleared (hm : m.Sound) (hc : m.Cleared released after) : after.Sound where
  heap := hc.heap
  clean := hc.clean
  canonical := hc.canonical
  interned slot s ho := by
    obtain ⟨key, hkey, rfl⟩ := hm.interned slot s (hc.object?_of_after ho)
    exact ⟨key, hc.interned key hkey (Heap.occupied_iff_object?.2 ⟨_, ho⟩), rfl⟩
  globals := by rw [hc.globals_eq]; exact hm.globals
  closed :=
    { heap := fun slot o ho => (hm.closed.heap slot o (hc.object?_of_after ho)).keeps
        fun target ht => hc.keeps_targets ho ht
      stack := fun v hv => by
        rw [hc.stack_eq] at hv
        exact (hm.closed.stack v hv).keeps fun slot hslot => hc.keeps_stack hv hslot
      globals := by
        rw [hc.globals_eq]
        exact hm.closed.globals.keeps (fun key v he => hc.keeps_globalName he)
          fun key v slot he hslot => hc.keeps_global he hslot }

end Cleared

end Machine

end ObjectHeap
