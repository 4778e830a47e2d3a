import ObjectHeap.Machine.Request
import ObjectHeap.Proofs.Heap.History

/-!
# What a request does to the heap

`Machine.handle` has a case for every request. The heap sees much less of it: it is left alone, an
object is edited in place, there is a collection, or there is room made for an object that is then
put into a slot (`Undergoes`). Every request does one of these, whatever its operands are and however
it ends (`undergoes_handle`), so what is true of heaps and journals in all runs is proved by going
through these few.

Of the requests that allocate a little more can be said: they never edit, and they collect to make
room only (`Provides`).
-/

set_option autoImplicit false

namespace ObjectHeap

/-- The event is about a table or about the machine. -/
def Event.isAside : Event → Bool
  | .grew .. | .machineReset _ => true
  | .allocated .. | .marked _ | .blackened _ | .freed _ | .cycleBegan | .cycleEnded _ => false

namespace Event

theorem isAside_of_mem_growths {before after : Table} :
    ∀ e ∈ growths before after, e.isAside = true := by
  intro e he
  obtain ⟨⟨small, large⟩, -, rfl⟩ := List.mem_map.1 he
  rfl

theorem verdict?_of_isAside {e : Event} (he : e.isAside = true) (slot : Nat) :
    e.verdict? slot = none := by
  cases e with
  | grew | machineReset => rfl
  | allocated | marked | blackened | freed | cycleBegan | cycleEnded => cases he

end Event

namespace Heap

variable {h : Heap} {x : Outcome Heap} {α : Type}

/-! ## Few effects -/

/-- Marks slots and collects. -/
def collectFrom (h : Heap) (slots : List Nat) : Outcome Heap := do
  Outcome.report (marksSince h (h.markAll slots))
  (h.markAll slots).collect

/-- Collects if a collection is due. -/
def roomFrom (h : Heap) (slots : List Nat) : Outcome Heap :=
  if h.due then h.collectFrom slots else pure h

/-- What a request that allocates does: nothing, because it has found what it looks for or has come
to grief; or it makes room and adds an object, or a string that was not interned. -/
inductive Provides (h : Heap) : Outcome Heap → Prop
  | found : Provides h (pure h)
  | fault (f : Fault) : Provides h (.fail f)
  | object (slots : List Nat) {k : Kind} {p : k.Payload} : (Object.of k p).HasBuiltTables →
    Provides h (do
      let roomy ← h.roomFrom slots
      let (after, _) ← roomy.allocate k p
      return after)
  | string (slots : List Nat) {text : String} : h.find? text = .ok none →
    Provides h (do
      let roomy ← h.roomFrom slots
      let (after, _) ← roomy.intern text
      return after)

/-- What a request does. It may have something to report first that is not about the heap. -/
inductive Undergoes (h : Heap) : Outcome Heap → Prop
  | provide {x : Outcome Heap} : h.Provides x → Undergoes h x
  | edit {k : Kind} {r : Ref k} {p q : k.Payload} {put : k.Payload → Heap} : k ≠ .str →
    (h.Sound → (Object.of k q).HasBuiltTables) → h.access r = .ok (p, put) →
    Undergoes h (pure (put q))
  | collect (slots : List Nat) : Undergoes h (h.collectFrom slots)
  | remark {events : List Event} {x : Outcome Heap} : (∀ e ∈ events, e.isAside = true) →
    Undergoes h x → Undergoes h (do
      Outcome.report events
      x)

/-- To read something before changes nothing, unless it cannot be read. -/
theorem Provides.read {read : Except Fault α} {f : α → Outcome Heap}
    (hf : ∀ a, read = .ok a → h.Provides (f a)) : h.Provides (liftM read >>= f) := by
  cases hread : read with
  | error fault =>
    rw [Outcome.bind_of_error rfl]
    exact .fault fault
  | ok a =>
    rw [Outcome.bind_of_ok rfl]
    exact hf a hread

theorem Undergoes.read {read : Except Fault α} {f : α → Outcome Heap}
    (hf : ∀ a, read = .ok a → h.Undergoes (f a)) : h.Undergoes (liftM read >>= f) := by
  cases hread : read with
  | error fault =>
    rw [Outcome.bind_of_error rfl]
    exact .provide (.fault fault)
  | ok a =>
    rw [Outcome.bind_of_ok rfl]
    exact hf a hread

theorem Undergoes.rest : h.Undergoes (pure h) := .provide .found

/-! ## An effect is a run of a heap -/

variable {policy : Policy}

theorem Arises.collectFrom (ha : h.Arises false policy) {slots : List Nat} {after : Heap}
    (hc : (h.collectFrom slots).result = .ok after) : after.Arises false policy := by
  obtain ⟨_, -, hc⟩ := Outcome.of_bind_eq_ok hc
  exact (ha.markAll slots).step (.collect hc)

theorem Arises.roomFrom (ha : h.Arises false policy) {slots : List Nat} {roomy : Heap}
    (hroom : (h.roomFrom slots).result = .ok roomy) : roomy.Arises false policy := by
  unfold Heap.roomFrom at hroom
  split at hroom
  · exact ha.collectFrom hroom
  · cases hroom
    exact ha

theorem Provides.arises (hp : h.Provides x) (ha : h.Arises false policy) {after : Heap}
    (hok : x.result = .ok after) : after.Arises false policy := by
  cases hp with
  | found =>
    cases hok
    exact ha
  | fault f => cases hok
  | object slots hb =>
    obtain ⟨roomy, hroom, hok⟩ := Outcome.of_bind_eq_ok hok
    obtain ⟨placed, hplaced, hok⟩ := Outcome.of_bind_eq_ok hok
    cases hok
    exact (ha.roomFrom hroom).step (.allocate hb hplaced)
  | string slots _ =>
    obtain ⟨roomy, hroom, hok⟩ := Outcome.of_bind_eq_ok hok
    obtain ⟨interned, hinterned, hok⟩ := Outcome.of_bind_eq_ok hok
    cases hok
    exact (ha.roomFrom hroom).step (.intern hinterned)

/-- No request overwrites the text of a string, nor does it anything else to a heap that could not be
done to the heap alone. -/
theorem Undergoes.arises (hu : h.Undergoes x) (ha : h.Arises false policy) {after : Heap}
    (hok : x.result = .ok after) : after.Arises false policy := by
  induction hu with
  | provide hp => exact hp.arises ha hok
  | edit hk hb haccess =>
    cases hok
    exact ha.step (.edit _ (fun heq => absurd heq hk) (hb ha.sound) haccess)
  | collect slots => exact ha.collectFrom hok
  | remark _ _ ih =>
    obtain ⟨_, -, hok⟩ := Outcome.of_bind_eq_ok hok
    exact ih hok

end Heap

/-- The request asks for a string, a class or an instance. -/
def Request.allocates : Request → Bool
  | .intern _ | .concatenate _ _ | .newClass _ | .newInstance _ => true
  | _ => false

namespace Machine

variable {m : Machine} {α : Type}

/-! ## Operations -/

theorem collect_eq (m : Machine) : m.collect =
    m.heap.collectFrom m.roots >>= fun heap => pure { m with heap } := by
  simp only [collect, Heap.collectFrom, bind_assoc]

theorem makeRoom_eq (m : Machine) : m.makeRoom =
    m.heap.roomFrom m.roots >>= fun heap => pure { m with heap } := by
  unfold makeRoom Heap.roomFrom
  split
  · exact collect_eq m
  · rfl

theorem provides_intern (m : Machine) (text : String) :
    m.heap.Provides (m.intern text >>= fun a => pure a.1.heap) := by
  unfold intern
  rw [bind_assoc]
  apply Heap.Provides.read
  intro found hfound
  cases found with
  | some symbol => exact .found
  | none =>
    simp only [makeRoom_eq, bind_assoc, pure_bind]
    exact .string m.roots hfound

theorem provides_concatenate (m : Machine) (a b : Symbol) :
    m.heap.Provides (m.concatenate a b >>= fun a => pure a.1.heap) := by
  rw [concatenate_eq_bind, bind_assoc]
  apply Heap.Provides.read
  intro first _
  rw [bind_assoc]
  apply Heap.Provides.read
  intro second _
  exact provides_intern m _

theorem provides_allocateHolding (m : Machine) (operand : Value) {k : Kind} {p : k.Payload}
    (hb : (Object.of k p).HasBuiltTables) :
    m.heap.Provides (m.allocateHolding operand k p >>= fun a => pure a.1.heap) := by
  simp only [allocateHolding, makeRoom_eq, bind_assoc, pure_bind]
  exact .object (m.push operand).roots hb

/-- What a reference leads to has tables that can be made. -/
theorem hasBuiltTables_of_deref (hs : m.heap.Sound) {k : Kind} {r : Ref k} {p : k.Payload}
    (hr : m.heap.deref r = .ok p) : (Object.of k p).HasBuiltTables :=
  hs.tables _ _ (Heap.object?_of_deref hr)

theorem hasBuiltTables_of_access (hs : m.heap.Sound) {k : Kind} {r : Ref k} {p : k.Payload}
    {put : k.Payload → Heap} (ha : m.heap.access r = .ok (p, put)) :
    (Object.of k p).HasBuiltTables :=
  hasBuiltTables_of_deref hs (Heap.of_access_eq_ok ha).1

theorem undergoes_defineMethod (m : Machine) (cls : Ref .cls) (name : Symbol) (method : Value) :
    m.heap.Undergoes (m.defineMethod cls name method >>= fun after => pure after.heap) := by
  unfold defineMethod
  rw [bind_assoc]
  apply Heap.Undergoes.read
  rintro ⟨c, put⟩ hc
  rw [bind_assoc]
  apply Heap.Undergoes.remark Event.isAside_of_mem_growths
  refine .edit (k := .cls) (by decide) ?_ hc
  intro hs
  have hmethods : c.methods.Built := hasBuiltTables_of_access hs hc
  exact Table.Built.insert name method hmethods

theorem undergoes_inherit (m : Machine) (super : Value) (cls : Ref .cls) :
    m.heap.Undergoes (m.inherit super cls >>= fun a => pure a.1.heap) := by
  cases super with
  | cls super =>
    unfold inherit
    rw [bind_assoc]
    apply Heap.Undergoes.read
    intro s hsuper
    rw [bind_assoc]
    apply Heap.Undergoes.read
    rintro ⟨c, put⟩ hc
    rw [bind_assoc]
    apply Heap.Undergoes.remark Event.isAside_of_mem_growths
    refine .edit (k := .cls) (by decide) ?_ hc
    intro hs
    have hinherited : s.methods.Built := hasBuiltTables_of_deref hs hsuper
    have hmethods : c.methods.Built := hasBuiltTables_of_access hs hc
    exact Table.Built.merge hmethods hinherited
  | nil | bool b | num n | str s | inst i => exact .rest

theorem undergoes_setProperty (m : Machine) (receiver : Value) (name : Symbol) (v : Value) :
    m.heap.Undergoes (m.setProperty receiver name v >>= fun a => pure a.1.heap) := by
  cases receiver with
  | inst i =>
    unfold setProperty
    rw [bind_assoc]
    apply Heap.Undergoes.read
    rintro ⟨inst, put⟩ hinst
    rw [bind_assoc]
    apply Heap.Undergoes.remark Event.isAside_of_mem_growths
    refine .edit (k := .inst) (by decide) ?_ hinst
    intro hs
    have hfields : inst.fields.Built := hasBuiltTables_of_access hs hinst
    exact Table.Built.insert name v hfields
  | nil | bool b | num n | str s | cls c => exact .rest

theorem undergoes_defineGlobal (m : Machine) (name : Symbol) (v : Value) :
    m.heap.Undergoes (m.defineGlobal name v >>= fun after => pure after.heap) := by
  unfold defineGlobal
  rw [bind_assoc]
  exact .remark Event.isAside_of_mem_growths .rest

theorem undergoes_setGlobal (m : Machine) (name : Symbol) (v : Value) :
    m.heap.Undergoes (m.setGlobal name v >>= fun a => pure a.1.heap) := by
  unfold setGlobal
  rcases m.globals.insert name v with ⟨globals, isNew⟩
  rw [bind_assoc]
  apply Heap.Undergoes.remark Event.isAside_of_mem_growths
  cases isNew with
  | true =>
    show m.heap.Undergoes ((liftM (m.heap.textOf name) >>= _) >>= _)
    rw [bind_assoc]
    apply Heap.Undergoes.read
    intro text _
    exact .rest
  | false => exact .rest

theorem undergoes_collect (m : Machine) :
    m.heap.Undergoes (m.collect >>= fun after => pure after.heap) := by
  simp only [collect_eq, bind_assoc, pure_bind, bind_pure]
  exact .collect m.roots

theorem undergoes_reset (m : Machine) :
    m.heap.Undergoes (m.reset >>= fun after => pure after.heap) := by
  unfold reset
  rw [bind_assoc]
  apply Heap.Undergoes.remark
  · intro e he
    rw [List.mem_singleton.1 he]
    rfl
  · exact undergoes_collect { m with stack := [], globals := ∅ }

/-! ## Requests -/

/-- An answer of a machine, of which only the heap is kept. -/
def onHeap (x : Outcome (Machine × Reply)) : Outcome Heap := x >>= fun a => pure a.1.heap

@[simp] theorem events_onHeap (x : Outcome (Machine × Reply)) : (onHeap x).events = x.events := by
  rw [onHeap, Outcome.events_bind]
  cases x.result with
  | error f => exact List.append_nil _
  | ok a => exact List.append_nil _

theorem result_onHeap {x : Outcome (Machine × Reply)} {a : Machine × Reply}
    (hx : x.result = .ok a) : (onHeap x).result = .ok a.1.heap := by
  rw [onHeap, Outcome.result_bind, hx]
  rfl

theorem of_result_onHeap {x : Outcome (Machine × Reply)} {f : Fault}
    (hx : (onHeap x).result = .error f) : x.result = .error f := by
  rw [onHeap, Outcome.result_bind] at hx
  cases hresult : x.result with
  | error g =>
    rw [hresult] at hx
    cases hx
    rfl
  | ok a =>
    rw [hresult] at hx
    cases hx

theorem onHeap_bind_pure {x : Outcome α} {heap : α → Heap} {f : α → Machine × Reply}
    (hf : ∀ a, (f a).1.heap = heap a) :
    onHeap (x >>= fun a => pure (f a)) = x >>= fun a => pure (heap a) := by
  simp only [onHeap, bind_assoc, pure_bind, hf]

/-- A request that amounts to one operation does to the heap what the operation does. -/
theorem provides_request {x : Outcome α} {heap : α → Heap} {f : α → Machine × Reply}
    (hx : m.heap.Provides (x >>= fun a => pure (heap a))) (hf : ∀ a, (f a).1.heap = heap a) :
    m.heap.Provides (onHeap (x >>= fun a => pure (f a))) := by
  rw [onHeap_bind_pure hf]
  exact hx

theorem undergoes_request {x : Outcome α} {heap : α → Heap} {f : α → Machine × Reply}
    (hx : m.heap.Undergoes (x >>= fun a => pure (heap a))) (hf : ∀ a, (f a).1.heap = heap a) :
    m.heap.Undergoes (onHeap (x >>= fun a => pure (f a))) := by
  rw [onHeap_bind_pure hf]
  exact hx

/-- A request that only looks leaves the heap alone. -/
theorem undergoes_look (x : Except Fault α) (f : α → Reply) :
    m.heap.Undergoes (onHeap (do return (m, f (← x)))) := by
  have hread : m.heap.Undergoes (liftM x >>= fun _ => pure m.heap) := by
    apply Heap.Undergoes.read
    intro _ _
    exact .rest
  exact undergoes_request hread fun _ => rfl

/-- What the requests that allocate do to the heap. -/
theorem provides_handle (m : Machine) {request : Request} (hr : request.allocates = true) :
    m.heap.Provides (onHeap (m.handle request)) := by
  cases request with
  | intern text => exact provides_request (provides_intern m text) fun _ => rfl
  | concatenate a b => exact provides_request (provides_concatenate m a b) fun _ => rfl
  | newClass name =>
    exact provides_request (provides_allocateHolding m (.str name) .empty) fun _ => rfl
  | newInstance cls =>
    exact provides_request (provides_allocateHolding m (.cls cls) .empty) fun _ => rfl
  | push | pop | peek | defineGlobal | getGlobal | setGlobal | globalNames | defineMethod | inherit
  | getProperty | setProperty | display | collect | reset => cases hr

/-- **What requests do to the heap**, whatever they ask for. -/
theorem undergoes_handle (m : Machine) (request : Request) :
    m.heap.Undergoes (onHeap (m.handle request)) := by
  cases request with
  | push | pop | peek => exact .rest
  | intern | concatenate | newClass | newInstance => exact .provide (provides_handle m rfl)
  | getGlobal | globalNames | getProperty | display => exact undergoes_look _ _
  | defineGlobal name v => exact undergoes_request (undergoes_defineGlobal m name v) fun _ => rfl
  | setGlobal name v => exact undergoes_request (undergoes_setGlobal m name v) fun _ => rfl
  | defineMethod cls name method =>
    exact undergoes_request (undergoes_defineMethod m cls name method) fun _ => rfl
  | inherit super cls => exact undergoes_request (undergoes_inherit m super cls) fun _ => rfl
  | setProperty receiver name v =>
    exact undergoes_request (undergoes_setProperty m receiver name v) fun _ => rfl
  | collect => exact undergoes_request (undergoes_collect m) fun _ => rfl
  | reset => exact undergoes_request (undergoes_reset m) fun _ => rfl

end Machine

end ObjectHeap
