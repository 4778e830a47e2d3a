import ObjectHeap.Proofs.Abstract.Refinement
import ObjectHeap.Proofs.Program.Session
import ObjectHeap.Proofs.Text.ByteOrder

/-!
# The abstract machine answers the same

A machine that refines an abstract one answers requests as the abstract one does (`Refines.step`),
and it refines it again afterwards. References that the caller holds keep their meaning as long as
their slots are not released, whatever else has been collected on the way.
-/

set_option autoImplicit false

namespace ObjectHeap

/-! ## Requests and replies -/

namespace Abstract

/-- How a value looks that stands for this one, slot numbers aside. -/
def Value.shape : Abstract.Value → ObjectHeap.Value
  | .nil => .nil
  | .bool b => .bool b
  | .num n => .num n
  | .str text => .str { str := ⟨0⟩, hash := Text.hash text }
  | .cls _ => .cls ⟨0⟩
  | .inst _ => .inst ⟨0⟩

/-- How a reply looks that stands for this one, slot numbers aside. -/
def Reply.shape : Abstract.Reply → ObjectHeap.Reply
  | .done => .done
  | .top v => .top (v.map Value.shape)
  | .symbol s => .symbol { str := ⟨0⟩, hash := Text.hash s }
  | .cls _ => .cls ⟨0⟩
  | .inst _ => .inst ⟨0⟩
  | .found v => .found v.shape
  | .text s => .text s
  | .names list => .names list
  | .refused why => .refused why

def Reply.value? : Abstract.Reply → Option Abstract.Value
  | .top v => v
  | .symbol s => some (.str s)
  | .cls id => some (.cls id)
  | .inst id => some (.inst id)
  | .found v => some v
  | .done | .text _ | .names _ | .refused _ => none

end Abstract

namespace Heap

variable {h : Heap} {ids : Nat → Nat}

/-- The request stands for an abstract one. -/
inductive StandsRequest (h : Heap) (ids : Nat → Nat) : Request → Abstract.Request → Prop
  | push {v w} : h.Stands ids v w → StandsRequest h ids (.push v) (.push w)
  | pop : StandsRequest h ids .pop .pop
  | peek (distance : Nat) : StandsRequest h ids (.peek distance) (.peek distance)
  | intern (text : String) : StandsRequest h ids (.intern text) (.intern text)
  | concatenate {s t first second} : h.Spells s first → h.Spells t second →
    StandsRequest h ids (.concatenate s t) (.concatenate first second)
  | defineGlobal {name text v w} : h.Spells name text → h.Stands ids v w →
    StandsRequest h ids (.defineGlobal name v) (.defineGlobal text w)
  | getGlobal {name text} : h.Spells name text →
    StandsRequest h ids (.getGlobal name) (.getGlobal text)
  | setGlobal {name text v w} : h.Spells name text → h.Stands ids v w →
    StandsRequest h ids (.setGlobal name v) (.setGlobal text w)
  | globalNames : StandsRequest h ids .globalNames .globalNames
  | newClass {name text} : h.Spells name text →
    StandsRequest h ids (.newClass name) (.newClass text)
  | newInstance {cls} : h.Valid cls →
    StandsRequest h ids (.newInstance cls) (.newInstance (ids cls.slot))
  | defineMethod {cls name text v w} : h.Valid cls → h.Spells name text → h.Stands ids v w →
    StandsRequest h ids (.defineMethod cls name v) (.defineMethod (ids cls.slot) text w)
  | inherit {super w cls} : h.Stands ids super w → h.Valid cls →
    StandsRequest h ids (.inherit super cls) (.inherit w (ids cls.slot))
  | getProperty {receiver w name text} : h.Stands ids receiver w → h.Spells name text →
    StandsRequest h ids (.getProperty receiver name) (.getProperty w text)
  | setProperty {receiver w name text v x} : h.Stands ids receiver w → h.Spells name text →
    h.Stands ids v x → StandsRequest h ids (.setProperty receiver name v) (.setProperty w text x)
  | display {v w} : h.Stands ids v w → StandsRequest h ids (.display v) (.display w)
  | collect : StandsRequest h ids .collect .collect
  | reset : StandsRequest h ids .reset .reset

/-- The reply stands for an abstract one. -/
structure StandsReply (h : Heap) (ids : Nat → Nat) (reply : Reply) (abstract : Abstract.Reply) :
    Prop where
  shape_eq : reply.shape = abstract.shape
  value : ∀ v, reply.value? = some v → ∃ w, abstract.value? = some w ∧ h.Stands ids v w

theorem Stands.shape_eq {v : Value} {w : Abstract.Value} (hv : h.Stands ids v w) :
    v.shape = w.shape := by
  cases hv with
  | nil | bool b | num n | cls _ | inst _ => rfl
  | str hspells =>
    obtain ⟨s, -, -, -, hhash⟩ := hspells
    rw [Value.shape, hhash]
    rfl

theorem standsReply_found {v : Value} {w : Abstract.Value} (hv : h.Stands ids v w) :
    h.StandsReply ids (.found v) (.found w) where
  shape_eq := by rw [Reply.shape, hv.shape_eq]; rfl
  value v' hv' := by
    cases hv'
    exact ⟨w, rfl, hv⟩

theorem standsReply_symbol {s : Symbol} {text : String} (hs : h.Spells s text) :
    h.StandsReply ids (.symbol s) (.symbol text) where
  shape_eq := by
    obtain ⟨str, -, -, -, hhash⟩ := hs
    rw [Reply.shape, hhash]
    rfl
  value v hv := by
    cases hv
    exact ⟨.str text, rfl, .str hs⟩

theorem standsReply_cls {c : Ref .cls} {id : Nat} (hc : h.Valid c) (hid : ids c.slot = id) :
    h.StandsReply ids (.cls c) (.cls id) where
  shape_eq := rfl
  value v hv := by
    cases hv
    exact ⟨.cls id, rfl, hid ▸ .cls hc⟩

theorem standsReply_inst {i : Ref .inst} {id : Nat} (hi : h.Valid i) (hid : ids i.slot = id) :
    h.StandsReply ids (.inst i) (.inst id) where
  shape_eq := rfl
  value v hv := by
    cases hv
    exact ⟨.inst id, rfl, hid ▸ .inst hi⟩

/-- The values at one place in two corresponding stacks. -/
theorem standsReply_top {stack : List Value} {abstract : List Abstract.Value}
    (hs : List.Forall₂ (h.Stands ids) stack abstract) (i : Nat) :
    h.StandsReply ids (.top stack[i]?) (.top abstract[i]?) := by
  induction hs generalizing i with
  | nil => exact ⟨rfl, nofun⟩
  | cons hv _ ih =>
    cases i with
    | zero =>
      refine ⟨?_, fun v' hv' => ?_⟩
      · simp only [List.getElem?_cons_zero, Reply.shape, Abstract.Reply.shape, Option.map_some,
          hv.shape_eq]
      · cases hv'
        exact ⟨_, rfl, hv⟩
    | succ i => exact ih i

/-- A reply without values stands for the same. -/
theorem StandsReply.plain {reply : Reply} (abstract : Abstract.Reply)
    (hshape : reply.shape = abstract.shape) (hnone : reply.value? = none) :
    h.StandsReply ids reply abstract :=
  ⟨hshape, fun v hv => by rw [hnone] at hv; cases hv⟩

end Heap

namespace Machine

variable {m : Machine} {ids : Nat → Nat} {a : Abstract.Machine}

theorem accepts_of_stands {request : Request} {abstract : Abstract.Request}
    (hq : m.heap.StandsRequest ids request abstract) : m.Accepts request := by
  cases hq with
  | pop | peek _ | intern _ | globalNames | collect | reset => trivial
  | push hv | display hv => exact hv.validValue
  | concatenate hs ht => exact ⟨hs.validSymbol, ht.validSymbol⟩
  | defineGlobal hs hv | setGlobal hs hv => exact ⟨hs.validSymbol, hv.validValue⟩
  | getGlobal hs | newClass hs => exact hs.validSymbol
  | newInstance hc => exact hc
  | defineMethod hc hs hv => exact ⟨hc, hs.validSymbol, hv.validValue⟩
  | inherit hv hc => exact ⟨hv.validValue, hc⟩
  | getProperty hv hs => exact ⟨hv.validValue, hs.validSymbol⟩
  | setProperty hr hs hv => exact ⟨hr.validValue, hs.validSymbol, hv.validValue⟩

/-! ## Looking things up -/

theorem Refines.cls?_eq (hr : m.Refines ids a) {slot : Nat} {c : Class}
    (ho : m.heap.object? slot = some (.cls c)) : ∃ name methods,
      a.cls? (ids slot) = some (name, methods) ∧ m.heap.Spells c.name name ∧
      m.heap.Tabulates ids c.methods methods := by
  obtain ⟨b, hb, hd⟩ := hr.objects slot _ ho nofun
  cases hd with
  | cls hname ht => exact ⟨_, _, by rw [Abstract.Machine.cls?, hb], hname, ht⟩

theorem Refines.inst?_eq (hr : m.Refines ids a) {slot : Nat} {i : Instance}
    (ho : m.heap.object? slot = some (.inst i)) : ∃ fields,
      a.inst? (ids slot) = some (ids i.cls.slot, fields) ∧ m.heap.Valid i.cls ∧
      m.heap.Tabulates ids i.fields fields := by
  obtain ⟨b, hb, hd⟩ := hr.objects slot _ ho nofun
  cases hd with
  | inst hcls ht => exact ⟨_, by rw [Abstract.Machine.inst?, hb], hcls, ht⟩

theorem Refines.display (hr : m.Refines ids a) {v : Value} {w : Abstract.Value} {text : String}
    (hv : m.heap.Stands ids v w) (htext : m.heap.display v = .ok text) :
    a.display w = some text := by
  cases hv with
  | nil | num n => cases htext; rfl
  | bool b => cases b <;> cases htext <;> rfl
  | str hspells =>
    rw [Heap.display, hspells.textOf] at htext
    cases htext
    rfl
  | cls hc =>
    obtain ⟨c, hderef, ho⟩ := hc.deref (by decide)
    obtain ⟨name, methods, hcls, hname, -⟩ := hr.cls?_eq ho
    simp only [Heap.display, hderef, hname.textOf, bind, Except.bind] at htext
    cases htext
    rw [Abstract.Machine.display, hcls]
    rfl
  | inst hi =>
    obtain ⟨i, hderef, ho⟩ := hi.deref (by decide)
    obtain ⟨fields, hinst, hvalid, -⟩ := hr.inst?_eq ho
    obtain ⟨c, hderef', ho'⟩ := hvalid.deref (by decide)
    obtain ⟨name, methods, hcls, hname, -⟩ := hr.cls?_eq ho'
    simp only [Heap.display, hderef, hderef', hname.textOf, bind, Except.bind] at htext
    cases htext
    simp only [Abstract.Machine.display, hinst, hcls, bind, Option.bind]
    rfl

/-- The names of the globals are the names in the map, and each is there once. -/
theorem Refines.perm_names (hr : m.Refines ids a) :
    (m.globals.entries.map fun e => m.heap.textOrEmpty e.1).Perm a.globals.keys := by
  have hspelled : ∀ e ∈ m.globals.entries, m.heap.Spells e.1 (m.heap.textOrEmpty e.1) := by
    intro e he
    obtain ⟨text, -, hspells, -⟩ := hr.globals.entry e.1 e.2 he
    exact hspells.textOrEmpty.symm ▸ hspells
  refine (List.perm_ext_iff_of_nodup ?_ a.globals.keys_nodup).2 fun text => ?_
  · refine List.pairwise_map.2
      (hr.sound.globals.layout.searchable.pairwise_entries.imp_of_mem ?_)
    intro e f he hf hne heq
    exact hne (hr.unambiguous _ _ _ (hspelled e he) (heq ▸ hspelled f hf))
  · rw [← AList.mem_keys, ← AList.lookup_isSome, Option.isSome_iff_exists, List.mem_map]
    constructor
    · rintro ⟨e, he, rfl⟩
      obtain ⟨text, w, hspells, hlookup, -⟩ := hr.globals.entry e.1 e.2 he
      exact ⟨w, hspells.textOrEmpty.symm ▸ hlookup⟩
    · rintro ⟨w, hlookup⟩
      obtain ⟨key, v, he, hspells⟩ := hr.globals.name text w hlookup
      exact ⟨(key, v), he, hspells.textOrEmpty⟩

theorem Refines.globalNames (hr : m.Refines ids a) :
    ((m.globals.entries.map fun e => m.heap.textOrEmpty e.1).mergeSort fun s t => s ≤ t) =
      a.globalNames := by
  refine List.Perm.eq_of_pairwise (fun s t _ _ => String.le_antisymm)
    (Text.pairwise_le_mergeSort _) (Text.pairwise_le_mergeSort _) ?_
  exact ((List.mergeSort_perm _ _).trans hr.perm_names).trans (List.mergeSort_perm _ _).symm

/-! ## Steps -/

/-- The abstract machine carries out the request as well. Its reply is what was replied stands for,
it is refined again, and what has not been released means what it meant. -/
def Simulated (m : Machine) (ids : Nat → Nat) (a : Abstract.Machine) (released : List Nat)
    (request : Abstract.Request) (after : Machine) (reply : Reply) : Prop :=
  ∃ ids' a' abstract, a.handle request = some (a', abstract) ∧ after.Refines ids' a' ∧
    after.heap.StandsReply ids' reply abstract ∧
    ∀ slot, slot ∉ released → m.heap.Carries ids after.heap ids' slot

section Cases

variable {released : List Nat} {request : Abstract.Request}

/-- Where no object changes, nothing has to be said about slots. -/
theorem simulated_of_heap_eq {a' : Abstract.Machine} {abstract : Abstract.Reply} {after : Machine}
    {reply : Reply} (hheap : after.heap = m.heap) (hhandle : a.handle request = some (a', abstract))
    (hr : after.Refines ids a') (hreply : m.heap.StandsReply ids reply abstract) :
    m.Simulated ids a released request after reply :=
  ⟨ids, a', abstract, hhandle, hr, hheap ▸ hreply,
    fun slot _ => carries_of_keeps (.of_eq (by rw [hheap]))⟩

theorem Refines.push (hr : m.Refines ids a) {v : Value} {w : Abstract.Value}
    (hv : m.heap.Stands ids v w) : (m.push v).Refines ids { a with stack := w :: a.stack } :=
  hr.withStack (.cons hv hr.stack)

/-- Allocating on behalf of an operand adds an object, which has the next number. -/
theorem Refines.placeHolding (hr : m.Refines ids a) {operand : Value} {w : Abstract.Value}
    (hv : m.heap.Stands ids operand w) {roomy : Machine}
    (hc : (m.push operand).Cleared released roomy) {o : Object} {b : Abstract.Object}
    (hstr : ∀ s, o ≠ .str s) (hb : o.HasBuiltTables) (hd : roomy.heap.Depicts ids o b) :
    Refines { roomy with heap := (roomy.heap.place o).1, stack := m.stack }
      (assign ids (roomy.heap.place o).2 a.objects.length) (a.addObject b) := by
  have hplaced := ((hr.push hv).cleared hc).place hstr hb hd
  apply hplaced.withStack
  have hstack := hplaced.stack
  simp only [hc.stack_eq] at hstack
  cases hstack with
  | cons _ hrest => exact hrest

theorem Refines.simulated_newClass (hr : m.Refines ids a) {name : Symbol} {text : String}
    (hs : m.heap.Spells name text) {roomy : Machine}
    (hc : (m.push (.str name)).Cleared released roomy) :
    m.Simulated ids a released (.newClass text)
      { roomy with heap := (roomy.heap.place (.cls { name })).1, stack := m.stack }
      (.cls ⟨(roomy.heap.place (.cls { name })).2⟩) := by
  have hname : roomy.heap.Spells name text :=
    hs.keeps (hc.keeps_stack List.mem_cons_self (.str name))
  have hslotted := hc.heap.slotted
  refine ⟨_, _, .cls a.objects.length, rfl,
    hr.placeHolding (.str hs) hc nofun .empty (.cls hname Heap.tabulates_empty),
    Heap.standsReply_cls (valid_place hslotted (k := .cls) _) (assign_self _ _ _), ?_⟩
  exact fun slot hslot => hc.carries (carries_place hslotted _ _) hslot

theorem Refines.simulated_newInstance (hr : m.Refines ids a) {cls : Ref .cls}
    (hv : m.heap.Valid cls) {roomy : Machine} (hc : (m.push (.cls cls)).Cleared released roomy) :
    m.Simulated ids a released (.newInstance (ids cls.slot))
      { roomy with heap := (roomy.heap.place (.inst { cls })).1, stack := m.stack }
      (.inst ⟨(roomy.heap.place (.inst { cls })).2⟩) := by
  have hcls : roomy.heap.Valid cls := hv.keeps (hc.keeps_stack List.mem_cons_self (.cls cls))
  have hslotted := hc.heap.slotted
  refine ⟨_, _, .inst a.objects.length, rfl,
    hr.placeHolding (.cls hv) hc nofun .empty (.inst hcls Heap.tabulates_empty),
    Heap.standsReply_inst (valid_place hslotted (k := .inst) _) (assign_self _ _ _), ?_⟩
  exact fun slot hslot => hc.carries (carries_place hslotted _ _) hslot

/-! ### Changes of classes and instances -/

/-- A change of an object is followed by the change of the one with its number. -/
theorem Refines.simulated_replace (hr : m.Refines ids a) {k : Kind} {r : Ref k} {p q : k.Payload}
    {b : Abstract.Object} (hk : k ≠ .str) (hp : m.heap.object? r.slot = some (.of k p))
    (hb : (Object.of k q).HasBuiltTables) (hd : m.heap.Depicts ids (.of k q) b)
    (hhandle : a.handle request = some (a.setObject (ids r.slot) b, .done)) :
    m.Simulated ids a released request { m with heap := m.heap.replace r q } .done :=
  ⟨ids, _, .done, hhandle, hr.replace hk hp hb hd, .plain _ rfl rfl,
    fun slot _ => carries_of_keeps (Heap.keeps_replace hk hp q slot)⟩

theorem Refines.simulated_defineMethod (hr : m.Refines ids a) {cls : Ref .cls} {c : Class}
    (ho : m.heap.object? cls.slot = some (.cls c)) {name : Symbol} {text : String} {v : Value}
    {w : Abstract.Value} (hs : m.heap.Spells name text) (hv : m.heap.Stands ids v w) :
    m.Simulated ids a released (.defineMethod (ids cls.slot) text w)
      { m with heap := m.heap.replace cls { c with methods := (c.methods.insert name v).1 } }
      .done := by
  obtain ⟨clsName, methods, hcls, hname, ht⟩ := hr.cls?_eq ho
  have hb : c.methods.Built := hr.sound.heap.tables _ _ ho
  refine hr.simulated_replace (k := .cls) (p := c) (by decide) ho (Table.Built.insert name v hb)
    (.cls hname (ht.insert hb.layout hr.unambiguous hs hv)) ?_
  simp only [Abstract.Machine.handle, Abstract.Machine.defineMethod, hcls]
  rfl

theorem Refines.simulated_inherit (hr : m.Refines ids a) {super cls : Ref .cls} {s c : Class}
    (hos : m.heap.object? super.slot = some (.cls s))
    (hoc : m.heap.object? cls.slot = some (.cls c)) :
    m.Simulated ids a released (.inherit (.cls (ids super.slot)) (ids cls.slot))
      { m with heap := m.heap.replace cls { c with methods := c.methods.merge s.methods } }
      .done := by
  obtain ⟨_, inherited, hsuper, -, hts⟩ := hr.cls?_eq hos
  obtain ⟨name, methods, hcls, hname, htc⟩ := hr.cls?_eq hoc
  have hbs : s.methods.Built := hr.sound.heap.tables _ _ hos
  have hbc : c.methods.Built := hr.sound.heap.tables _ _ hoc
  refine hr.simulated_replace (k := .cls) (p := c) (by decide) hoc (Table.Built.merge hbc hbs)
    (.cls hname (htc.merge hbc.layout hts hbs.layout hr.unambiguous)) ?_
  simp only [Abstract.Machine.handle, Abstract.Machine.inherit, hsuper, hcls]
  rfl

theorem Refines.simulated_setField (hr : m.Refines ids a) {i : Ref .inst} {inst : Instance}
    (ho : m.heap.object? i.slot = some (.inst inst)) {name : Symbol} {text : String} {v : Value}
    {w : Abstract.Value} (hs : m.heap.Spells name text) (hv : m.heap.Stands ids v w) :
    m.Simulated ids a released (.setProperty (.inst (ids i.slot)) text w)
      { m with heap := m.heap.replace i { inst with fields := (inst.fields.insert name v).1 } }
      .done := by
  obtain ⟨fields, hinst, hcls, ht⟩ := hr.inst?_eq ho
  have hb : inst.fields.Built := hr.sound.heap.tables _ _ ho
  refine hr.simulated_replace (k := .inst) (p := inst) (by decide) ho
    (Table.Built.insert name v hb) (.inst hcls (ht.insert hb.layout hr.unambiguous hs hv)) ?_
  simp only [Abstract.Machine.handle, Abstract.Machine.setProperty, hinst]
  rfl

/-! ### Properties -/

/-- A field is found by the abstract machine, a field that is absent is not. -/
theorem Refines.getProperty_eq (hr : m.Refines ids a) {i : Ref .inst} {inst : Instance}
    {c : Class} {name : Symbol} {text : String} (ho : m.heap.object? i.slot = some (.inst inst))
    (hoc : m.heap.object? inst.cls.slot = some (.cls c)) (hs : m.heap.Spells name text) :
    (∀ v, (inst.fields.get? name).or (c.methods.get? name) = some v →
      ∃ w, a.getProperty (.inst (ids i.slot)) text = some (.found w) ∧ m.heap.Stands ids v w) ∧
    ((inst.fields.get? name).or (c.methods.get? name) = none →
      a.getProperty (.inst (ids i.slot)) text = some (.refused (.undefinedProperty text))) := by
  obtain ⟨fields, hinst, -, htf⟩ := hr.inst?_eq ho
  obtain ⟨_, methods, hcls, -, htm⟩ := hr.cls?_eq hoc
  have hlf : inst.fields.Layout := (hr.sound.heap.tables _ _ ho : inst.fields.Built).layout
  have hlm : c.methods.Layout := (hr.sound.heap.tables _ _ hoc : c.methods.Built).layout
  simp only [Abstract.Machine.getProperty, hinst, hcls, bind, Option.bind]
  cases hfield : inst.fields.get? name with
  | some v =>
    obtain ⟨w, hlookup, hw⟩ := htf.lookup_of_get? hlf hs hfield
    refine ⟨fun v' hv' => ⟨w, by rw [hlookup]; rfl, ?_⟩, nofun⟩
    cases hv'
    exact hw
  | none =>
    rw [htf.lookup_of_absent hlf hr.unambiguous hs hfield]
    cases hmethod : c.methods.get? name with
    | some v =>
      obtain ⟨w, hlookup, hw⟩ := htm.lookup_of_get? hlm hs hmethod
      refine ⟨fun v' hv' => ⟨w, by rw [hlookup]; rfl, ?_⟩, nofun⟩
      cases hv'
      exact hw
    | none =>
      rw [htm.lookup_of_absent hlm hr.unambiguous hs hmethod]
      exact ⟨nofun, fun _ => rfl⟩

/-! ### Interning -/

theorem Refines.simulated_internNew (hr : m.Refines ids a) {text : String} {roomy : Machine}
    (hc : m.Cleared released roomy) (hnone : roomy.heap.find? text = .ok none) :
    m.Simulated ids a released (.intern text)
      { roomy with heap := (roomy.heap.withString (.ofText text 0)).1 }
      (.symbol (roomy.heap.withString (.ofText text 0)).2) := by
  have hslotted := hc.heap.slotted
  refine ⟨ids, a, .symbol text, rfl, (hr.cleared hc).withString rfl hnone,
    Heap.standsReply_symbol (Heap.spells_withString_self hc.heap rfl), fun slot hslot => ?_⟩
  exact hc.carries (fun s => carries_of_keeps (Heap.keeps_withString hslotted _ s)) hslot

/-! ### Globals -/

theorem Refines.insert_global (hr : m.Refines ids a) {name : Symbol} {text : String} {v : Value}
    {w : Abstract.Value} (hs : m.heap.Spells name text) (hv : m.heap.Stands ids v w) :
    Refines { m with globals := (m.globals.insert name v).1 } ids
      { a with globals := a.globals.insert text w } :=
  hr.withGlobals (.insert _ _ hr.sound.globals)
    (hr.globals.insert hr.sound.globals.layout hr.unambiguous hs hv)

/-- An assignment that is refused leaves other buckets, but the same entries. -/
theorem Refines.setUndefined (hr : m.Refines ids a) {name : Symbol}
    (hget : m.globals.get? name = none) (v : Value) :
    Refines { m with globals := ((m.globals.insert name v).1.erase name).1 } ids a := by
  have hl := hr.sound.globals.layout
  have hb := Table.Built.insert name v hr.sound.globals
  refine hr.withGlobals (.erase _ hb) (hr.globals.congr ?_)
  intro e
  rw [Table.mem_entries_erase hb.layout, Table.mem_entries_insert hl]
  constructor
  · rintro ⟨hne, rfl | ⟨-, he⟩⟩
    · exact absurd rfl hne
    · exact he
  · intro he
    have hne : e.1 ≠ name := fun heq => (Table.get?_eq_none_iff hl).1 hget e.2 (heq ▸ he)
    exact ⟨hne, .inr ⟨hne, he⟩⟩

end Cases

/-- **A step is simulated.** Whatever a request does to a machine, the abstract machine does too. -/
theorem Refines.step (hr : m.Refines ids a) {released : List Nat} {request : Request}
    {after : Machine} {reply : Reply} (hstep : m.Step released request after reply)
    {abstract : Abstract.Request} (hq : m.heap.StandsRequest ids request abstract) :
    m.Simulated ids a released abstract after reply := by
  have hl := hr.sound.globals.layout
  induction hstep generalizing abstract with
  | push v =>
    cases hq with
    | push hv => exact simulated_of_heap_eq rfl rfl (hr.push hv) (.plain _ rfl rfl)
  | pop =>
    cases hq
    refine simulated_of_heap_eq rfl rfl (hr.withStack ?_) ?_
    · rw [← List.drop_one, ← List.drop_one]
      exact List.forall₂_drop 1 hr.stack
    · have htop := Heap.standsReply_top hr.stack 0
      rwa [← List.head?_eq_getElem?, ← List.head?_eq_getElem?] at htop
  | peek distance =>
    cases hq
    exact simulated_of_heap_eq rfl rfl hr (Heap.standsReply_top hr.stack distance)
  | internOld hspells =>
    cases hq
    exact simulated_of_heap_eq rfl rfl hr (Heap.standsReply_symbol hspells)
  | internNew _ hnone hc =>
    cases hq
    exact hr.simulated_internNew hc hnone
  | concatenate hfirst hsecond _ ih =>
    cases hq with
    | concatenate hs ht =>
      obtain rfl := hs.text_unique hfirst
      obtain rfl := ht.text_unique hsecond
      obtain ⟨ids', a', reply', hhandle, hrest⟩ := ih (.intern _)
      exact ⟨ids', a', reply', hhandle, hrest⟩
  | defineGlobal name v =>
    cases hq with
    | defineGlobal hs hv =>
      exact simulated_of_heap_eq rfl rfl (hr.insert_global hs hv) (.plain _ rfl rfl)
  | getGlobal hget =>
    cases hq with
    | getGlobal hs =>
      obtain ⟨w, hlookup, hw⟩ := hr.globals.lookup_of_get? hl hs hget
      refine simulated_of_heap_eq rfl ?_ hr (Heap.standsReply_found hw)
      simp only [Abstract.Machine.handle, Abstract.Machine.getGlobal, hlookup]
      rfl
  | getUndefined hget hspells =>
    cases hq with
    | getGlobal hs =>
      obtain rfl := hs.text_unique hspells
      have hlookup := hr.globals.lookup_of_absent hl hr.unambiguous hs hget
      refine simulated_of_heap_eq rfl ?_ hr (.plain (.refused _) rfl rfl)
      simp only [Abstract.Machine.handle, Abstract.Machine.getGlobal, hlookup]
      rfl
  | setGlobal v hget =>
    cases hq with
    | setGlobal hs hv =>
      obtain ⟨w, hlookup, -⟩ := hr.globals.lookup_of_get? hl hs hget
      refine simulated_of_heap_eq rfl ?_ (hr.insert_global hs hv) (.plain .done rfl rfl)
      simp only [Abstract.Machine.handle, Abstract.Machine.setGlobal, hlookup]
      rfl
  | setUndefined v hget hspells =>
    cases hq with
    | setGlobal hs hv =>
      obtain rfl := hs.text_unique hspells
      have hlookup := hr.globals.lookup_of_absent hl hr.unambiguous hs hget
      refine simulated_of_heap_eq rfl ?_ (hr.setUndefined hget v)
        (.plain (.refused _) rfl rfl)
      simp only [Abstract.Machine.handle, Abstract.Machine.setGlobal, hlookup]
      rfl
  | globalNames =>
    cases hq
    exact simulated_of_heap_eq rfl rfl hr
      (.plain (.names _) (congrArg Reply.names hr.globalNames) rfl)
  | newClass hc =>
    cases hq with
    | newClass hs => exact hr.simulated_newClass hs hc
  | newInstance hc =>
    cases hq with
    | newInstance hv => exact hr.simulated_newInstance hv hc
  | defineMethod name method ho =>
    cases hq with
    | defineMethod _ hs hv => exact hr.simulated_defineMethod ho hs hv
  | inherit hos hoc =>
    cases hq with
    | inherit hv _ =>
      cases hv
      exact hr.simulated_inherit hos hoc
  | inheritNoClass cls hno =>
    cases hq with
    | inherit hv _ =>
      refine simulated_of_heap_eq rfl ?_ hr (.plain (.refused .invalidSuperclass) rfl rfl)
      cases hv with
      | cls _ => exact absurd rfl (hno _)
      | nil | bool _ | num _ | str _ | inst _ => rfl
  | @getField i name inst v ho hget =>
    cases hq with
    | getProperty hi hs =>
      cases hi
      obtain ⟨c, hoc⟩ := (hr.sound.closed.heap _ _ ho).1
      obtain ⟨w, hw, hv⟩ := (hr.getProperty_eq ho hoc hs).1 v (by rw [hget, Option.some_or])
      refine simulated_of_heap_eq rfl ?_ hr (Heap.standsReply_found hv)
      rw [Abstract.Machine.handle, hw]
      rfl
  | @getMethod i name inst c v ho hfield hoc hget =>
    cases hq with
    | getProperty hi hs =>
      cases hi
      obtain ⟨w, hw, hv⟩ := (hr.getProperty_eq ho hoc hs).1 v (by rw [hfield, Option.none_or, hget])
      refine simulated_of_heap_eq rfl ?_ hr (Heap.standsReply_found hv)
      rw [Abstract.Machine.handle, hw]
      rfl
  | getUnknown ho hfield hoc hmethod hspells =>
    cases hq with
    | getProperty hi hs =>
      cases hi
      obtain rfl := hs.text_unique hspells
      have hnone := (hr.getProperty_eq ho hoc hs).2 (by rw [hfield, Option.none_or, hmethod])
      refine simulated_of_heap_eq rfl ?_ hr (.plain (.refused _) rfl rfl)
      rw [Abstract.Machine.handle, hnone]
      rfl
  | getNoInstance name hno =>
    cases hq with
    | getProperty hv _ =>
      refine simulated_of_heap_eq rfl ?_ hr (.plain (.refused .notAnInstance) rfl rfl)
      cases hv with
      | inst _ => exact absurd rfl (hno _)
      | nil | bool _ | num _ | str _ | cls _ => rfl
  | setField name v ho =>
    cases hq with
    | setProperty hi hs hv =>
      cases hi
      exact hr.simulated_setField ho hs hv
  | setNoInstance name v hno =>
    cases hq with
    | setProperty hv _ _ =>
      refine simulated_of_heap_eq rfl ?_ hr (.plain (.refused .noFields) rfl rfl)
      cases hv with
      | inst _ => exact absurd rfl (hno _)
      | nil | bool _ | num _ | str _ | cls _ => rfl
  | @display v text htext =>
    cases hq with
    | display hv =>
      refine simulated_of_heap_eq rfl ?_ hr (.plain (.text text) rfl rfl)
      rw [Abstract.Machine.handle, hr.display hv htext]
      rfl
  | collect hc =>
    cases hq
    exact ⟨ids, a, .done, rfl, hr.cleared hc, .plain _ rfl rfl,
      fun slot hslot => hc.carries (fun _ => carries_of_keeps (.of_eq rfl)) hslot⟩
  | reset hc =>
    cases hq
    have hempty := (hr.withGlobals .empty Heap.tabulates_empty).withStack .nil
    exact ⟨ids, _, .done, rfl, hempty.cleared hc, .plain _ rfl rfl,
      fun slot hslot => hc.carries (fun _ => carries_of_keeps (.of_eq rfl)) hslot⟩

end Machine

end ObjectHeap
