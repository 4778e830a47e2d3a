import ObjectHeap.Proofs.Machine.Reading

/-!
# Chronicles

Somebody who listens to the requests made of a machine and to its replies can write down what the
globals are, what methods each class has, and what class and fields each instance has, all by the
texts of names. That is a `Chronicle`. It knows no tables and no symbols, and a collection is
nothing to it. What is written down at a request is one line of `Chronicle.next`.

The machine confirms the chronicle: its tables read what the chronicle says, at every moment of
every run (`Machine.Chronicled.confirms`). This needs that a name stays the key it was, which is so
because the keys of globals and objects are kept by collections, and because a text that is interned
again is interned as the same symbol.
-/

set_option autoImplicit false

namespace ObjectHeap

/-- The reply to somebody who looks for a value that may be missing. -/
def Reply.foundOr (why : Refusal) : Option Value → Reply
  | some v => .found v
  | none => .refused why

/-- What is known of a machine from requests and replies. -/
structure Chronicle where
  globals : Mapping String := ∅
  methods : Ref .cls → Mapping String := fun _ => ∅
  classOf : Ref .inst → Option (Ref .cls) := fun _ => none
  fields : Ref .inst → Mapping String := fun _ => ∅

namespace Chronicle

/-- Writes down other methods of a class. -/
def withMethods (c : Chronicle) (cls : Ref .cls) (methods : Mapping String) : Chronicle :=
  { c with methods := Function.update c.methods cls methods }

/-- Writes down other fields of an instance. -/
def withFields (c : Chronicle) (i : Ref .inst) (fields : Mapping String) : Chronicle :=
  { c with fields := Function.update c.fields i fields }

/-- Writes down a new instance of a class. -/
def withInstance (c : Chronicle) (i : Ref .inst) (cls : Ref .cls) : Chronicle :=
  { c.withFields i ∅ with classOf := Function.update c.classOf i (some cls) }

/-- Writes down what follows from a request and its reply. What names mean is what they mean before
the request. -/
def next (c : Chronicle) (text : Symbol → String) : Request → Reply → Chronicle
  | .defineGlobal name v, _ | .setGlobal name v, .done =>
    { c with globals := c.globals.insert (text name) v }
  | .reset, _ => { c with globals := ∅ }
  | .newClass _, .cls cls => c.withMethods cls ∅
  | .newInstance cls, .inst i => c.withInstance i cls
  | .defineMethod cls name method, _ =>
    c.withMethods cls ((c.methods cls).insert (text name) method)
  | .inherit (.cls super) cls, _ => c.withMethods cls (c.methods super ∪ c.methods cls)
  | .setProperty (.inst i) name v, _ => c.withFields i ((c.fields i).insert (text name) v)
  | _, _ => c

/-- The property of an instance: its field of that name, or else the method of its class. -/
def property (c : Chronicle) (i : Ref .inst) (name : String) : Option Value :=
  ((c.fields i).lookup name).or ((c.classOf i).bind fun cls => (c.methods cls).lookup name)

end Chronicle

namespace Machine

variable {m after : Machine} {c c' : Chronicle}

/-- A machine that arises, with the chronicle of how it did. -/
inductive Chronicled (policy : Policy) : Machine → Chronicle → Prop
  | new : Chronicled policy (.new policy) {}
  | handle {m after : Machine} {c : Chronicle} {request : Request} {reply : Reply} :
    Chronicled policy m c → m.Accepts request →
    (m.handle request).result = .ok (after, reply) →
    Chronicled policy after (c.next m.heap.textOrEmpty request reply)

theorem Chronicled.arises {policy : Policy} (hc : m.Chronicled policy c) : m.Arises policy := by
  induction hc with
  | new => exact .new
  | handle _ ha hok ih => exact ih.handle ha hok

/-- Of every machine there is a chronicle. -/
theorem Arises.exists_chronicled {policy : Policy} (ha : m.Arises policy) :
    ∃ c, m.Chronicled policy c := by
  induction ha with
  | new => exact ⟨{}, .new⟩
  | handle _ ha hok ih =>
    obtain ⟨c, hc⟩ := ih
    exact ⟨_, hc.handle ha hok⟩

end Machine

/-! ## What the chronicle says is so -/

/-- What the chronicle says of the object in a slot is so. -/
def Heap.Confirms (h : Heap) (c : Chronicle) (slot : Nat) : Object → Prop
  | .cls k => c.methods ⟨slot⟩ = h.reading k.methods
  | .inst i => c.classOf ⟨slot⟩ = some i.cls ∧ c.fields ⟨slot⟩ = h.reading i.fields
  | .str _ | .box _ => True

namespace Heap.Confirms

variable {h after : Heap} {c : Chronicle} {slot : Nat} {o : Object}

theorem keeps (hd : h.Confirms c slot o) (hv : h.ValidObject o)
    (hk : ∀ target, o.RefersTo target → h.Keeps after target) : after.Confirms c slot o := by
  cases o with
  | str s => trivial
  | cls k => exact hd.trans (reading_keeps hv.2 fun _ _ he => hk _ (.methodName he)).symm
  | inst i =>
    exact ⟨hd.1, hd.2.trans (reading_keeps hv.2 fun _ _ he => hk _ (.fieldName he)).symm⟩
  | box v => trivial

/-- What is written down about one class is nothing to the others. -/
theorem withMethods (hd : h.Confirms c slot o) {cls : Ref .cls} (hne : slot ≠ cls.slot)
    (methods : Mapping String) : h.Confirms (c.withMethods cls methods) slot o := by
  cases o with
  | str s => trivial
  | cls k =>
    have hslot : (⟨slot⟩ : Ref .cls) ≠ cls := fun heq => hne (congrArg Ref.slot heq)
    exact (Function.update_of_ne hslot _ _).trans hd
  | inst i => exact hd
  | box v => trivial

theorem withFields (hd : h.Confirms c slot o) {i : Ref .inst} (hne : slot ≠ i.slot)
    (fields : Mapping String) : h.Confirms (c.withFields i fields) slot o := by
  cases o with
  | str s => trivial
  | cls k => exact hd
  | inst inst =>
    have hslot : (⟨slot⟩ : Ref .inst) ≠ i := fun heq => hne (congrArg Ref.slot heq)
    exact ⟨hd.1, (Function.update_of_ne hslot _ _).trans hd.2⟩
  | box v => trivial

theorem withInstance (hd : h.Confirms c slot o) {i : Ref .inst} (hne : slot ≠ i.slot)
    (cls : Ref .cls) : h.Confirms (c.withInstance i cls) slot o := by
  have hfields := hd.withFields hne ∅
  cases o with
  | str s => trivial
  | cls k => exact hd
  | inst inst =>
    have hslot : (⟨slot⟩ : Ref .inst) ≠ i := fun heq => hne (congrArg Ref.slot heq)
    exact ⟨(Function.update_of_ne hslot _ _).trans hd.1, hfields.2⟩
  | box v => trivial

end Heap.Confirms

namespace Machine

variable {m after : Machine} {c c' : Chronicle}

/-- What the chronicle says is so. -/
structure Confirms (m : Machine) (c : Chronicle) : Prop where
  globals : c.globals = m.heap.reading m.globals
  objects : ∀ slot o, m.heap.object? slot = some o → m.heap.Confirms c slot o

theorem confirms_new (policy : Policy) : (Machine.new policy).Confirms {} where
  globals := Heap.reading_empty.symm
  objects slot o ho := by
    rw [new, Heap.object?_new] at ho
    cases ho

theorem Confirms.withGlobals (hc : m.Confirms c) {globals : Table} {map : Mapping String}
    (heq : map = m.heap.reading globals) :
    { m with globals }.Confirms { c with globals := map } :=
  ⟨heq, hc.objects⟩

/-- The chronicle is not about the stack. -/
theorem Confirms.withStack (hc : m.Confirms c) (stack : List Value) :
    { m with stack }.Confirms c := ⟨hc.globals, hc.objects⟩

/-- A collection is nothing to a chronicle. -/
theorem Confirms.cleared (hc : m.Confirms c) (hm : m.Sound) {released : List Nat}
    (hcleared : m.Cleared released after) : after.Confirms c where
  globals := by
    rw [hcleared.globals_eq, hc.globals]
    exact (Heap.reading_keeps hm.closed.globals fun _ _ he => hcleared.keeps_globalName he).symm
  objects slot o ho := by
    have hold := hcleared.object?_of_after ho
    exact (hc.objects slot o hold).keeps (hm.closed.heap slot o hold) fun _ ht =>
      hcleared.keeps_targets ho ht

/-- If all slots are kept, what the chronicle says has to be looked at for objects only. -/
theorem Confirms.keeps (hc : m.Confirms c) (hm : m.Sound) {heap : Heap}
    (hk : ∀ slot, m.heap.Keeps heap slot) (hglobals : c'.globals = c.globals)
    (hobjects : ∀ slot o, heap.object? slot = some o →
      m.heap.ValidObject o ∧ m.heap.Confirms c' slot o) :
    { m with heap }.Confirms c' where
  globals := by
    rw [hglobals, hc.globals]
    exact (Heap.reading_keeps hm.closed.globals fun key _ _ => hk key.str.slot).symm
  objects slot o ho := by
    obtain ⟨hv, hd⟩ := hobjects slot o ho
    exact hd.keeps hv fun target _ => hk target

theorem Confirms.withString (hc : m.Confirms c) (hm : m.Sound) (s : Str) :
    { m with heap := (m.heap.withString s).1 }.Confirms c := by
  refine hc.keeps hm (Heap.keeps_withString hm.heap.slotted s) rfl fun slot o ho => ?_
  rcases Heap.of_object?_withString hm.heap ho with ⟨-, rfl⟩ | hold
  · exact ⟨trivial, trivial⟩
  · exact ⟨hm.closed.heap slot o hold, hc.objects slot o hold⟩

/-- A new object is written down under its slot, and the others stay as they are. -/
theorem Confirms.place (hc : m.Confirms c) (hm : m.Sound) {o : Object} (hv : m.heap.ValidObject o)
    (hglobals : c'.globals = c.globals) (hnew : m.heap.Confirms c' (m.heap.place o).2 o)
    (hothers : ∀ slot o', slot ≠ (m.heap.place o).2 → m.heap.Confirms c slot o' →
      m.heap.Confirms c' slot o') :
    { m with heap := (m.heap.place o).1 }.Confirms c' := by
  refine hc.keeps hm (Heap.keeps_place hm.heap.slotted o) hglobals fun slot o' ho' => ?_
  rcases Heap.of_object?_place hm.heap.slotted ho' with ⟨rfl, rfl⟩ | ⟨hne, hold⟩
  · exact ⟨hv, hnew⟩
  · exact ⟨hm.closed.heap slot o' hold, hothers slot o' hne (hc.objects slot o' hold)⟩

theorem Confirms.placeClass (hc : m.Confirms c) (hm : m.Sound) {name : Symbol}
    (hv : m.heap.ValidSymbol name) :
    { m with heap := (m.heap.place (.cls { name })).1 }.Confirms
      (c.withMethods ⟨(m.heap.place (.cls { name })).2⟩ ∅) :=
  hc.place hm (o := .cls { name }) ⟨hv, Heap.validTable_empty⟩ rfl (Function.update_self _ _ _)
    fun _ _ hne hd => hd.withMethods hne ∅

theorem Confirms.placeInstance (hc : m.Confirms c) (hm : m.Sound) {cls : Ref .cls}
    (hv : m.heap.Valid cls) :
    { m with heap := (m.heap.place (.inst { cls })).1 }.Confirms
      (c.withInstance ⟨(m.heap.place (.inst { cls })).2⟩ cls) :=
  hc.place hm (o := .inst { cls }) ⟨hv, Heap.validTable_empty⟩ rfl
    ⟨Function.update_self _ _ _, Function.update_self _ _ _⟩
    fun _ _ hne hd => hd.withInstance hne cls

/-- An object that is changed is written down again. -/
theorem Confirms.replace (hc : m.Confirms c) (hm : m.Sound) {k : Kind} {r : Ref k}
    {p q : k.Payload} (hk : k ≠ .str) (hr : m.heap.object? r.slot = some (.of k p))
    (hv : m.heap.ValidObject (.of k q)) (hglobals : c'.globals = c.globals)
    (hnew : m.heap.Confirms c' r.slot (.of k q))
    (hothers : ∀ slot o, slot ≠ r.slot → m.heap.Confirms c slot o → m.heap.Confirms c' slot o) :
    { m with heap := m.heap.replace r q }.Confirms c' := by
  refine hc.keeps hm (Heap.keeps_replace hk hr q) hglobals fun slot o ho => ?_
  rcases Heap.of_object?_replace ho with ⟨rfl, rfl⟩ | ⟨hne, hold⟩
  · exact ⟨hv, hnew⟩
  · exact ⟨hm.closed.heap slot o hold, hothers slot o hne (hc.objects slot o hold)⟩

theorem Confirms.replaceMethods (hc : m.Confirms c) (hm : m.Sound) {cls : Ref .cls} {k : Class}
    (ho : m.heap.object? cls.slot = some (.cls k)) {methods : Table}
    (hv : m.heap.ValidTable methods) :
    { m with heap := m.heap.replace cls { k with methods } }.Confirms
      (c.withMethods cls (m.heap.reading methods)) :=
  hc.replace hm (k := .cls) (p := k) (by decide) ho ⟨(hm.closed.heap _ _ ho).1, hv⟩ rfl
    (Function.update_self _ _ _) fun _ _ hne hd => hd.withMethods hne _

theorem Confirms.replaceFields (hc : m.Confirms c) (hm : m.Sound) {i : Ref .inst} {inst : Instance}
    (ho : m.heap.object? i.slot = some (.inst inst)) {fields : Table}
    (hv : m.heap.ValidTable fields) :
    { m with heap := m.heap.replace i { inst with fields } }.Confirms
      (c.withFields i (m.heap.reading fields)) :=
  hc.replace hm (k := .inst) (p := inst) (by decide) ho ⟨(hm.closed.heap _ _ ho).1, hv⟩ rfl
    ⟨(hc.objects _ _ ho).1, Function.update_self _ _ _⟩ fun _ _ hne hd => hd.withFields hne _

/-! ## What one request changes -/

/-- An assignment that is refused inserts the name and erases it, and the table reads as before. -/
theorem Sound.reading_setUndefined (hm : m.Sound) {name : Symbol} {v : Value}
    (ha : m.Accepts (.setGlobal name v)) (hget : m.globals.get? name = none) :
    m.heap.reading ((m.globals.insert name v).1.erase name).1 = m.heap.reading m.globals := by
  have hl := hm.globals.layout
  have hv := hm.closed.globals.insert hl ha.1 ha.2
  refine Heap.reading_congr hm.distinctTexts hl hm.closed.globals hl.insert.erase
    (hv.erase hl.insert) fun key => ?_
  rw [Table.get?_erase hl.insert]
  split
  · next heq => rw [heq, hget]
  · next hne => rw [Table.get?_insert hl, if_neg hne]

/-- What a request does is what the chronicle says of it. -/
theorem Confirms.step (hc : m.Confirms c) (hm : m.Sound) {request : Request}
    (ha : m.Accepts request) {released : List Nat} {reply : Reply}
    (hstep : m.Step released request after reply) :
    after.Confirms (c.next m.heap.textOrEmpty request reply) := by
  induction hstep with
  | push v => exact hc.withStack _
  | pop => exact hc.withStack _
  | peek distance => exact hc
  | internOld _ => exact hc
  | internNew _ _ hcleared => exact (hc.cleared hm hcleared).withString (hm.cleared hcleared) _
  -- Only what is interned differs, and the chronicle says nothing of that.
  | concatenate _ _ _ ih => exact ih trivial
  | defineGlobal name v =>
    refine hc.withGlobals ?_
    rw [Heap.reading_insert hm.distinctTexts hm.globals.layout hm.closed.globals ha.1, hc.globals]
  | getGlobal _ => exact hc
  | getUndefined _ _ => exact hc
  | @setGlobal name _ v _ =>
    refine hc.withGlobals ?_
    rw [Heap.reading_insert hm.distinctTexts hm.globals.layout hm.closed.globals ha.1, hc.globals]
  | setUndefined v hget _ =>
    exact ⟨hc.globals.trans (hm.reading_setUndefined ha hget).symm, hc.objects⟩
  | globalNames => exact hc
  -- While room is made the operand is on the stack, so the new object refers to what is there.
  | @newClass name roomy hcleared =>
    have hv : m.heap.ValidValue (.str name) := ha
    have hname : roomy.heap.ValidSymbol name := hcleared.validValue_operand hv
    have hroomy := (hc.withStack (.str name :: m.stack)).cleared (hm.push hv) hcleared
    exact (hroomy.placeClass ((hm.push hv).cleared hcleared) hname).withStack m.stack
  | @newInstance cls roomy hcleared =>
    have hv : m.heap.ValidValue (.cls cls) := ha
    have hcls : roomy.heap.Valid cls := hcleared.validValue_operand hv
    have hroomy := (hc.withStack (.cls cls :: m.stack)).cleared (hm.push hv) hcleared
    exact (hroomy.placeInstance ((hm.push hv).cleared hcleared) hcls).withStack m.stack
  | @defineMethod cls k name method ho =>
    have hk := hm.closed.heap _ _ ho
    have hl := hm.heap.layout_methods ho
    have hmethods : c.methods cls = m.heap.reading k.methods := hc.objects _ _ ho
    have hread := Heap.reading_insert (v := method) hm.distinctTexts hl hk.2 ha.2.1
    have hafter := hc.replaceMethods hm ho (hk.2.insert hl ha.2.1 ha.2.2)
    rwa [hread, ← hmethods] at hafter
  | @inherit super cls s k hos hok =>
    have hs := hm.closed.heap _ _ hos
    have hk := hm.closed.heap _ _ hok
    have hls := hm.heap.layout_methods hos
    have hlk := hm.heap.layout_methods hok
    have hsuper : c.methods super = m.heap.reading s.methods := hc.objects _ _ hos
    have hcls : c.methods cls = m.heap.reading k.methods := hc.objects _ _ hok
    have hread := Heap.reading_merge hm.distinctTexts hlk hk.2 hls hs.2
    have hafter := hc.replaceMethods hm hok (hk.2.merge hlk hs.2 hls)
    rwa [hread, ← hsuper, ← hcls] at hafter
  | @inheritNoClass super cls hno =>
    cases super with
    | cls s => exact absurd rfl (hno s)
    | nil | bool b | num n | str s | inst i => exact hc
  | getField _ _ => exact hc
  | getMethod _ _ _ _ => exact hc
  | getUnknown _ _ _ _ _ => exact hc
  | getNoInstance _ _ => exact hc
  | @setField i inst name v ho =>
    have hi := hm.closed.heap _ _ ho
    have hl := hm.heap.layout_fields ho
    have hfields : c.fields i = m.heap.reading inst.fields := (hc.objects _ _ ho).2
    have hread := Heap.reading_insert (v := v) hm.distinctTexts hl hi.2 ha.2.1
    have hafter := hc.replaceFields hm ho (hi.2.insert hl ha.2.1 ha.2.2)
    rwa [hread, ← hfields] at hafter
  | @setNoInstance receiver name v hno =>
    cases receiver with
    | inst i => exact absurd rfl (hno i)
    | nil | bool b | num n | str s | cls k => exact hc
  | display _ => exact hc
  | collect hcleared => exact hc.cleared hm hcleared
  | reset hcleared =>
    have hempty : Sound { m with stack := [], globals := ∅ } :=
      (hm.withGlobals .empty Heap.validTable_empty).withStack fun v hv => absurd hv List.not_mem_nil
    have hnone : { m with globals := ∅ }.Confirms { c with globals := ∅ } :=
      hc.withGlobals Heap.reading_empty.symm
    exact (hnone.withStack []).cleared hempty hcleared

/-- **Every machine confirms its chronicle.** -/
theorem Chronicled.confirms {policy : Policy} (hc : m.Chronicled policy c) : m.Confirms c := by
  induction hc with
  | new => exact confirms_new policy
  | handle hprev ha hok ih =>
    have hm := hprev.arises.sound
    exact ih.step hm ha (hm.step_of_handle ha hok)

end Machine

end ObjectHeap
