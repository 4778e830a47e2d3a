import ObjectHeap.Proofs.Machine.Chronicle

/-!
# Classes and instances are maps from texts

A class has methods and an instance has fields, and a program sees of both a map from texts. The
property of an instance is its field of that name, or else the method that its class has now
(`Machine.Chronicled.tellsProperties`).

Inheritance copies. A class gets the methods that the superclass has at that moment, over its own of
the same name, and from then on the two have nothing to do with each other: the methods of a class
change only by requests that are made of this class (`Chronicle.methods_next`).
-/

set_option autoImplicit false

namespace ObjectHeap

/-- A class has its own methods after it has inherited from itself. -/
theorem Chronicle.withMethods_self (c : Chronicle) (cls : Ref .cls) :
    c.withMethods cls (c.methods cls ∪ c.methods cls) = c := by
  have hunion : c.methods cls ∪ c.methods cls = c.methods cls := by
    refine Finmap.ext_lookup fun name => ?_
    rw [Mapping.lookup_union, Option.or_self]
  rw [withMethods, hunion, Function.update_eq_self]

/-- The request is to give this class a method, or to let it inherit. -/
def Request.ChangesClass (cls : Ref .cls) : Request → Prop
  | .defineMethod k _ _ | .inherit _ k => k = cls
  | _ => False

/-- The methods of a class change only by requests that are made of it, unless it is new. -/
theorem Chronicle.methods_next {c : Chronicle} {text : Symbol → String} {cls : Ref .cls}
    {request : Request} {reply : Reply} (hrequest : ¬request.ChangesClass cls)
    (hreply : reply ≠ .cls cls) : (c.next text request reply).methods cls = c.methods cls := by
  have hother : ∀ k methods, k ≠ cls → (c.withMethods k methods).methods cls = c.methods cls :=
    fun k methods hne => Function.update_of_ne hne.symm _ _
  cases request with
  | newClass name =>
    cases reply with
    | cls k => exact hother k _ fun heq => hreply (heq ▸ rfl)
    | _ => rfl
  | newInstance k => cases reply <;> rfl
  | defineMethod k name method => exact hother k _ hrequest
  | inherit super k =>
    cases super with
    | cls s => exact hother k _ hrequest
    | nil | bool b | num n | str s | inst i => rfl
  | setGlobal name v => cases reply <;> rfl
  | setProperty receiver name v => cases receiver <;> rfl
  | _ => rfl

namespace Machine

variable {m : Machine} {c : Chronicle} {policy : Policy}

/-! ## What is answered -/

theorem Confirms.lookup_methods (hc : m.Confirms c) (hm : m.Sound) {cls : Ref .cls} {k : Class}
    (ho : m.heap.object? cls.slot = some (.cls k)) {name : Symbol} {text : String}
    (hv : m.heap.ValidSymbol name) (htext : m.heap.textOf name = .ok text) :
    (c.methods cls).lookup text = k.methods.get? name := by
  have hmethods : c.methods cls = m.heap.reading k.methods := hc.objects _ _ ho
  rw [hmethods]
  exact Heap.lookup_reading hm.distinctTexts (hm.heap.layout_methods ho)
    (hm.closed.heap _ _ ho).2 hv htext

theorem Confirms.lookup_fields (hc : m.Confirms c) (hm : m.Sound) {i : Ref .inst} {inst : Instance}
    (ho : m.heap.object? i.slot = some (.inst inst)) {name : Symbol} {text : String}
    (hv : m.heap.ValidSymbol name) (htext : m.heap.textOf name = .ok text) :
    (c.fields i).lookup text = inst.fields.get? name := by
  have hfields : c.fields i = m.heap.reading inst.fields := (hc.objects _ _ ho).2
  rw [hfields]
  exact Heap.lookup_reading hm.distinctTexts (hm.heap.layout_fields ho)
    (hm.closed.heap _ _ ho).2 hv htext

/-- The property is the field, or else the method of the class that the instance is of. -/
theorem Confirms.property_eq (hc : m.Confirms c) (hm : m.Sound) {i : Ref .inst} {inst : Instance}
    {k : Class} (hoi : m.heap.object? i.slot = some (.inst inst))
    (hok : m.heap.object? inst.cls.slot = some (.cls k)) {name : Symbol} {text : String}
    (hv : m.heap.ValidSymbol name) (htext : m.heap.textOf name = .ok text) :
    c.property i text = (inst.fields.get? name).or (k.methods.get? name) := by
  have hclass : c.classOf i = some inst.cls := (hc.objects _ _ hoi).1
  rw [Chronicle.property, hclass, Option.bind_some, hc.lookup_fields hm hoi hv htext,
    hc.lookup_methods hm hok hv htext]

theorem Confirms.getProperty (hc : m.Confirms c) (hm : m.Sound) {i : Ref .inst}
    (hi : m.heap.Valid i) {name : Symbol} {text : String} (hv : m.heap.ValidSymbol name)
    (htext : m.heap.textOf name = .ok text) : (m.handle (.getProperty (.inst i) name)).result =
      .ok (m, .foundOr (.undefinedProperty text) (c.property i text)) := by
  obtain ⟨inst, hoi⟩ := hi
  obtain ⟨k, hok⟩ := (hm.closed.heap _ _ hoi).1
  have hproperty := hc.property_eq hm hoi hok hv htext
  have hreceiver : m.heap.ValidValue (.inst i) := ⟨inst, hoi⟩
  obtain ⟨after, reply, hanswer, hstep⟩ := hm.takes_getProperty hreceiver hv
  rw [hanswer, hproperty]
  cases hstep with
  | getField hoi' hfield =>
    cases hoi.symm.trans hoi'
    rw [hfield]
    rfl
  | getMethod hoi' hfield hok' hmethod =>
    cases hoi.symm.trans hoi'
    cases hok.symm.trans hok'
    rw [hfield, hmethod]
    rfl
  | getUnknown hoi' hfield hok' hmethod hspells =>
    cases hoi.symm.trans hoi'
    cases hok.symm.trans hok'
    obtain rfl := Except.ok.inj (hspells.textOf.symm.trans htext)
    rw [hfield, hmethod]
    rfl
  | getNoInstance _ hno => exact absurd rfl (hno i)

/-! ## All machines -/

/-- All that can be seen of classes and instances is what the chronicle says of them. -/
structure TellsProperties (policy : Policy) (m : Machine) (c : Chronicle) : Prop where
  named : ∀ name, m.heap.ValidSymbol name → ∃ text, m.heap.textOf name = .ok text
  get : ∀ i name text, m.heap.Valid i → m.heap.ValidSymbol name → m.heap.textOf name = .ok text →
    (m.handle (.getProperty (.inst i) name)).result =
      .ok (m, .foundOr (.undefinedProperty text) (c.property i text))
  set : ∀ i name text v, m.heap.Valid i → m.heap.ValidSymbol name →
    m.heap.textOf name = .ok text → m.heap.ValidValue v →
    ∃ after, (m.handle (.setProperty (.inst i) name v)).result = .ok (after, .done) ∧
      after.Chronicled policy (c.withFields i ((c.fields i).insert text v))
  define : ∀ cls name text method, m.heap.Valid cls → m.heap.ValidSymbol name →
    m.heap.textOf name = .ok text → m.heap.ValidValue method →
    ∃ after, (m.handle (.defineMethod cls name method)).result = .ok (after, .done) ∧
      after.Chronicled policy (c.withMethods cls ((c.methods cls).insert text method))
  inherit : ∀ super cls, m.heap.Valid super → m.heap.Valid cls →
    ∃ after, (m.handle (.inherit (.cls super) cls)).result = .ok (after, .done) ∧
      after.Chronicled policy (c.withMethods cls (c.methods super ∪ c.methods cls))
  inherit_self : ∀ cls, m.heap.Valid cls →
    ∃ after, (m.handle (.inherit (.cls cls) cls)).result = .ok (after, .done) ∧
      after.Chronicled policy c
  /-- Requests that are made of other classes do not show in a class. -/
  independent : ∀ request after reply, m.Accepts request →
    (m.handle request).result = .ok (after, reply) →
    ∃ c', after.Chronicled policy c' ∧ ∀ cls, ¬request.ChangesClass cls → reply ≠ .cls cls →
      c'.methods cls = c.methods cls
  get_refused : ∀ receiver name, (∀ i, receiver ≠ .inst i) →
    (m.handle (.getProperty receiver name)).result = .ok (m, .refused .notAnInstance)
  set_refused : ∀ receiver name v, (∀ i, receiver ≠ .inst i) →
    (m.handle (.setProperty receiver name v)).result = .ok (m, .refused .noFields)
  inherit_refused : ∀ super cls, (∀ s, super ≠ .cls s) →
    (m.handle (.inherit super cls)).result = .ok (m, .refused .invalidSuperclass)

theorem Chronicled.setProperty (hc : m.Chronicled policy c) {i : Ref .inst} (hi : m.heap.Valid i)
    {name : Symbol} {text : String} (hv : m.heap.ValidSymbol name)
    (htext : m.heap.textOf name = .ok text) {v : Value} (hvalue : m.heap.ValidValue v) :
    ∃ after, (m.handle (.setProperty (.inst i) name v)).result = .ok (after, .done) ∧
      after.Chronicled policy (c.withFields i ((c.fields i).insert text v)) := by
  have hreceiver : m.heap.ValidValue (.inst i) := hi
  have ha : m.Accepts (.setProperty (.inst i) name v) := ⟨hreceiver, hv, hvalue⟩
  obtain ⟨after, reply, hok, hstep⟩ := takes_setProperty hreceiver name v
  obtain rfl : reply = .done := by
    cases hstep with
    | setField _ _ _ => rfl
    | setNoInstance _ _ hno => exact absurd rfl (hno i)
  have hafter := hc.handle ha hok
  rw [Chronicle.next, Heap.textOrEmpty_eq htext] at hafter
  exact ⟨after, hok, hafter⟩

theorem Chronicled.defineMethod (hc : m.Chronicled policy c) {cls : Ref .cls}
    (hcls : m.heap.Valid cls) {name : Symbol} {text : String} (hv : m.heap.ValidSymbol name)
    (htext : m.heap.textOf name = .ok text) {method : Value} (hvalue : m.heap.ValidValue method) :
    ∃ after, (m.handle (.defineMethod cls name method)).result = .ok (after, .done) ∧
      after.Chronicled policy (c.withMethods cls ((c.methods cls).insert text method)) := by
  have ha : m.Accepts (.defineMethod cls name method) := ⟨hcls, hv, hvalue⟩
  obtain ⟨after, reply, hok, hstep⟩ := takes_defineMethod hcls name method
  obtain rfl : reply = .done := by
    cases hstep
    rfl
  have hafter := hc.handle ha hok
  rw [Chronicle.next, Heap.textOrEmpty_eq htext] at hafter
  exact ⟨after, hok, hafter⟩

theorem Chronicled.inherit (hc : m.Chronicled policy c) {super cls : Ref .cls}
    (hsuper : m.heap.Valid super) (hcls : m.heap.Valid cls) :
    ∃ after, (m.handle (.inherit (.cls super) cls)).result = .ok (after, .done) ∧
      after.Chronicled policy (c.withMethods cls (c.methods super ∪ c.methods cls)) := by
  have hvalue : m.heap.ValidValue (.cls super) := hsuper
  have ha : m.Accepts (.inherit (.cls super) cls) := ⟨hvalue, hcls⟩
  obtain ⟨after, reply, hok, hstep⟩ := takes_inherit hvalue hcls
  obtain rfl : reply = .done := by
    cases hstep with
    | inherit _ _ => rfl
    | inheritNoClass _ hno => exact absurd rfl (hno super)
  exact ⟨after, hok, hc.handle ha hok⟩

/-- **Classes and instances are maps from texts.** -/
theorem Chronicled.tellsProperties (hc : m.Chronicled policy c) : m.TellsProperties policy c where
  named _ hv := hv.textOf
  get _ _ _ hi hv htext := hc.confirms.getProperty hc.arises.sound hi hv htext
  set _ _ _ _ hi hv htext hvalue := hc.setProperty hi hv htext hvalue
  define _ _ _ _ hcls hv htext hvalue := hc.defineMethod hcls hv htext hvalue
  inherit _ _ hsuper hcls := hc.inherit hsuper hcls
  inherit_self cls hcls := by
    obtain ⟨after, hok, hafter⟩ := hc.inherit hcls hcls
    rw [c.withMethods_self] at hafter
    exact ⟨after, hok, hafter⟩
  independent _ _ _ ha hok :=
    ⟨_, hc.handle ha hok, fun _ hrequest hreply => Chronicle.methods_next hrequest hreply⟩
  get_refused _ name hno := getProperty_refused hno name
  set_refused _ name v hno := setProperty_refused hno name v
  inherit_refused _ cls hno := inherit_refused hno cls

/-- A method that its class is given is a property of an instance. -/
theorem tellsProperties_pair : ∃ after,
    (handle { heap := Heap.pair } (.defineMethod ⟨1⟩ Heap.ringName .nil)).result =
      .ok (after, .done) ∧
    (after.handle (.getProperty (.inst ⟨2⟩) Heap.ringName)).result = .ok (after, .found .nil) := by
  obtain ⟨c, hc⟩ := arises_pair.exists_chronicled
  obtain ⟨hclass, hfields⟩ : c.classOf ⟨2⟩ = some ⟨1⟩ ∧ c.fields ⟨2⟩ = ∅ :=
    hc.confirms.objects 2 (.inst { cls := ⟨1⟩ }) (by decide +kernel)
  let methods := ((∅ : Table).insert Heap.ringName .nil).1
  have hdone : (handle { heap := Heap.pair } (.defineMethod ⟨1⟩ Heap.ringName .nil)).result =
      .ok ({ heap := Heap.pair.replace (k := .cls) ⟨1⟩ { name := Heap.ringName, methods } },
        .done) := by
    decide +kernel
  obtain ⟨after, hok, hafter⟩ := (Chronicled.tellsProperties hc).define ⟨1⟩ Heap.ringName "A" .nil
    ⟨{ name := Heap.ringName }, rfl⟩ ⟨.ofText "A" 0, rfl, rfl⟩ rfl trivial
  have hproperty :
      (c.withMethods ⟨1⟩ ((c.methods ⟨1⟩).insert "A" .nil)).property ⟨2⟩ "A" = some .nil := by
    show ((c.fields ⟨2⟩).lookup "A").or ((c.classOf ⟨2⟩).bind _) = some .nil
    rw [hfields, hclass, Finmap.lookup_empty, Option.none_or, Option.bind_some]
    simp only [Chronicle.withMethods, Function.update_self, Finmap.lookup_insert]
  refine ⟨after, hok, ?_⟩
  rw [hdone] at hok
  cases hok
  rw [(Chronicled.tellsProperties hafter).get ⟨2⟩ Heap.ringName "A" ⟨{ cls := ⟨1⟩ }, rfl⟩
    ⟨.ofText "A" 0, rfl, rfl⟩ rfl, hproperty]
  rfl

end Machine

end ObjectHeap
