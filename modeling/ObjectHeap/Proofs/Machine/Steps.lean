import ObjectHeap.Proofs.Machine.Clearing

/-!
# What a request does

`Step` says what a request does to a machine and what is replied, with one constructor for each way
it can end. Everything else about requests is read off it: a property of all machines is proved by
going through the constructors once.

That every request with valid operands takes such a step, or overflows the threshold of a collection
on the way, is `Sound.handle_cases`. So nothing that a caller with valid operands can do makes a
machine follow a dangling reference.
-/

set_option autoImplicit false

namespace ObjectHeap

namespace Machine

variable {m : Machine}

/-- What requests do. The slots that are released on the way are among those listed. -/
inductive Step (m : Machine) (released : List Nat) : Request → Machine → Reply → Prop
  | push (v : Value) : Step m released (.push v) (m.push v) .done
  | pop : Step m released .pop m.pop.1 (.top m.pop.2)
  | peek (distance : Nat) : Step m released (.peek distance) m (.top (m.peek distance))
  | internOld {text : String} {key : Symbol} : m.heap.Spells key text →
    Step m released (.intern text) m (.symbol key)
  /-- The text is not interned before the collection, hence not after it. -/
  | internNew {text : String} {roomy : Machine} : m.heap.find? text = .ok none →
    roomy.heap.find? text = .ok none → m.Cleared released roomy →
    Step m released (.intern text)
      { roomy with heap := (roomy.heap.withString (.ofText text 0)).1 }
      (.symbol (roomy.heap.withString (.ofText text 0)).2)
  | concatenate {a b : Symbol} {first second : String} {after : Machine} {reply : Reply} :
    m.heap.Spells a first → m.heap.Spells b second →
    Step m released (.intern (first ++ second)) after reply →
    Step m released (.concatenate a b) after reply
  | defineGlobal (name : Symbol) (v : Value) : Step m released (.defineGlobal name v)
      { m with globals := (m.globals.insert name v).1 } .done
  | getGlobal {name : Symbol} {v : Value} : m.globals.get? name = some v →
    Step m released (.getGlobal name) m (.found v)
  | getUndefined {name : Symbol} {text : String} : m.globals.get? name = none →
    m.heap.Spells name text →
    Step m released (.getGlobal name) m (.refused (.undefinedVariable text))
  | setGlobal {name : Symbol} {old : Value} (v : Value) : m.globals.get? name = some old →
    Step m released (.setGlobal name v) { m with globals := (m.globals.insert name v).1 } .done
  | setUndefined {name : Symbol} {text : String} (v : Value) : m.globals.get? name = none →
    m.heap.Spells name text → Step m released (.setGlobal name v)
      { m with globals := ((m.globals.insert name v).1.erase name).1 }
      (.refused (.undefinedVariable text))
  | globalNames : Step m released .globalNames m (.names
      ((m.globals.entries.map fun e => m.heap.textOrEmpty e.1).mergeSort fun a b => a ≤ b))
  | newClass {name : Symbol} {roomy : Machine} : (m.push (.str name)).Cleared released roomy →
    Step m released (.newClass name)
      { roomy with heap := (roomy.heap.place (.cls { name })).1, stack := m.stack }
      (.cls ⟨(roomy.heap.place (.cls { name })).2⟩)
  | newInstance {cls : Ref .cls} {roomy : Machine} : (m.push (.cls cls)).Cleared released roomy →
    Step m released (.newInstance cls)
      { roomy with heap := (roomy.heap.place (.inst { cls })).1, stack := m.stack }
      (.inst ⟨(roomy.heap.place (.inst { cls })).2⟩)
  | defineMethod {cls : Ref .cls} {c : Class} (name : Symbol) (method : Value) :
    m.heap.object? cls.slot = some (.cls c) → Step m released (.defineMethod cls name method)
      { m with heap := m.heap.replace cls { c with methods := (c.methods.insert name method).1 } }
      .done
  | inherit {super cls : Ref .cls} {s c : Class} : m.heap.object? super.slot = some (.cls s) →
    m.heap.object? cls.slot = some (.cls c) → Step m released (.inherit (.cls super) cls)
      { m with heap := m.heap.replace cls { c with methods := c.methods.merge s.methods } } .done
  | inheritNoClass {super : Value} (cls : Ref .cls) : (∀ c, super ≠ .cls c) →
    Step m released (.inherit super cls) m (.refused .invalidSuperclass)
  | getField {i : Ref .inst} {name : Symbol} {inst : Instance} {v : Value} :
    m.heap.object? i.slot = some (.inst inst) → inst.fields.get? name = some v →
    Step m released (.getProperty (.inst i) name) m (.found v)
  | getMethod {i : Ref .inst} {name : Symbol} {inst : Instance} {c : Class} {v : Value} :
    m.heap.object? i.slot = some (.inst inst) → inst.fields.get? name = none →
    m.heap.object? inst.cls.slot = some (.cls c) → c.methods.get? name = some v →
    Step m released (.getProperty (.inst i) name) m (.found v)
  | getUnknown {i : Ref .inst} {name : Symbol} {inst : Instance} {c : Class} {text : String} :
    m.heap.object? i.slot = some (.inst inst) → inst.fields.get? name = none →
    m.heap.object? inst.cls.slot = some (.cls c) → c.methods.get? name = none →
    m.heap.Spells name text →
    Step m released (.getProperty (.inst i) name) m (.refused (.undefinedProperty text))
  | getNoInstance {receiver : Value} (name : Symbol) : (∀ i, receiver ≠ .inst i) →
    Step m released (.getProperty receiver name) m (.refused .notAnInstance)
  | setField {i : Ref .inst} {inst : Instance} (name : Symbol) (v : Value) :
    m.heap.object? i.slot = some (.inst inst) → Step m released (.setProperty (.inst i) name v)
      { m with heap := m.heap.replace i { inst with fields := (inst.fields.insert name v).1 } }
      .done
  | setNoInstance {receiver : Value} (name : Symbol) (v : Value) : (∀ i, receiver ≠ .inst i) →
    Step m released (.setProperty receiver name v) m (.refused .noFields)
  | display {v : Value} {text : String} : m.heap.display v = .ok text →
    Step m released (.display v) m (.text text)
  | collect {after : Machine} : m.Cleared released after → Step m released .collect after .done
  | reset {after : Machine} : Cleared { m with stack := [], globals := ∅ } released after →
    Step m released .reset after .done

/-! ## Every request takes a step -/

/-- A request is answered, and what it does is a step. -/
def Takes (m : Machine) (request : Request) : Prop :=
  ∃ after reply, (m.handle request).result = .ok (after, reply) ∧
    m.Step (m.handle request).releases request after reply

/-- A request overflows the threshold of a collection or takes a step. -/
def Answers (m : Machine) (request : Request) : Prop :=
  (m.handle request).result = .error .thresholdOverflow ∨
  ∃ after reply, (m.handle request).result = .ok (after, reply) ∧
    m.Step (m.handle request).releases request after reply

theorem Cleared.mono {after : Machine} {released more : List Nat} (hc : m.Cleared released after)
    (hsub : ∀ slot ∈ released, slot ∈ more) : m.Cleared more after :=
  { hc with unreleased := fun slot ho hr => hc.unreleased slot ho fun hmem => hr (hsub slot hmem) }

/-- What is not interned before a collection is not interned after it. -/
theorem Sound.find?_cleared (hm : m.Sound) {released : List Nat} {roomy : Machine}
    (hc : m.Cleared released roomy) {text : String} (hnone : m.heap.find? text = .ok none) :
    roomy.heap.find? text = .ok none := by
  rw [(hm.cleared hc).canonical.find?_eq_none_iff hc.heap]
  rw [hm.canonical.find?_eq_none_iff hm.heap] at hnone
  intro key hkey hspells
  have ho := hc.canonical.occupied hkey
  have hold : m.heap.Spells key text := hspells.congr (hc.object?_eq _ ho).symm
  exact hnone key (hm.interned_of_valid hold.validSymbol) hold

theorem intern_of_some {text : String} {key : Symbol} (hfind : m.heap.find? text = .ok (some key)) :
    (m.intern text).result = .ok (m, key) := by
  rw [intern, Outcome.result_bind, Outcome.result_liftM, hfind]
  rfl

theorem intern_of_none {text : String} (hfind : m.heap.find? text = .ok none) :
    (m.intern text).result = m.makeRoom.result >>= fun roomy =>
      (roomy.heap.intern text).result >>= fun x => .ok ({ roomy with heap := x.1 }, x.2) := by
  rw [intern, Outcome.result_bind, Outcome.result_liftM, hfind]
  refine (Outcome.result_bind m.makeRoom _).trans (congrArg _ (funext ?_))
  intro roomy
  exact Outcome.result_bind (roomy.heap.intern text) _

theorem Sound.intern_cases (hm : m.Sound) (text : String) :
    (m.intern text).result = .error .thresholdOverflow ∨
    ∃ after key, (m.intern text).result = .ok (after, key) ∧
      m.Step (m.intern text).releases (.intern text) after (.symbol key) := by
  obtain ⟨found, hfind, hfound⟩ := hm.canonical.find?_eq hm.heap text
  cases found with
  | some key => exact .inr ⟨m, key, intern_of_some hfind, .internOld ((hfound key).1 rfl).2⟩
  | none =>
    rw [intern_of_none hfind]
    have hsub : ∀ slot ∈ m.makeRoom.releases, slot ∈ (m.intern text).releases := by
      intro slot hslot
      refine Outcome.mem_releases_bind.2 (.inr ⟨none, hfind, ?_⟩)
      exact Outcome.mem_releases_bind.2 (.inl hslot)
    rcases hm.makeRoom_cases with hfault | ⟨roomy, hroomy, hc⟩
    · exact .inl (by rw [hfault]; rfl)
    · have hnone := hm.find?_cleared hc hfind
      refine .inr ⟨_, _, ?_, .internNew hfind hnone (hc.mono hsub)⟩
      rw [hroomy]
      simp only [bind, Except.bind, Heap.intern, Heap.internReserving_result, hnone]
      rfl

theorem allocateHolding_result (m : Machine) (operand : Value) (k : Kind) (p : k.Payload) :
    (m.allocateHolding operand k p).result = (m.push operand).makeRoom.result >>= fun roomy =>
      .ok ({ roomy with
        heap := (roomy.heap.place (.of k p)).1
        stack := roomy.stack.tail }, ⟨(roomy.heap.place (.of k p)).2⟩) :=
  Outcome.result_bind (m.push operand).makeRoom _

/-- Allocating on behalf of an operand makes room while the operand is on the stack. -/
theorem Sound.allocateHolding_cases (hm : m.Sound) (operand : Value)
    (hv : m.heap.ValidValue operand) (k : Kind) (p : k.Payload) :
    (m.allocateHolding operand k p).result = .error .thresholdOverflow ∨
    ∃ roomy, (m.push operand).Cleared (m.allocateHolding operand k p).releases roomy ∧
      (m.allocateHolding operand k p).result = .ok
        ({ roomy with heap := (roomy.heap.place (.of k p)).1, stack := m.stack },
          ⟨(roomy.heap.place (.of k p)).2⟩) := by
  have hsub : ∀ slot ∈ (m.push operand).makeRoom.releases,
      slot ∈ (m.allocateHolding operand k p).releases :=
    fun slot hslot => Outcome.mem_releases_bind.2 (.inl hslot)
  rw [allocateHolding_result]
  rcases (hm.push hv).makeRoom_cases with hfault | ⟨roomy, hroomy, hc⟩
  · exact .inl (by rw [hfault]; rfl)
  · refine .inr ⟨roomy, hc.mono hsub, ?_⟩
    rw [hroomy, ← show roomy.stack.tail = m.stack by rw [hc.stack_eq]; rfl]
    rfl

/-! ### Requests that may collect -/

/-- A request that amounts to one operation is answered if the operation does not fail otherwise
than by an overflow. -/
theorem answers_of {α : Type} {request : Request} {operation : Outcome α} {f : α → Machine × Reply}
    (hhandle : m.handle request = operation >>= fun x => pure (f x))
    (hcases : operation.result = .error .thresholdOverflow ∨
      ∃ x, operation.result = .ok x ∧ m.Step operation.releases request (f x).1 (f x).2) :
    m.Answers request := by
  have hreleases : (m.handle request).releases = operation.releases := by
    rw [hhandle, Outcome.releases_bind_pure]
  rw [Answers, hreleases, hhandle, Outcome.result_bind]
  rcases hcases with hfault | ⟨x, hok, hstep⟩
  · exact .inl (by rw [hfault]; rfl)
  · exact .inr ⟨_, _, by rw [hok]; rfl, hstep⟩

theorem Sound.answers_intern (hm : m.Sound) (text : String) : m.Answers (.intern text) := by
  refine answers_of (f := fun x : Machine × Symbol => (x.1, .symbol x.2)) rfl ?_
  rcases hm.intern_cases text with hfault | ⟨after, key, hok, hstep⟩
  · exact .inl hfault
  · exact .inr ⟨_, hok, hstep⟩

/-- To concatenate is to intern the joined texts. -/
theorem concatenate_eq {a b : Symbol} {first second : String} (ha : m.heap.Spells a first)
    (hb : m.heap.Spells b second) : m.concatenate a b = m.intern (first ++ second) := by
  rw [concatenate_eq_bind, Outcome.bind_of_ok ha.textOf, Outcome.bind_of_ok hb.textOf]

theorem Sound.answers_concatenate (hm : m.Sound) {a b : Symbol} (ha : m.heap.ValidSymbol a)
    (hb : m.heap.ValidSymbol b) : m.Answers (.concatenate a b) := by
  obtain ⟨first, hfirst⟩ := hm.spells_of_valid ha
  obtain ⟨second, hsecond⟩ := hm.spells_of_valid hb
  have hhandle : m.handle (.concatenate a b) = m.handle (.intern (first ++ second)) := by
    simp only [handle, concatenate_eq hfirst hsecond]
  rw [Answers, hhandle]
  rcases hm.answers_intern (first ++ second) with hfault | ⟨after, reply, hok, hstep⟩
  · exact .inl hfault
  · exact .inr ⟨after, reply, hok, .concatenate hfirst hsecond hstep⟩

theorem Sound.answers_newClass (hm : m.Sound) {name : Symbol} (hv : m.heap.ValidSymbol name) :
    m.Answers (.newClass name) := by
  refine answers_of (f := fun x : Machine × Ref .cls => (x.1, .cls x.2)) rfl ?_
  rcases hm.allocateHolding_cases (.str name) hv .cls { name } with hfault | ⟨roomy, hc, hok⟩
  · exact .inl hfault
  · exact .inr ⟨_, hok, .newClass hc⟩

theorem Sound.answers_newInstance (hm : m.Sound) {cls : Ref .cls} (hv : m.heap.Valid cls) :
    m.Answers (.newInstance cls) := by
  refine answers_of (f := fun x : Machine × Ref .inst => (x.1, .inst x.2)) rfl ?_
  rcases hm.allocateHolding_cases (.cls cls) hv .inst { cls } with hfault | ⟨roomy, hc, hok⟩
  · exact .inl hfault
  · exact .inr ⟨_, hok, .newInstance hc⟩

theorem Sound.answers_collect (hm : m.Sound) : m.Answers .collect := by
  refine answers_of (f := fun after => (after, .done)) rfl ?_
  cases hc : m.collect.result with
  | error f => rw [of_collect_eq_error hc]; exact .inl rfl
  | ok after => exact .inr ⟨after, rfl, .collect (hm.collect_cleared hc)⟩

theorem Sound.answers_reset (hm : m.Sound) : m.Answers .reset := by
  have hempty : Sound { m with stack := [], globals := ∅ } :=
    (hm.withGlobals .empty Heap.validTable_empty).withStack fun v hv => absurd hv List.not_mem_nil
  have hsub : ∀ slot ∈ (collect { m with stack := [], globals := ∅ }).releases,
      slot ∈ m.reset.releases :=
    fun slot hslot => Outcome.mem_releases_bind.2 (.inr ⟨(), rfl, hslot⟩)
  have hresult : m.reset.result = (collect { m with stack := [], globals := ∅ }).result :=
    Outcome.result_bind _ _
  refine answers_of (f := fun after => (after, .done)) rfl ?_
  rw [hresult]
  cases hc : (collect { m with stack := [], globals := ∅ }).result with
  | error f => rw [of_collect_eq_error hc]; exact .inl rfl
  | ok after => exact .inr ⟨after, rfl, .reset ((hempty.collect_cleared hc).mono hsub)⟩

/-! ### Requests about globals -/

theorem Sound.takes_getGlobal (hm : m.Sound) {name : Symbol} (hv : m.heap.ValidSymbol name) :
    m.Takes (.getGlobal name) := by
  simp only [Takes, handle, Outcome.result_bind, Outcome.result_liftM, Outcome.result_pure,
    getGlobal]
  cases hget : m.globals.get? name with
  | some v => exact ⟨m, .found v, rfl, .getGlobal hget⟩
  | none =>
    obtain ⟨text, hspells⟩ := hm.spells_of_valid hv
    exact ⟨m, .refused (.undefinedVariable text), by rw [hspells.textOf]; rfl,
      .getUndefined hget hspells⟩

theorem Sound.takes_setGlobal (hm : m.Sound) {name : Symbol} (hv : m.heap.ValidSymbol name)
    (v : Value) : m.Takes (.setGlobal name v) := by
  have hnew : (m.globals.insert name v).2 = true ↔ m.globals.get? name = none :=
    Table.insert_isNew_iff hm.globals.layout
  simp only [Takes, handle, Outcome.result_bind, setGlobal, Outcome.result_report]
  cases hget : m.globals.get? name with
  | some old =>
    have hisNew : ¬(m.globals.insert name v).2 = true := by rw [hnew, hget]; exact nofun
    exact ⟨_, .done, by rw [if_neg hisNew]; rfl, .setGlobal v hget⟩
  | none =>
    obtain ⟨text, hspells⟩ := hm.spells_of_valid hv
    refine ⟨_, .refused (.undefinedVariable text), ?_, .setUndefined v hget hspells⟩
    rw [if_pos (hnew.2 hget), Outcome.result_bind, Outcome.result_liftM, hspells.textOf]
    rfl

theorem mapM_textOf {h : Heap} {entries : List (Symbol × Value)}
    (hs : ∀ e ∈ entries, ∃ text, h.Spells e.1 text) :
    (entries.mapM fun (name, _) => h.textOf name) =
      .ok (entries.map fun e => h.textOrEmpty e.1) := by
  induction entries with
  | nil => rfl
  | cons e rest ih =>
    obtain ⟨text, hspells⟩ := hs e List.mem_cons_self
    have htext : (match e with | (name, _) => h.textOf name) = .ok (h.textOrEmpty e.1) := by
      rw [hspells.textOrEmpty]
      exact hspells.textOf
    rw [List.mapM_cons, ih fun e he => hs e (List.mem_cons_of_mem _ he), htext]
    rfl

theorem Sound.takes_globalNames (hm : m.Sound) : m.Takes .globalNames := by
  refine ⟨m, _, ?_, .globalNames⟩
  have hnames := mapM_textOf fun e he => hm.spells_of_valid (hm.closed.globals e he).1
  simp only [handle, Outcome.result_bind, Outcome.result_liftM, Outcome.result_pure, globalNames,
    hnames]
  rfl

/-! ### Requests about classes and instances -/

theorem takes_defineMethod {cls : Ref .cls} (hv : m.heap.Valid cls) (name : Symbol)
    (method : Value) : m.Takes (.defineMethod cls name method) := by
  obtain ⟨c, hderef, ho⟩ := hv.deref (by decide)
  refine ⟨_, .done, ?_, .defineMethod name method ho⟩
  simp only [handle, defineMethod, Outcome.result_bind, Outcome.result_liftM,
    Heap.access_of_deref hderef]
  rfl

theorem inherit_refused {super : Value} (hno : ∀ c, super ≠ .cls c) (cls : Ref .cls) :
    (m.handle (.inherit super cls)).result = .ok (m, .refused .invalidSuperclass) := by
  cases super with
  | cls c => exact absurd rfl (hno c)
  | nil | bool b | num n | str s | inst i => rfl

theorem takes_inherit {super : Value} {cls : Ref .cls} (hs : m.heap.ValidValue super)
    (hv : m.heap.Valid cls) : m.Takes (.inherit super cls) := by
  by_cases hclass : ∃ c, super = .cls c
  · obtain ⟨super, rfl⟩ := hclass
    obtain ⟨s, hsuper, hos⟩ := Heap.Valid.deref hs (by decide)
    obtain ⟨c, hcls, hoc⟩ := hv.deref (by decide)
    refine ⟨_, .done, ?_, .inherit hos hoc⟩
    simp only [handle, inherit, Outcome.result_bind, Outcome.result_liftM, hsuper,
      Heap.access_of_deref hcls]
    rfl
  · have hno : ∀ c, super ≠ .cls c := fun c heq => hclass ⟨c, heq⟩
    exact ⟨m, .refused .invalidSuperclass, inherit_refused hno cls, .inheritNoClass cls hno⟩

theorem getProperty_refused {receiver : Value} (hno : ∀ i, receiver ≠ .inst i) (name : Symbol) :
    (m.handle (.getProperty receiver name)).result = .ok (m, .refused .notAnInstance) := by
  cases receiver with
  | inst i => exact absurd rfl (hno i)
  | nil | bool b | num n | str s | cls c => rfl

theorem Sound.takes_getProperty (hm : m.Sound) {receiver : Value} {name : Symbol}
    (hr : m.heap.ValidValue receiver) (hv : m.heap.ValidSymbol name) :
    m.Takes (.getProperty receiver name) := by
  by_cases hinstance : ∃ i, receiver = .inst i
  · obtain ⟨i, rfl⟩ := hinstance
    obtain ⟨inst, hi, hoi⟩ := Heap.Valid.deref hr (by decide)
    obtain ⟨c, hcls, hoc⟩ := (hm.closed.heap _ _ hoi).1.deref (by decide)
    obtain ⟨text, hspells⟩ := hm.spells_of_valid hv
    simp only [Takes, handle, Outcome.result_bind, Outcome.result_liftM, Outcome.result_pure,
      getProperty, hi]
    cases hfield : inst.fields.get? name with
    | some v => exact ⟨m, .found v, by simp only [bind, Except.bind, hfield]; rfl,
        .getField hoi hfield⟩
    | none =>
      cases hmethod : c.methods.get? name with
      | some v => exact ⟨m, .found v, by simp only [bind, Except.bind, hfield, hcls, hmethod]; rfl,
          .getMethod hoi hfield hoc hmethod⟩
      | none =>
        refine ⟨m, .refused (.undefinedProperty text), ?_,
          .getUnknown hoi hfield hoc hmethod hspells⟩
        simp only [bind, Except.bind, hfield, hcls, hmethod, hspells.textOf]
        rfl
  · have hno : ∀ i, receiver ≠ .inst i := fun i heq => hinstance ⟨i, heq⟩
    exact ⟨m, .refused .notAnInstance, getProperty_refused hno name, .getNoInstance name hno⟩

theorem setProperty_refused {receiver : Value} (hno : ∀ i, receiver ≠ .inst i) (name : Symbol)
    (v : Value) : (m.handle (.setProperty receiver name v)).result = .ok (m, .refused .noFields) := by
  cases receiver with
  | inst i => exact absurd rfl (hno i)
  | nil | bool b | num n | str s | cls c => rfl

theorem takes_setProperty {receiver : Value} (hr : m.heap.ValidValue receiver) (name : Symbol)
    (v : Value) : m.Takes (.setProperty receiver name v) := by
  by_cases hinstance : ∃ i, receiver = .inst i
  · obtain ⟨i, rfl⟩ := hinstance
    obtain ⟨inst, hi, ho⟩ := Heap.Valid.deref hr (by decide)
    refine ⟨_, .done, ?_, .setField name v ho⟩
    simp only [handle, setProperty, Outcome.result_bind, Outcome.result_liftM,
      Heap.access_of_deref hi]
    rfl
  · have hno : ∀ i, receiver ≠ .inst i := fun i heq => hinstance ⟨i, heq⟩
    exact ⟨m, .refused .noFields, setProperty_refused hno name v, .setNoInstance name v hno⟩

theorem Sound.takes_display (hm : m.Sound) {v : Value} (hv : m.heap.ValidValue v) :
    m.Takes (.display v) := by
  obtain ⟨text, htext⟩ := hm.closed.heap.display hv
  refine ⟨m, .text text, ?_, .display htext⟩
  simp only [handle, Outcome.result_bind, Outcome.result_liftM, Outcome.result_pure, htext]
  rfl

/-- **Every request with valid operands takes a step, or overflows the threshold of a
collection.** -/
theorem Sound.handle_cases (hm : m.Sound) {request : Request} (ha : m.Accepts request) :
    m.Answers request := by
  cases request with
  | push v => exact .inr ⟨_, _, rfl, .push v⟩
  | pop => exact .inr ⟨_, _, rfl, .pop⟩
  | peek distance => exact .inr ⟨_, _, rfl, .peek distance⟩
  | intern text => exact hm.answers_intern text
  | concatenate a b => exact hm.answers_concatenate ha.1 ha.2
  | defineGlobal name v => exact .inr ⟨_, _, rfl, .defineGlobal name v⟩
  | getGlobal name => exact .inr (hm.takes_getGlobal ha)
  | setGlobal name v => exact .inr (hm.takes_setGlobal ha.1 v)
  | globalNames => exact .inr hm.takes_globalNames
  | newClass name => exact hm.answers_newClass ha
  | newInstance cls => exact hm.answers_newInstance ha
  | defineMethod cls name method => exact .inr (takes_defineMethod ha.1 name method)
  | inherit super cls => exact .inr (takes_inherit ha.1 ha.2)
  | getProperty receiver name => exact .inr (hm.takes_getProperty ha.1 ha.2)
  | setProperty receiver name v => exact .inr (takes_setProperty ha.1 name v)
  | display v => exact .inr (hm.takes_display ha)
  | collect => exact hm.answers_collect
  | reset => exact hm.answers_reset

/-- What a request did that was answered. -/
theorem Sound.step_of_handle (hm : m.Sound) {request : Request} (ha : m.Accepts request)
    {after : Machine} {reply : Reply} (hok : (m.handle request).result = .ok (after, reply)) :
    m.Step (m.handle request).releases request after reply := by
  rcases hm.handle_cases ha with hfault | ⟨after', reply', hok', hstep⟩
  · rw [hfault] at hok
    cases hok
  · rw [hok', Except.ok.injEq, Prod.mk.injEq] at hok
    obtain ⟨rfl, rfl⟩ := hok
    exact hstep

end Machine

end ObjectHeap
