import ObjectHeap.Proofs.Machine.Closure

/-!
# What is rooted is spared

A request that allocates may collect first, and what it needs afterwards is not always a root. The
texts to be concatenated are read before anything can be released, and the name of a new class or
the class of a new instance is on the stack while room is made. So whatever the roots reach stays in
its slot as it is, the operand does too, and stack and globals come out as they went in.

Nothing else stays if a collection fires. Which objects that leaves of those before the request is
said by `Heap.Outlasts`, and `Spares` says that a request is exact about it: it changes no object
that is left, and adds at most one.
-/

set_option autoImplicit false

namespace ObjectHeap

namespace Heap

/-- There is an object in the slot, and a collection from the given slots keeps it, if one fires. -/
def Outlasts (h : Heap) (fired : Bool) (start : List Nat) (slot : Nat) : Prop :=
  h.Occupied slot ∧ (fired = true → h.Reach start slot)

theorem Reach.outlasts {h : Heap} {start more : List Nat} {slot : Nat} (hr : h.Reach start slot)
    (fired : Bool) (hsub : ∀ s ∈ start, s ∈ more) : h.Outlasts fired more slot :=
  ⟨hr.occupied, fun _ => hr.trans fun s hs ho => .start (hsub s hs) ho⟩

theorem outlasts_congr {h : Heap} {fired : Bool} {start start' : List Nat}
    (hmem : ∀ s, s ∈ start ↔ s ∈ start') {slot : Nat} :
    h.Outlasts fired start slot ↔ h.Outlasts fired start' slot :=
  and_congr_right fun _ => imp_congr_right fun _ => reach_congr (.refl h) fun s _ => hmem s

end Heap

namespace Machine

variable {m after : Machine} {held : List Nat} {fired : Bool} {fresh : Option (Nat × Object)}

/-- From one machine to another some slots have been held beside the roots, a collection has fired or
not, and a fresh object has come into a slot or none has. Nothing else has happened to the objects,
the stack and the globals. -/
structure Spares (m : Machine) (held : List Nat) (fired : Bool) (fresh : Option (Nat × Object))
    (after : Machine) : Prop where
  stack_eq : after.stack = m.stack
  globals_eq : after.globals = m.globals
  cycles_eq : after.heap.cycles = m.heap.cycles + fired.toNat
  kept : ∀ slot, m.heap.Outlasts fired (m.roots ++ held) slot →
    after.heap.cell? slot = m.heap.cell? slot
  gone : ∀ slot, ¬m.heap.Outlasts fired (m.roots ++ held) slot →
    (∀ o, fresh ≠ some (slot, o)) → after.heap.cell? slot = none
  fresh : ∀ slot o, fresh = some (slot, o) → ¬m.heap.Outlasts fired (m.roots ++ held) slot ∧
    after.heap.cell? slot = some { object := o, charge := Heap.chargeOf o }

/-- What the roots reach is as it was. -/
theorem Spares.cell?_of_reach (hs : m.Spares held fired fresh after) {slot : Nat}
    (hr : m.heap.Reach m.roots slot) : after.heap.cell? slot = m.heap.cell? slot :=
  hs.kept slot (hr.outlasts fired fun _ hmem => List.mem_append_left _ hmem)

/-- So is what has been held. -/
theorem Spares.cell?_of_held (hs : m.Spares held fired fresh after) {slot : Nat}
    (hslot : slot ∈ held) (ho : m.heap.Occupied slot) :
    after.heap.cell? slot = m.heap.cell? slot :=
  hs.kept slot ⟨ho, fun _ => .start (List.mem_append_right _ hslot) ho⟩

/-! ## Making room -/

theorem spares_self (m : Machine) : m.Spares [] false none m where
  stack_eq := rfl
  globals_eq := rfl
  cycles_eq := rfl
  kept _ _ := rfl
  gone slot hgone _ := by
    by_contra hne
    exact hgone ⟨Option.ne_none_iff_exists'.1 hne, nofun⟩
  fresh _ _ heq := by cases heq

theorem Sound.spares_collect (hm : m.Sound) (hc : m.collect.result = .ok after) :
    m.Spares [] true none after := by
  have houtlasts : ∀ slot, m.heap.Outlasts true (m.roots ++ []) slot ↔
      m.heap.Reach m.roots slot := by
    intro slot
    rw [List.append_nil]
    exact ⟨fun hleft => hleft.2 rfl, fun hr => ⟨hr.occupied, fun _ => hr⟩⟩
  have hcell : ∀ slot c, after.heap.cell? slot = some c ↔
      m.heap.Reach m.roots slot ∧ m.heap.cell? slot = some c :=
    fun slot c => hm.cell?_collect hc
  have hstate : after.stack = m.stack ∧ after.globals = m.globals ∧
      after.heap.cycles = m.heap.cycles + 1 := by
    obtain ⟨heap, hheap, rfl⟩ := of_collect_eq_ok hc
    obtain ⟨threshold, -, rfl⟩ := Heap.of_collect_eq_ok hheap
    refine ⟨rfl, rfl, ?_⟩
    show (m.heap.markAll m.roots).swept.cycles + 1 = m.heap.cycles + 1
    rw [Heap.swept_cycles, (Heap.repainted_markAll m.heap m.roots).cycles_eq]
  exact
    { stack_eq := hstate.1
      globals_eq := hstate.2.1
      cycles_eq := hstate.2.2
      kept := fun slot hleft => by
        obtain ⟨c, hold⟩ := hleft.1
        rw [hold, hcell]
        exact ⟨(houtlasts slot).1 hleft, hold⟩
      gone := fun slot hgone _ => by
        rw [Option.eq_none_iff_forall_ne_some]
        intro c hleft
        exact hgone ((houtlasts slot).2 ((hcell slot c).1 hleft).1)
      fresh := fun _ _ heq => by cases heq }

/-- Making room fails only if a collection is due. -/
theorem Sound.spares_makeRoom (hm : m.Sound) :
    (m.makeRoom.result = .error .thresholdOverflow ∧ m.heap.due = true) ∨
    ∃ roomy, m.makeRoom.result = .ok roomy ∧ m.Cleared m.makeRoom.releases roomy ∧
      m.Spares [] m.heap.due none roomy := by
  cases hdue : m.heap.due with
  | false =>
    have hroom : m.makeRoom = pure m := by rw [makeRoom, hdue]; rfl
    exact .inr ⟨m, by rw [hroom]; rfl, hm.cleared_self _, m.spares_self⟩
  | true =>
    have hroom : m.makeRoom = m.collect := by rw [makeRoom, hdue]; rfl
    rw [hroom]
    cases hc : m.collect.result with
    | error f => rw [of_collect_eq_error hc]; exact .inl ⟨rfl, rfl⟩
    | ok roomy => exact .inr ⟨roomy, rfl, hm.collect_cleared hc, hm.spares_collect hc⟩

/-! ## Allocating -/

/-- After room has been made an object is placed, and nothing but the table of interned strings is
written beside. -/
theorem Spares.place {roomy : Machine} (hs : m.Spares held fired none roomy)
    (hslotted : roomy.heap.Slotted) (o : Object) {heap : Heap}
    (hcells : heap.cells = (roomy.heap.place o).1.cells)
    (hcycles : heap.cycles = (roomy.heap.place o).1.cycles) :
    m.Spares held fired (some ((roomy.heap.place o).2, o)) { roomy with heap } := by
  have hcell : ∀ slot, heap.cell? slot = if slot = (roomy.heap.place o).2 then
      some { object := o, charge := Heap.chargeOf o } else roomy.heap.cell? slot := by
    intro slot
    rw [← Heap.cell?_place hslotted, Heap.cell?, hcells]
    rfl
  -- The slot that is taken was empty once room had been made.
  have hempty : ¬m.heap.Outlasts fired (m.roots ++ held) (roomy.heap.place o).2 := by
    intro hleft
    obtain ⟨c, hold⟩ := hleft.1
    have hkept := hs.kept _ hleft
    rw [Heap.place_slot_empty hslotted, hold] at hkept
    cases hkept
  exact
    { stack_eq := hs.stack_eq
      globals_eq := hs.globals_eq
      cycles_eq := hcycles.trans ((Heap.place_schedule _ _).2.2.trans hs.cycles_eq)
      kept := fun slot hleft => by
        rw [hcell, if_neg, hs.kept slot hleft]
        rintro rfl
        exact hempty hleft
      gone := fun slot hgone hfresh => by
        rw [hcell, if_neg, hs.gone slot hgone fun _ heq => by cases heq]
        rintro rfl
        exact hfresh o rfl
      fresh := fun slot o' heq => by
        rw [Option.some.injEq, Prod.mk.injEq] at heq
        obtain ⟨rfl, rfl⟩ := heq
        exact ⟨hempty, by rw [hcell, if_pos rfl]⟩ }

/-- What was done while an operand was on the stack was done while it was held. -/
theorem Spares.pop {operand : Value} (hs : (m.push operand).Spares [] fired fresh after) :
    m.Spares operand.target?.toList fired fresh { after with stack := after.stack.tail } := by
  have hroots : ∀ slot, slot ∈ (m.push operand).roots ++ [] ↔
      slot ∈ m.roots ++ operand.target?.toList := by
    intro slot
    simp only [List.append_nil, List.mem_append, mem_roots, push, List.mem_cons, Value.mem_target?,
      exists_eq_or_imp]
    rw [or_assoc, or_comm]
  have houtlasts : ∀ slot, m.heap.Outlasts fired (m.roots ++ operand.target?.toList) slot ↔
      (m.push operand).heap.Outlasts fired ((m.push operand).roots ++ []) slot :=
    fun slot => (Heap.outlasts_congr hroots).symm
  exact
    { stack_eq := by rw [hs.stack_eq]; rfl
      globals_eq := hs.globals_eq
      cycles_eq := hs.cycles_eq
      kept := fun slot hleft => hs.kept slot ((houtlasts slot).1 hleft)
      gone := fun slot hgone => hs.gone slot fun hleft => hgone ((houtlasts slot).2 hleft)
      fresh := fun slot o heq => by
        rw [houtlasts]
        exact hs.fresh slot o heq }

/-- A symbol is found, or its string is made after room has been made. -/
theorem Sound.spares_intern (hm : m.Sound) (text : String) :
    ((m.intern text).result = .error .thresholdOverflow ∧ m.heap.due = true) ∨
    (∃ key, m.heap.find? text = .ok (some key) ∧ (m.intern text).result = .ok (m, key)) ∨
    ∃ after key, m.heap.find? text = .ok none ∧ (m.intern text).result = .ok (after, key) ∧
      key.hash = Text.hash text ∧
      m.Spares [] m.heap.due (some (key.str.slot, .str (.ofText text 0))) after := by
  obtain ⟨found, hfind, -⟩ := hm.canonical.find?_eq hm.heap text
  cases found with
  | some key => exact .inr (.inl ⟨key, hfind, intern_of_some hfind⟩)
  | none =>
    rw [intern_of_none hfind]
    rcases hm.spares_makeRoom with ⟨hfault, hdue⟩ | ⟨roomy, hroomy, hc, hs⟩
    · exact .inl ⟨by rw [hfault]; rfl, hdue⟩
    · have hnone := hm.find?_cleared hc hfind
      have hok : (roomy.heap.intern text).result =
          .ok (roomy.heap.withString (.ofText text 0)) := by
        rw [Heap.intern, Heap.internReserving_result, hnone]
        rfl
      rw [hroomy]
      refine .inr (.inr ⟨{ roomy with heap := (roomy.heap.withString (.ofText text 0)).1 },
        (roomy.heap.withString (.ofText text 0)).2, hfind, ?_, rfl,
        hs.place hc.heap.slotted (.str (.ofText text 0)) rfl rfl⟩)
      show ((roomy.heap.intern text).result >>= _) = _
      rw [hok]
      rfl

theorem Sound.spares_allocateHolding (hm : m.Sound) (operand : Value)
    (hv : m.heap.ValidValue operand) (k : Kind) (p : k.Payload) :
    ((m.allocateHolding operand k p).result = .error .thresholdOverflow ∧ m.heap.due = true) ∨
    ∃ after r, (m.allocateHolding operand k p).result = .ok (after, r) ∧
      m.Spares operand.target?.toList m.heap.due (some (r.slot, .of k p)) after := by
  rw [allocateHolding_result]
  rcases (hm.push hv).spares_makeRoom with ⟨hfault, hdue⟩ | ⟨roomy, hroomy, hc, hs⟩
  · exact .inl ⟨by rw [hfault]; rfl, hdue⟩
  · rw [hroomy]
    exact .inr ⟨_, _, rfl, (hs.place hc.heap.slotted (.of k p) rfl rfl).pop⟩

/-! ## Requests -/

end Machine

/-- The requests in which a collection may fire, of those that leave the roots alone. -/
def Request.mayCollect : Request → Bool
  | .intern _ | .concatenate _ _ | .newClass _ | .newInstance _ | .collect => true
  | _ => false

/-- What a request refers to that it still needs when room has been made. -/
def Request.held : Request → List Nat
  | .newClass name => [name.str.slot]
  | .newInstance cls => [cls.slot]
  | _ => []

namespace Machine

variable {m after : Machine} {policy : Policy} {request : Request}

/-- Whether a collection fires in a request, and which object the request adds in the slot that its
reply refers to. -/
inductive Brings (m : Machine) : Request → Reply → Bool → Option (Nat × Object) → Prop
  | found {text : String} {key : Symbol} : m.heap.find? text = .ok (some key) →
    Brings m (.intern text) (.symbol key) false none
  | string {text : String} {key : Symbol} : m.heap.find? text = .ok none →
    key.hash = Text.hash text → Brings m (.intern text) (.symbol key) m.heap.due
      (some (key.str.slot, .str (.ofText text 0)))
  | concatenate {a b : Symbol} {first second : String} {reply : Reply} {fired : Bool}
    {fresh : Option (Nat × Object)} : m.heap.Spells a first → m.heap.Spells b second →
    Brings m (.intern (first ++ second)) reply fired fresh →
    Brings m (.concatenate a b) reply fired fresh
  | cls (name : Symbol) (c : Ref .cls) :
    Brings m (.newClass name) (.cls c) m.heap.due (some (c.slot, .cls { name }))
  | inst (cls : Ref .cls) (i : Ref .inst) :
    Brings m (.newInstance cls) (.inst i) m.heap.due (some (i.slot, .inst { cls }))
  | collect : Brings m .collect .done true none

/-- A request overflows the threshold of a collection that fires in it, or spares all but what it
releases. -/
def SparesIn (m : Machine) (request : Request) : Prop :=
  ((m.handle request).result = .error .thresholdOverflow ∧
    (request = .collect ∨ m.heap.due = true)) ∨
  ∃ after reply fired fresh, (m.handle request).result = .ok (after, reply) ∧
    m.Brings request reply fired fresh ∧ m.Spares request.held fired fresh after

/-- A request that amounts to one operation spares what the operation spares. -/
theorem sparesIn_of {α : Type} {operation : Outcome α} {f : α → Machine × Reply}
    (hhandle : m.handle request = operation >>= fun x => pure (f x))
    (hcases : (operation.result = .error .thresholdOverflow ∧
        (request = .collect ∨ m.heap.due = true)) ∨
      ∃ x fired fresh, operation.result = .ok x ∧ m.Brings request (f x).2 fired fresh ∧
        m.Spares request.held fired fresh (f x).1) : m.SparesIn request := by
  rw [SparesIn, hhandle, Outcome.result_bind]
  rcases hcases with ⟨hfault, hwhy⟩ | ⟨x, fired, fresh, hok, hbrings, hs⟩
  · exact .inl ⟨by rw [hfault]; rfl, hwhy⟩
  · exact .inr ⟨_, _, fired, fresh, by rw [hok]; rfl, hbrings, hs⟩

theorem Sound.sparesIn_intern (hm : m.Sound) (text : String) : m.SparesIn (.intern text) := by
  refine sparesIn_of (f := fun x : Machine × Symbol => (x.1, .symbol x.2)) rfl ?_
  rcases hm.spares_intern text with ⟨hfault, hdue⟩ | ⟨key, hfind, hok⟩ |
    ⟨after, key, hfind, hok, hhash, hs⟩
  · exact .inl ⟨hfault, .inr hdue⟩
  · exact .inr ⟨_, _, _, hok, .found hfind, m.spares_self⟩
  · exact .inr ⟨_, _, _, hok, .string hfind hhash, hs⟩

theorem Sound.sparesIn_concatenate (hm : m.Sound) {a b : Symbol} (ha : m.heap.ValidSymbol a)
    (hb : m.heap.ValidSymbol b) : m.SparesIn (.concatenate a b) := by
  obtain ⟨first, hfirst⟩ := hm.spells_of_valid ha
  obtain ⟨second, hsecond⟩ := hm.spells_of_valid hb
  have hhandle : m.handle (.concatenate a b) = m.handle (.intern (first ++ second)) := by
    simp only [handle, concatenate_eq hfirst hsecond]
  rw [SparesIn, hhandle]
  rcases hm.sparesIn_intern (first ++ second) with
    ⟨hfault, hdue⟩ | ⟨after, reply, fired, fresh, hok, hbrings, hs⟩
  · exact .inl ⟨hfault, .inr (hdue.resolve_left fun heq => by cases heq)⟩
  · exact .inr ⟨after, reply, fired, fresh, hok, .concatenate hfirst hsecond hbrings, hs⟩

theorem Sound.sparesIn_newClass (hm : m.Sound) {name : Symbol} (hv : m.heap.ValidSymbol name) :
    m.SparesIn (.newClass name) := by
  refine sparesIn_of (f := fun x : Machine × Ref .cls => (x.1, .cls x.2)) rfl ?_
  rcases hm.spares_allocateHolding (.str name) hv .cls { name } with
    ⟨hfault, hdue⟩ | ⟨after, c, hok, hs⟩
  · exact .inl ⟨hfault, .inr hdue⟩
  · exact .inr ⟨_, _, _, hok, .cls name c, hs⟩

theorem Sound.sparesIn_newInstance (hm : m.Sound) {cls : Ref .cls} (hv : m.heap.Valid cls) :
    m.SparesIn (.newInstance cls) := by
  refine sparesIn_of (f := fun x : Machine × Ref .inst => (x.1, .inst x.2)) rfl ?_
  rcases hm.spares_allocateHolding (.cls cls) hv .inst { cls } with
    ⟨hfault, hdue⟩ | ⟨after, i, hok, hs⟩
  · exact .inl ⟨hfault, .inr hdue⟩
  · exact .inr ⟨_, _, _, hok, .inst cls i, hs⟩

theorem Sound.sparesIn_collect (hm : m.Sound) : m.SparesIn .collect := by
  refine sparesIn_of (f := fun after => (after, .done)) rfl ?_
  cases hc : m.collect.result with
  | error f => rw [of_collect_eq_error hc]; exact .inl ⟨rfl, .inl rfl⟩
  | ok after => exact .inr ⟨after, _, _, rfl, .collect, hm.spares_collect hc⟩

/-- The operand that a request holds is there. -/
theorem Accepts.occupied_held (ha : m.Accepts request) {slot : Nat} (hslot : slot ∈ request.held) :
    m.heap.Occupied slot := by
  cases request with
  | newClass name =>
    obtain rfl := List.mem_singleton.1 hslot
    exact Heap.ValidSymbol.occupied ha
  | newInstance cls =>
    obtain rfl := List.mem_singleton.1 hslot
    exact Heap.Valid.occupied ha
  | _ => exact absurd hslot List.not_mem_nil

theorem Sound.sparesIn (hm : m.Sound) (ha : m.Accepts request) (hr : request.mayCollect = true) :
    m.SparesIn request := by
  cases request with
  | intern text => exact hm.sparesIn_intern text
  | concatenate a b => exact hm.sparesIn_concatenate ha.1 ha.2
  | newClass name => exact hm.sparesIn_newClass ha
  | newInstance cls => exact hm.sparesIn_newInstance ha
  | collect => exact hm.sparesIn_collect
  | _ => cases hr

/-- **What is rooted is spared, and nothing else.** In every machine that arises, a request that may
collect and does not overflow leaves stack and globals as they are. What could be reached from them
is in its slot as it was, and so is the operand that a new class or instance refers to. If no
collection fired, then all other objects are there as well; if one did, then none is left that could
not be reached from the roots and the operand. -/
theorem Arises.rooted_spared (ha : m.Arises policy) (haccepts : m.Accepts request)
    (hr : request.mayCollect = true) :
    ((m.handle request).result = .error .thresholdOverflow ∧
      (request = .collect ∨ m.heap.due = true)) ∨
    ∃ after reply fired fresh, (m.handle request).result = .ok (after, reply) ∧
      m.Brings request reply fired fresh ∧ m.Spares request.held fired fresh after ∧
      (∀ slot, m.heap.Reach m.roots slot → after.heap.cell? slot = m.heap.cell? slot) ∧
      ∀ slot ∈ request.held, m.heap.Occupied slot ∧
        after.heap.cell? slot = m.heap.cell? slot := by
  refine (ha.sound.sparesIn haccepts hr).imp_right ?_
  rintro ⟨after, reply, fired, fresh, hok, hbrings, hs⟩
  refine ⟨after, reply, fired, fresh, hok, hbrings, hs, fun slot => hs.cell?_of_reach, ?_⟩
  intro slot hslot
  have ho := haccepts.occupied_held hslot
  exact ⟨ho, hs.cell?_of_held hslot ho⟩

/-- A machine that collects whenever it can, with a name that is not rooted. -/
def strained : Machine :=
  { heap := ({ Heap.new { stress := true } with cycles := 1 }.withString (.ofText "A" 0)).1 }

theorem arises_strained : strained.Arises { stress := true } :=
  .handle .new (show Accepts _ (.intern "A") from trivial)
    (show _ = Except.ok (strained, .symbol Heap.ringName) by decide +kernel)

/-- A collection fires when a class of that name is made, and the name is not released. -/
theorem rooted_spared_strained : ∃ after,
    (strained.handle (.newClass Heap.ringName)).result = .ok (after, .cls ⟨1⟩) ∧
    strained.Spares [0] true (some (1, .cls { name := Heap.ringName })) after ∧
    after.heap.cycles = 2 ∧ after.heap.cell? 0 = strained.heap.cell? 0 := by
  have hname : strained.Accepts (.newClass Heap.ringName) := ⟨.ofText "A" 0, rfl, rfl⟩
  have hok : (strained.handle (.newClass Heap.ringName)).result =
      .ok ({ heap := ({ strained.heap with cycles := 2 }.place
        (.cls { name := Heap.ringName })).1 }, .cls ⟨1⟩) := by
    decide +kernel
  rcases Arises.rooted_spared arises_strained hname rfl with
    ⟨hfault, -⟩ | ⟨after, reply, fired, fresh, hok', hbrings, hs, -, hheld⟩
  · rw [hok] at hfault
    cases hfault
  · rw [hok, Except.ok.injEq, Prod.mk.injEq] at hok'
    obtain ⟨rfl, rfl⟩ := hok'
    cases hbrings
    exact ⟨_, hok, hs, hs.cycles_eq, (hheld 0 List.mem_cons_self).2⟩

end Machine

end ObjectHeap
