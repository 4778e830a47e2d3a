import ObjectHeap.Proofs.Machine.Closure
import ObjectHeap.Proofs.Renaming.Machine

/-!
# Renaming slots in requests

Twins that are asked the same, slots renamed, reply the same, slots renamed, and are twins again
(`Twins.handle`). The permutation may be another one afterwards, but it carries every slot as before
whose object has not been released. So a reference that may still be used means in one machine what
its counterpart means in the other.
-/

set_option autoImplicit false

namespace ObjectHeap

/-- The request with the slots of its operands renamed. -/
def Request.rename (σ : Nat → Nat) : Request → Request
  | .push v => .push (v.rename σ)
  | .pop => .pop
  | .peek distance => .peek distance
  | .intern text => .intern text
  | .concatenate a b => .concatenate (a.rename σ) (b.rename σ)
  | .defineGlobal name v => .defineGlobal (name.rename σ) (v.rename σ)
  | .getGlobal name => .getGlobal (name.rename σ)
  | .setGlobal name v => .setGlobal (name.rename σ) (v.rename σ)
  | .globalNames => .globalNames
  | .newClass name => .newClass (name.rename σ)
  | .newInstance cls => .newInstance (cls.rename σ)
  | .defineMethod cls name method =>
    .defineMethod (cls.rename σ) (name.rename σ) (method.rename σ)
  | .inherit super cls => .inherit (super.rename σ) (cls.rename σ)
  | .getProperty receiver name => .getProperty (receiver.rename σ) (name.rename σ)
  | .setProperty receiver name v =>
    .setProperty (receiver.rename σ) (name.rename σ) (v.rename σ)
  | .display v => .display (v.rename σ)
  | .collect => .collect
  | .reset => .reset

/-- The reply with the slots that it refers to renamed. -/
def Reply.rename (σ : Nat → Nat) : Reply → Reply
  | .done => .done
  | .top v => .top (v.map (Value.rename σ))
  | .symbol s => .symbol (s.rename σ)
  | .cls c => .cls (c.rename σ)
  | .inst i => .inst (i.rename σ)
  | .found v => .found (v.rename σ)
  | .text s => .text s
  | .names list => .names list
  | .refused why => .refused why

namespace Machine

variable {m n : Machine} {σ : Equiv.Perm Nat} {lag : Nat}

/-- Two operations overflow both, or give the same answer up to renaming and leave twins. Objects
that are released in one correspond to objects that are released in the other, and references to
objects that are not released keep their counterparts. -/
def Parallel {α : Type} (rename : (Nat → Nat) → α → α) (σ : Equiv.Perm Nat) (lag : Nat)
    (m : Machine) (x y : Outcome (Machine × α)) : Prop :=
  (x.result = .error .thresholdOverflow ∧ y.result = .error .thresholdOverflow) ∨
  ∃ (τ : Equiv.Perm Nat) (after after' : Machine) (answer : α),
    x.result = .ok (after, answer) ∧ y.result = .ok (after', rename τ answer) ∧
    Twins τ lag after after' ∧
    (∀ slot, m.heap.Occupied slot → slot ∉ x.releases → τ slot = σ slot) ∧
    ∀ slot, m.heap.Occupied slot → (slot ∈ x.releases ↔ σ slot ∈ y.releases)

section Parallel

variable {α β : Type} {rename : (Nat → Nat) → α → α} {rename' : (Nat → Nat) → β → β}
  {x y : Outcome (Machine × α)}

/-- Operations that release and allocate nothing. -/
theorem Parallel.of_quiet {after after' : Machine} {answer : α}
    (hx : x.result = .ok (after, answer)) (hy : y.result = .ok (after', rename σ answer))
    (hrx : x.releases = []) (hry : y.releases = []) (ht : Twins σ lag after after') :
    Parallel rename σ lag m x y := by
  refine .inr ⟨σ, after, after', answer, hx, hy, ht, fun _ _ _ => rfl, ?_⟩
  intro slot _
  rw [hrx, hry]
  exact iff_of_false List.not_mem_nil List.not_mem_nil

theorem Parallel.pure {after after' : Machine} {a b : α} (ht : Twins σ lag after after')
    (heq : b = rename σ a) :
    Parallel rename σ lag m (Pure.pure (after, a)) (Pure.pure (after', b)) :=
  .of_quiet rfl (by rw [← heq]; rfl) rfl rfl ht

theorem Parallel.lift {γ δ : Type} {x : Except Fault γ} {y : Except Fault δ}
    {f : γ → Outcome (Machine × α)} {g : δ → Outcome (Machine × α)} {c : γ} {d : δ}
    (hx : x = .ok c) (hy : y = .ok d) (hp : Parallel rename σ lag m (f c) (g d)) :
    Parallel rename σ lag m (liftM x >>= f) (liftM y >>= g) := by
  rw [Outcome.bind_of_ok hx, Outcome.bind_of_ok hy]
  exact hp

/-- What tables report on the way does not matter. -/
theorem Parallel.growths {before after before' after' : Table}
    (hp : Parallel rename σ lag m x y) :
    Parallel rename σ lag m (Outcome.report (Event.growths before after) >>= fun _ => x)
      (Outcome.report (Event.growths before' after') >>= fun _ => y) := by
  have hquiet : ∀ t t' : Table, (Outcome.report (Event.growths t t')).releases = [] := fun _ _ =>
    Outcome.releases_report fun _ => Heap.verdict?_growths
  rw [Parallel, Outcome.releases_bind_of_ok rfl (hquiet _ _),
    Outcome.releases_bind_of_ok rfl (hquiet _ _), Outcome.result_bind, Outcome.result_bind]
  exact hp

/-- What is made of the answer does not matter, if it is made in the same way. -/
theorem Parallel.map (hp : Parallel rename σ lag m x y) {f : α → β}
    (hf : ∀ τ answer, rename' τ (f answer) = f (rename τ answer)) :
    Parallel rename' σ lag m (x >>= fun a => Pure.pure (a.1, f a.2))
      (y >>= fun a => Pure.pure (a.1, f a.2)) := by
  rcases hp with ⟨hx, hy⟩ | ⟨τ, after, after', answer, hx, hy, ht, hagree, hreleases⟩
  · exact .inl ⟨by rw [Outcome.result_bind, hx]; rfl, by rw [Outcome.result_bind, hy]; rfl⟩
  · rw [← Outcome.releases_bind_pure x fun a => (a.1, f a.2)] at hagree hreleases
    rw [← Outcome.releases_bind_pure y fun a => (a.1, f a.2)] at hreleases
    refine .inr ⟨τ, after, after', f answer, ?_, ?_, ht, hagree, hreleases⟩
    · rw [Outcome.result_bind, hx]
      rfl
    · rw [Outcome.result_bind, hy, hf]
      rfl

end Parallel

/-! ## Requests that may collect -/

section Collecting

variable {α : Type} {rename : (Nat → Nat) → α → α}

/-- After operations that may collect the machines do something that releases nothing. -/
theorem ClearAlike.parallel {x y : Outcome Machine} {p q : Machine → Outcome (Machine × α)}
    (hc : ClearAlike σ lag m n x y) (hp : ∀ roomy, x.result = .ok roomy → (p roomy).releases = [])
    (hq : ∀ roomy, y.result = .ok roomy → (q roomy).releases = [])
    (hpq : ∀ roomy roomy', m.Cleared x.releases roomy → n.Cleared y.releases roomy' →
      Twins σ lag roomy roomy' → ∃ (τ : Equiv.Perm Nat) (after after' : Machine) (answer : α),
        (p roomy).result = .ok (after, answer) ∧
        (q roomy').result = .ok (after', rename τ answer) ∧ Twins τ lag after after' ∧
        ∀ slot, roomy.heap.Occupied slot → τ slot = σ slot) :
    Parallel rename σ lag m (x >>= p) (y >>= q) := by
  rw [Parallel, Outcome.releases_bind_of_quiet hp, Outcome.releases_bind_of_quiet hq,
    Outcome.result_bind, Outcome.result_bind]
  rcases hc with ⟨hx, hy⟩ | ⟨roomy, roomy', hx, hy, hcx, hcy, ht, hreleases⟩
  · exact .inl ⟨by rw [hx]; rfl, by rw [hy]; rfl⟩
  · obtain ⟨τ, after, after', answer, hleft, hright, htwins, hagree⟩ := hpq _ _ hcx hcy ht
    refine .inr ⟨τ, after, after', answer, by rw [hx]; exact hleft, by rw [hy]; exact hright,
      htwins, ?_, hreleases⟩
    intro slot ho hr
    exact hagree slot (hcx.unreleased slot ho hr)

end Collecting

/-- Twins find corresponding symbols, however their tables of interned strings are laid out. -/
theorem Twins.find?_eq (ht : Twins σ lag m n) (hm : m.Sound) (hn : n.Sound) (text : String) :
    n.heap.find? text = (m.heap.find? text).map (Option.map (Symbol.rename σ)) := by
  obtain ⟨found, hfind, hfound⟩ := hm.canonical.find?_eq hm.heap text
  obtain ⟨found', hfind', hfound'⟩ := hn.canonical.find?_eq hn.heap text
  have hleft : ∀ key, found = some key ↔ m.heap.Spells key text := fun key =>
    (hfound key).trans ⟨And.right, fun hs => ⟨hm.interned_of_valid hs.validSymbol, hs⟩⟩
  have hright : ∀ key, found' = some key ↔ n.heap.Spells key text := fun key =>
    (hfound' key).trans ⟨And.right, fun hs => ⟨hn.interned_of_valid hs.validSymbol, hs⟩⟩
  have heq : found' = found.map (Symbol.rename σ) := by
    apply Option.ext
    rintro ⟨⟨slot⟩, hash⟩
    obtain ⟨s, rfl⟩ := σ.surjective slot
    have hkey : (⟨⟨σ s⟩, hash⟩ : Symbol) = Symbol.rename σ ⟨⟨s⟩, hash⟩ := rfl
    rw [hright, Option.map_eq_some_iff, hkey, ht.cells.spells_iff, ← hleft]
    constructor
    · exact fun hsome => ⟨_, hsome, rfl⟩
    · rintro ⟨key, hsome, hrename⟩
      rwa [← Symbol.rename_injective σ.injective hrename]
  rw [hfind, hfind', heq]
  rfl

theorem releases_internReserving (h : Heap) (text : String) (reserved : Nat) :
    (h.internReserving text reserved).releases = [] := by
  have hallocate : ∀ s : Str, (h.allocate .str s).releases = [] := fun _ => rfl
  cases hfind : h.find? text with
  | error f =>
    rw [Heap.internReserving, hfind]
    rfl
  | ok found =>
    rw [Heap.internReserving, hfind]
    cases found with
    | some key => rfl
    | none =>
      refine (Outcome.releases_bind_of_ok rfl rfl).trans ?_
      refine (Outcome.releases_bind_of_ok rfl (hallocate _)).trans ?_
      exact Outcome.releases_bind_of_ok rfl (Outcome.releases_report fun _ => Heap.verdict?_growths)

/-- The same string is added to both heaps. -/
theorem Twins.withString (ht : Twins σ lag m n) (hm : m.Sound) (hn : n.Sound) (s : Str) :
    ∃ τ : Equiv.Perm Nat,
      Twins τ lag { m with heap := (m.heap.withString s).1 }
        { n with heap := (n.heap.withString s).1 } ∧
      (n.heap.withString s).2 = (m.heap.withString s).2.rename τ ∧
      ∀ slot, m.heap.Occupied slot → τ slot = σ slot := by
  obtain ⟨τ, ht', hslot, hagree⟩ := ht.place hm hn (o := .str s) trivial
  refine ⟨τ, ⟨ht'.cells, ht'.policy_eq, ht'.threshold_eq, ht'.cycles_eq, ht'.stack_eq,
    ht'.globals_eq⟩, ?_, hagree⟩
  show (⟨⟨(n.heap.place (.str s)).2⟩, s.hash⟩ : Symbol) = ⟨⟨τ (m.heap.place (.str s)).2⟩, s.hash⟩
  rw [hslot]
  rfl

theorem Twins.intern (ht : Twins σ lag m n) (hm : m.Sound) (hn : n.Sound) (text : String) :
    Parallel Symbol.rename σ lag m (m.intern text) (n.intern text) := by
  obtain ⟨found, hfind, -⟩ := hm.canonical.find?_eq hm.heap text
  have hfind' := ht.find?_eq hm hn text
  rw [hfind] at hfind'
  cases found with
  | some key =>
    refine .of_quiet (intern_of_some hfind) (intern_of_some hfind') ?_ ?_ ht
    · exact Outcome.releases_bind_of_ok (a := some key) hfind rfl
    · exact Outcome.releases_bind_of_ok (a := some (key.rename σ)) hfind' rfl
  | none =>
    unfold Machine.intern
    rw [Outcome.bind_of_ok hfind, Outcome.bind_of_ok (a := none) hfind']
    refine (ht.makeRoom hm hn).parallel ?_ ?_ ?_
    · exact fun roomy _ => (Outcome.releases_bind_pure _ _).trans (releases_internReserving _ _ _)
    · exact fun roomy _ => (Outcome.releases_bind_pure _ _).trans (releases_internReserving _ _ _)
    · intro roomy roomy' hc hc' htwins
      have hnone := hm.find?_cleared hc hfind
      have hnone' := hn.find?_cleared hc' hfind'
      obtain ⟨τ, htwins', hkey, hagree⟩ :=
        htwins.withString (hm.cleared hc) (hn.cleared hc') (.ofText text 0)
      refine ⟨τ, _, _, (roomy.heap.withString (.ofText text 0)).2, ?_, ?_, htwins', hagree⟩
      · rw [Outcome.result_bind, Heap.intern, Heap.internReserving_result, hnone]
        rfl
      · rw [Outcome.result_bind, Heap.intern, Heap.internReserving_result, hnone', ← hkey]
        rfl

theorem Twins.concatenate (ht : Twins σ lag m n) (hm : m.Sound) (hn : n.Sound)
    {a b : Symbol} (ha : m.heap.ValidSymbol a) (hb : m.heap.ValidSymbol b) :
    Parallel Symbol.rename σ lag m (m.concatenate a b)
      (n.concatenate (a.rename σ) (b.rename σ)) := by
  obtain ⟨first, hfirst⟩ := ha.textOf
  obtain ⟨second, hsecond⟩ := hb.textOf
  have hfirst' := (ht.cells.textOf_eq ha).trans hfirst
  have hsecond' := (ht.cells.textOf_eq hb).trans hsecond
  rw [concatenate_eq_bind, concatenate_eq_bind]
  exact .lift hfirst hfirst' (.lift hsecond hsecond' (ht.intern hm hn _))

/-- The same object is allocated on behalf of the same operand. -/
theorem Twins.allocateHolding (ht : Twins σ lag m n) (hm : m.Sound) (hn : n.Sound)
    {operand : Value} (hv : m.heap.ValidValue operand) {k : Kind} {p : k.Payload}
    (ho : ∀ roomy : Machine, roomy.heap.ValidValue operand → roomy.heap.ValidObject (.of k p)) :
    Parallel Ref.rename σ lag m (m.allocateHolding operand k p)
      (n.allocateHolding (operand.rename σ) k (k.rename σ p)) := by
  have hm' := hm.push hv
  have hn' := hn.push (ht.cells.validValue hv)
  refine ((ht.push operand).makeRoom hm' hn').parallel (fun _ _ => rfl) (fun _ _ => rfl) ?_
  intro roomy roomy' hc hc' htwins
  have hobject := ho roomy ((hm'.cleared hc).closed.stack operand
    (by rw [hc.stack_eq]; exact List.mem_cons_self))
  obtain ⟨τ, htwins', hslot, hagree⟩ := htwins.place (hm'.cleared hc) (hn'.cleared hc') hobject
  rw [Object.rename_of] at htwins' hslot
  refine ⟨τ, _, _, ⟨(roomy.heap.place (.of k p)).2⟩, rfl, ?_, htwins'.pop, hagree⟩
  rw [Ref.rename, hslot]
  rfl

theorem Twins.parallel_collect (ht : Twins σ lag m n) (hm : m.Sound) (hn : n.Sound) :
    Parallel Reply.rename σ lag m (m.handle .collect) (n.handle .collect) :=
  (ht.collect hm hn).parallel (fun _ _ => rfl) (fun _ _ => rfl) fun roomy roomy' _ _ htwins =>
    ⟨σ, roomy, roomy', .done, rfl, rfl, htwins, fun _ _ => rfl⟩

theorem Twins.emptied (ht : Twins σ lag m n) :
    Twins σ lag { m with stack := [], globals := ∅ } { n with stack := [], globals := ∅ } :=
  (ht.withGlobals (Table.rename_empty σ).symm).withStack rfl

/-- A reset does what a collection does that starts from nothing. -/
theorem Twins.parallel_reset (ht : Twins σ lag m n) (hm : m.Sound) (hn : n.Sound) :
    Parallel Reply.rename σ lag m (m.handle .reset) (n.handle .reset) := by
  have hresult : ∀ k : Machine, (k.handle .reset).result =
      (handle { k with stack := [], globals := ∅ } .collect).result := by
    intro k
    simp only [handle, Outcome.result_bind, reset_result]
  have hreleases : ∀ k : Machine, (k.handle .reset).releases =
      (handle { k with stack := [], globals := ∅ } .collect).releases := by
    intro k
    simp only [handle, Outcome.releases_bind_pure, releases_reset]
  have hparallel := ht.emptied.parallel_collect hm.emptied hn.emptied
  rw [Parallel, ← hresult m, ← hreleases m, ← hresult n, ← hreleases n] at hparallel
  exact hparallel

/-! ## Requests that do not collect -/

theorem Twins.get?_globals (ht : Twins σ lag m n) (name : Symbol) :
    n.globals.get? (name.rename σ) = (m.globals.get? name).map (Value.rename σ) := by
  rw [ht.globals_eq, Table.get?_rename σ.injective]

theorem Twins.insert_globals (ht : Twins σ lag m n) (name : Symbol) (v : Value) :
    n.globals.insert (name.rename σ) (v.rename σ) =
      ((m.globals.insert name v).1.rename σ, (m.globals.insert name v).2) := by
  rw [ht.globals_eq, Table.insert_rename σ.injective]

/-- Looking for a value finds the corresponding value, or is refused alike. -/
theorem Twins.parallel_ofValue (ht : Twins σ lag m n) {x y : Except Fault (Except Refusal Value)}
    {answer : Except Refusal Value} (hx : x = .ok answer)
    (hy : y = .ok (answer.map (Value.rename σ))) :
    Parallel Reply.rename σ lag m (do return (m, .ofValue (← x)))
      (do return (n, .ofValue (← y))) := by
  refine .lift hx hy (.pure ht ?_)
  cases answer <;> rfl

theorem Twins.parallel_getGlobal (ht : Twins σ lag m n) {name : Symbol}
    (hv : m.heap.ValidSymbol name) :
    Parallel Reply.rename σ lag m (m.handle (.getGlobal name))
      (n.handle (.getGlobal (name.rename σ))) := by
  have hget := ht.get?_globals name
  cases hfound : m.globals.get? name with
  | some v =>
    have hleft : m.getGlobal name = .ok (.ok v) := by rw [getGlobal, hfound]; rfl
    refine ht.parallel_ofValue hleft ?_
    rw [getGlobal, hget, hfound]
    rfl
  | none =>
    obtain ⟨text, htext⟩ := hv.textOf
    have htext' := (ht.cells.textOf_eq hv).trans htext
    have hleft : m.getGlobal name = .ok (.error (.undefinedVariable text)) := by
      rw [getGlobal, hfound]
      simp only [htext]
      rfl
    refine ht.parallel_ofValue hleft ?_
    rw [getGlobal, hget, hfound]
    simp only [Option.map_none, htext']
    rfl

theorem Twins.parallel_setGlobal (ht : Twins σ lag m n) {name : Symbol}
    (hv : m.heap.ValidSymbol name) (v : Value) :
    Parallel Reply.rename σ lag m (m.handle (.setGlobal name v))
      (n.handle (.setGlobal (name.rename σ) (v.rename σ))) := by
  have hinsert := ht.insert_globals name v
  obtain ⟨text, htext⟩ := hv.textOf
  have htext' := (ht.cells.textOf_eq hv).trans htext
  simp only [handle, setGlobal, hinsert, bind_assoc]
  rcases m.globals.insert name v with ⟨globals, isNew⟩
  refine .growths ?_
  cases isNew with
  | true =>
    have herase := Table.erase_rename σ.injective globals name
    simp only [if_true, bind_assoc, pure_bind]
    refine .lift htext htext' (.pure (ht.withGlobals ?_) rfl)
    rw [herase]
  | false => exact .pure (ht.withGlobals rfl) rfl

/-- The texts of corresponding names are the same. -/
theorem Twins.mapM_textOf (ht : Twins σ lag m n) {entries : List (Symbol × Value)}
    (hv : ∀ e ∈ entries, m.heap.ValidSymbol e.1) :
    ((entries.map (Table.renameEntry σ)).mapM fun (name, _) => n.heap.textOf name) =
      entries.mapM fun (name, _) => m.heap.textOf name := by
  induction entries with
  | nil => rfl
  | cons e rest ih =>
    obtain ⟨name, v⟩ := e
    have htext := ht.cells.textOf_eq (hv _ List.mem_cons_self)
    rw [List.map_cons, List.mapM_cons, List.mapM_cons, ih fun e he => hv e (List.mem_cons_of_mem _ he)]
    simp only [Table.renameEntry, htext]

theorem Twins.parallel_globalNames (ht : Twins σ lag m n) (hm : m.Sound) :
    Parallel Reply.rename σ lag m (m.handle .globalNames) (n.handle .globalNames) := by
  have hvalid : ∀ e ∈ m.globals.entries, m.heap.ValidSymbol e.1 := fun e he =>
    (hm.closed.globals e he).1
  have hnames : n.globalNames = m.globalNames := by
    have htexts := ht.mapM_textOf hvalid
    rw [← Table.entries_rename, ← ht.globals_eq] at htexts
    simp only [globalNames, htexts]
  obtain ⟨names, hok⟩ : ∃ names, m.globalNames = .ok names := by
    have htexts := Machine.mapM_textOf fun e he => hm.spells_of_valid (hvalid e he)
    exact ⟨_, by rw [globalNames, htexts]; rfl⟩
  exact .lift hok (hnames.trans hok) (.pure ht rfl)

theorem Twins.parallel_push (ht : Twins σ lag m n) (v : Value) :
    Parallel Reply.rename σ lag m (m.handle (.push v)) (n.handle (.push (v.rename σ))) :=
  .pure (ht.push v) rfl

theorem Twins.parallel_pop (ht : Twins σ lag m n) :
    Parallel Reply.rename σ lag m (m.handle .pop) (n.handle .pop) := by
  have htop : n.pop.2 = m.pop.2.map (Value.rename σ) := by
    rw [Machine.pop, ht.stack_eq, List.head?_map]
    rfl
  exact .pure ht.pop (congrArg Reply.top htop)

theorem Twins.parallel_peek (ht : Twins σ lag m n) (distance : Nat) :
    Parallel Reply.rename σ lag m (m.handle (.peek distance)) (n.handle (.peek distance)) := by
  have htop : n.peek distance = (m.peek distance).map (Value.rename σ) := by
    rw [Machine.peek, ht.stack_eq, List.getElem?_map]
    rfl
  exact .pure ht (congrArg Reply.top htop)

theorem Twins.parallel_defineGlobal (ht : Twins σ lag m n) (name : Symbol) (v : Value) :
    Parallel Reply.rename σ lag m (m.handle (.defineGlobal name v))
      (n.handle (.defineGlobal (name.rename σ) (v.rename σ))) := by
  have hinsert := ht.insert_globals name v
  simp only [handle, defineGlobal, hinsert, bind_assoc, pure_bind]
  exact .growths (.pure (ht.withGlobals rfl) rfl)

/-! ### Classes and instances -/

theorem Twins.parallel_defineMethod (ht : Twins σ lag m n) {cls : Ref .cls}
    (hv : m.heap.Valid cls) (name : Symbol) (method : Value) :
    Parallel Reply.rename σ lag m (m.handle (.defineMethod cls name method))
      (n.handle (.defineMethod (cls.rename σ) (name.rename σ) (method.rename σ))) := by
  obtain ⟨c, hc, hc', -⟩ := ht.cells.deref_cls hv
  simp only [handle, defineMethod, bind_assoc, pure_bind]
  refine .lift (Heap.access_of_deref hc) (Heap.access_of_deref hc') (.growths (.pure ?_ rfl))
  have hinsert : ((c.rename σ).methods.insert (name.rename σ) (method.rename σ)).1 =
      (c.methods.insert name method).1.rename σ :=
    congrArg Prod.fst (Table.insert_rename σ.injective c.methods name method)
  rw [hinsert]
  exact ht.replace (k := .cls) cls { c with methods := (c.methods.insert name method).1 }

theorem Twins.parallel_inherit (ht : Twins σ lag m n) {super : Value} {cls : Ref .cls}
    (hs : m.heap.ValidValue super) (hv : m.heap.Valid cls) :
    Parallel Reply.rename σ lag m (m.handle (.inherit super cls))
      (n.handle (.inherit (super.rename σ) (cls.rename σ))) := by
  cases super with
  | cls super =>
    obtain ⟨s, hsuper, hsuper', -⟩ := ht.cells.deref_cls hs
    obtain ⟨c, hc, hc', -⟩ := ht.cells.deref_cls hv
    have hrename : (Value.cls super).rename σ = .cls (super.rename σ) := rfl
    rw [hrename]
    simp only [handle, inherit, bind_assoc, pure_bind]
    refine .lift hsuper hsuper' (.lift (Heap.access_of_deref hc) (Heap.access_of_deref hc')
      (.growths (.pure ?_ rfl)))
    have hmerge : (c.rename σ).methods.merge (s.rename σ).methods =
        (c.methods.merge s.methods).rename σ :=
      Table.merge_rename σ.injective c.methods s.methods
    rw [hmerge]
    exact ht.replace (k := .cls) cls { c with methods := c.methods.merge s.methods }
  | nil | bool b | num x | str s | inst i => exact .pure ht rfl

theorem Twins.parallel_setProperty (ht : Twins σ lag m n) {receiver : Value}
    (hr : m.heap.ValidValue receiver) (name : Symbol) (v : Value) :
    Parallel Reply.rename σ lag m (m.handle (.setProperty receiver name v))
      (n.handle (.setProperty (receiver.rename σ) (name.rename σ) (v.rename σ))) := by
  cases receiver with
  | inst i =>
    obtain ⟨inst, hinst, hinst', -⟩ := ht.cells.deref_inst hr
    have hreceiver : (Value.inst i).rename σ = .inst (i.rename σ) := rfl
    rw [hreceiver]
    simp only [handle, setProperty, bind_assoc, pure_bind]
    refine .lift (Heap.access_of_deref hinst) (Heap.access_of_deref hinst')
      (.growths (.pure ?_ rfl))
    have hinsert : ((inst.rename σ).fields.insert (name.rename σ) (v.rename σ)).1 =
        (inst.fields.insert name v).1.rename σ :=
      congrArg Prod.fst (Table.insert_rename σ.injective inst.fields name v)
    rw [hinsert]
    exact ht.replace (k := .inst) i { inst with fields := (inst.fields.insert name v).1 }
  | nil | bool b | num x | str s | cls c => exact .pure ht rfl

/-- The property of an instance is found in corresponding places. -/
theorem Twins.getProperty_inst (ht : Twins σ lag m n) (hm : m.Sound) {i : Ref .inst}
    {name : Symbol} (hi : m.heap.Valid i) (hv : m.heap.ValidSymbol name) :
    ∃ answer : Except Refusal Value, m.getProperty (.inst i) name = .ok answer ∧
      n.getProperty (.inst (i.rename σ)) (name.rename σ) =
        .ok (answer.map (Value.rename σ)) := by
  obtain ⟨inst, hinst, hinst', ho⟩ := ht.cells.deref_inst hi
  obtain ⟨c, hc, hc', -⟩ := ht.cells.deref_cls (hm.closed.heap _ _ ho).1
  obtain ⟨text, htext⟩ := hv.textOf
  have htext' := (ht.cells.textOf_eq hv).trans htext
  have hcls : (inst.rename σ).cls = inst.cls.rename σ := rfl
  have hfield : (inst.rename σ).fields.get? (name.rename σ) =
      (inst.fields.get? name).map (Value.rename σ) :=
    Table.get?_rename σ.injective inst.fields name
  have hmethod : (c.rename σ).methods.get? (name.rename σ) =
      (c.methods.get? name).map (Value.rename σ) :=
    Table.get?_rename σ.injective c.methods name
  simp only [getProperty, hinst, hinst', hfield, bind, Except.bind]
  cases inst.fields.get? name with
  | some v => exact ⟨.ok v, rfl, rfl⟩
  | none =>
    simp only [hcls, hc, hc', hmethod, Option.map_none]
    cases c.methods.get? name with
    | some v => exact ⟨.ok v, rfl, rfl⟩
    | none =>
      simp only [htext, htext', Option.map_none]
      exact ⟨.error (.undefinedProperty text), rfl, rfl⟩

theorem Twins.parallel_getProperty (ht : Twins σ lag m n) (hm : m.Sound) {receiver : Value}
    {name : Symbol} (hr : m.heap.ValidValue receiver) (hv : m.heap.ValidSymbol name) :
    Parallel Reply.rename σ lag m (m.handle (.getProperty receiver name))
      (n.handle (.getProperty (receiver.rename σ) (name.rename σ))) := by
  cases receiver with
  | inst i =>
    obtain ⟨answer, hleft, hright⟩ := ht.getProperty_inst hm hr hv
    exact ht.parallel_ofValue hleft hright
  | nil | bool b | num x | str s | cls c => exact .pure ht rfl

theorem Twins.parallel_display (ht : Twins σ lag m n) (hm : m.Sound) {v : Value}
    (hv : m.heap.ValidValue v) :
    Parallel Reply.rename σ lag m (m.handle (.display v)) (n.handle (.display (v.rename σ))) := by
  obtain ⟨text, htext⟩ := hm.closed.heap.display hv
  have htext' := (ht.cells.display_eq hm.closed.heap hv).trans htext
  exact .lift htext htext' (.pure ht rfl)

/-! ## All requests -/

/-- **Twins do the same.** They answer a request with corresponding operands by corresponding
replies, release corresponding objects, and are twins again. -/
theorem Twins.handle (ht : Twins σ lag m n) (hm : m.Sound) (hn : n.Sound) {request : Request}
    (ha : m.Accepts request) :
    Parallel Reply.rename σ lag m (m.handle request) (n.handle (request.rename σ)) := by
  cases request with
  | push v => exact ht.parallel_push v
  | pop => exact ht.parallel_pop
  | peek distance => exact ht.parallel_peek distance
  | intern text => exact (ht.intern hm hn text).map (f := Reply.symbol) fun _ _ => rfl
  | concatenate a b =>
    exact (ht.concatenate hm hn ha.1 ha.2).map (f := Reply.symbol) fun _ _ => rfl
  | defineGlobal name v => exact ht.parallel_defineGlobal name v
  | getGlobal name => exact ht.parallel_getGlobal ha
  | setGlobal name v => exact ht.parallel_setGlobal ha.1 v
  | globalNames => exact ht.parallel_globalNames hm
  | newClass name =>
    have hname : m.heap.ValidValue (.str name) := ha
    have hallocate := ht.allocateHolding hm hn hname (k := .cls) (p := { name })
      fun _ hv => ⟨hv, Heap.validTable_empty⟩
    rw [show Kind.rename σ .cls { name } = { name := name.rename σ } from
      congrArg (Class.mk _) (Table.rename_empty σ)] at hallocate
    exact hallocate.map (f := Reply.cls) fun _ _ => rfl
  | newInstance cls =>
    have hcls : m.heap.ValidValue (.cls cls) := ha
    have hallocate := ht.allocateHolding hm hn hcls (k := .inst) (p := { cls })
      fun _ hv => ⟨hv, Heap.validTable_empty⟩
    rw [show Kind.rename σ .inst { cls } = { cls := cls.rename σ } from
      congrArg (Instance.mk _) (Table.rename_empty σ)] at hallocate
    exact hallocate.map (f := Reply.inst) fun _ _ => rfl
  | defineMethod cls name method => exact ht.parallel_defineMethod ha.1 name method
  | inherit super cls => exact ht.parallel_inherit ha.1 ha.2
  | getProperty receiver name => exact ht.parallel_getProperty hm ha.1 ha.2
  | setProperty receiver name v => exact ht.parallel_setProperty ha.1 name v
  | display v => exact ht.parallel_display hm ha
  | collect => exact ht.parallel_collect hm hn
  | reset => exact ht.parallel_reset hm hn

end Machine

end ObjectHeap
