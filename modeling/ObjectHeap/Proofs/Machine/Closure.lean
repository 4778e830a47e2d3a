import ObjectHeap.Proofs.Machine.Steps

/-!
# No dangling references

Every machine that arises is sound, since every step keeps a sound machine sound and replies nothing
but valid references (`Sound.step`). Steps that collect on the way are no exception: what they still
need is on the stack by then, and a new object refers to that alone.

So nothing that is stored in a machine dangles, whether or not it can be reached, and no request
with valid operands can end in a fault but the overflow of a threshold (`Arises.no_dangling`). The
accounts of a machine are right as well: what a collection takes off the bytes has been charged
before.
-/

set_option autoImplicit false

namespace ObjectHeap

namespace Machine

variable {m : Machine}

/-- Every slot number that is stored anywhere is the number of a slot. -/
structure InRange (m : Machine) : Prop where
  free : ∀ slot ∈ m.heap.free, slot < m.heap.cells.size
  grey : ∀ slot ∈ m.heap.grey, slot < m.heap.cells.size
  strings : ∀ key, m.heap.Interned key → key.str.slot < m.heap.cells.size
  roots : ∀ slot ∈ m.roots, slot < m.heap.cells.size
  objects : ∀ slot o target, m.heap.object? slot = some o → o.RefersTo target →
    target < m.heap.cells.size

theorem Sound.inRange (hm : m.Sound) : m.InRange where
  free slot hslot := ((hm.heap.slotted.mem_iff slot).1 hslot).1
  grey slot hslot := by
    rw [hm.clean.grey_eq] at hslot
    cases hslot
  strings key hkey := (hm.canonical.occupied hkey).lt_size
  roots slot hslot := by
    rcases mem_roots.1 hslot with ⟨v, hv, href⟩ | ⟨key, v, he, rfl | href⟩
    · exact ((hm.closed.stack v hv).occupied href).lt_size
    · exact (hm.closed.globals _ he).1.occupied.lt_size
    · exact ((hm.closed.globals _ he).2.occupied href).lt_size
  objects slot o target ho ht := ((hm.closed.heap slot o ho).occupied ht).lt_size

/-! ## What one step keeps -/

/-- An operand stays valid over a collection while it is on the stack. -/
theorem Cleared.validValue_operand {operand : Value} {released : List Nat} {roomy : Machine}
    (hc : (m.push operand).Cleared released roomy) (hv : m.heap.ValidValue operand) :
    roomy.heap.ValidValue operand :=
  hv.keeps fun _ hslot => hc.keeps_stack List.mem_cons_self hslot

/-- Allocating on behalf of an operand keeps a machine sound, if the new object refers to the
operand alone. -/
theorem Sound.placeHolding (hm : m.Sound) {operand : Value} (hv : m.heap.ValidValue operand)
    {released : List Nat} {roomy : Machine} (hc : (m.push operand).Cleared released roomy)
    {o : Object} (hstr : ∀ s, o ≠ .str s) (hb : o.HasBuiltTables)
    (ho : roomy.heap.ValidObject o) :
    Sound { roomy with heap := (roomy.heap.place o).1, stack := m.stack } := by
  have hroomy := (hm.push hv).cleared hc
  -- Without the operand the stack is the one before, whose values have all been kept.
  refine (hroomy.place hstr hb ho).withStack ?_
  intro v hmem
  have hvalid : roomy.heap.ValidValue v :=
    hroomy.closed.stack v (by rw [hc.stack_eq]; exact List.mem_cons_of_mem _ hmem)
  exact hvalid.keeps fun slot _ => Heap.keeps_place hc.heap.slotted o slot

theorem valid_place {h : Heap} (hs : h.Slotted) {k : Kind} (p : k.Payload) :
    (h.place (.of k p)).1.Valid (⟨(h.place (.of k p)).2⟩ : Ref k) :=
  ⟨p, by rw [Heap.object?_place hs, if_pos rfl]⟩

/-- One step keeps a machine sound, and what it replies is valid. -/
theorem Sound.step (hm : m.Sound) {request : Request} (ha : m.Accepts request)
    {released : List Nat} {after : Machine} {reply : Reply}
    (hstep : m.Step released request after reply) : after.Sound ∧ after.Vouches reply := by
  induction hstep with
  | push v => exact ⟨hm.push ha, trivial⟩
  | pop =>
    exact ⟨hm.withStack fun v hv => hm.closed.stack v (List.mem_of_mem_tail hv),
      fun v hv => hm.closed.stack v (List.mem_of_mem_head? hv)⟩
  | peek distance => exact ⟨hm, fun v hv => hm.closed.stack v (List.mem_of_getElem? hv)⟩
  | internOld hspells => exact ⟨hm, hspells.validSymbol⟩
  | internNew _ hnone hc =>
    exact ⟨(hm.cleared hc).withString rfl hnone,
      (Heap.spells_withString_self hc.heap rfl).validSymbol⟩
  -- The operands are read before anything is released, and not used after it.
  | concatenate _ _ _ ih => exact ih trivial
  | defineGlobal name v =>
    exact ⟨hm.withGlobals (.insert _ _ hm.globals)
      (hm.closed.globals.insert hm.globals.layout ha.1 ha.2), trivial⟩
  | getGlobal hget =>
    exact ⟨hm, (hm.closed.globals _ ((Table.get?_eq_some_iff hm.globals.layout).1 hget)).2⟩
  | getUndefined => exact ⟨hm, trivial⟩
  | setGlobal v _ =>
    exact ⟨hm.withGlobals (.insert _ _ hm.globals)
      (hm.closed.globals.insert hm.globals.layout ha.1 ha.2), trivial⟩
  | @setUndefined name _ v _ _ =>
    have hb := Table.Built.insert name v hm.globals
    exact ⟨hm.withGlobals (.erase _ hb)
      ((hm.closed.globals.insert hm.globals.layout ha.1 ha.2).erase hb.layout), trivial⟩
  | globalNames => exact ⟨hm, trivial⟩
  | @newClass name roomy hc =>
    have hv : m.heap.ValidValue (.str name) := ha
    have hname : roomy.heap.ValidSymbol name := hc.validValue_operand hv
    exact ⟨hm.placeHolding hv hc nofun .empty ⟨hname, Heap.validTable_empty⟩,
      valid_place hc.heap.slotted (k := .cls) _⟩
  | @newInstance cls roomy hc =>
    have hv : m.heap.ValidValue (.cls cls) := ha
    have hcls : roomy.heap.Valid cls := hc.validValue_operand hv
    exact ⟨hm.placeHolding hv hc nofun .empty ⟨hcls, Heap.validTable_empty⟩,
      valid_place hc.heap.slotted (k := .inst) _⟩
  | @defineMethod cls c name method ho =>
    have hc := hm.closed.heap _ _ ho
    have hb : c.methods.Built := hm.heap.tables _ _ ho
    exact ⟨hm.replace (k := .cls) (p := c) (by decide) ho (Table.Built.insert name method hb)
      ⟨hc.1, hc.2.insert hb.layout ha.2.1 ha.2.2⟩, trivial⟩
  | @inherit super cls s c hos hoc =>
    have hs := hm.closed.heap _ _ hos
    have hc := hm.closed.heap _ _ hoc
    have hbs : s.methods.Built := hm.heap.tables _ _ hos
    have hbc : c.methods.Built := hm.heap.tables _ _ hoc
    exact ⟨hm.replace (k := .cls) (p := c) (by decide) hoc (Table.Built.merge hbc hbs)
      ⟨hc.1, hc.2.merge hbc.layout hs.2 hbs.layout⟩, trivial⟩
  | inheritNoClass => exact ⟨hm, trivial⟩
  | @getField i name inst v ho hget =>
    have hb : inst.fields.Built := hm.heap.tables _ _ ho
    exact ⟨hm, ((hm.closed.heap _ _ ho).2 _ ((Table.get?_eq_some_iff hb.layout).1 hget)).2⟩
  | @getMethod i name inst c v _ _ ho hget =>
    have hb : c.methods.Built := hm.heap.tables _ _ ho
    exact ⟨hm, ((hm.closed.heap _ _ ho).2 _ ((Table.get?_eq_some_iff hb.layout).1 hget)).2⟩
  | getUnknown => exact ⟨hm, trivial⟩
  | getNoInstance => exact ⟨hm, trivial⟩
  | @setField i inst name v ho =>
    have hi := hm.closed.heap _ _ ho
    have hb : inst.fields.Built := hm.heap.tables _ _ ho
    exact ⟨hm.replace (k := .inst) (p := inst) (by decide) ho (Table.Built.insert name v hb)
      ⟨hi.1, hi.2.insert hb.layout ha.2.1 ha.2.2⟩, trivial⟩
  | setNoInstance => exact ⟨hm, trivial⟩
  | display => exact ⟨hm, trivial⟩
  | collect hc => exact ⟨hm.cleared hc, trivial⟩
  | reset hc =>
    have hempty := hm.withGlobals .empty Heap.validTable_empty
    exact ⟨(hempty.withStack fun v hv => absurd hv List.not_mem_nil).cleared hc, trivial⟩

/-! ## All machines -/

/-- Every machine that arises is sound. -/
theorem Arises.sound {policy : Policy} (ha : m.Arises policy) : m.Sound := by
  induction ha with
  | new => exact sound_new policy
  | handle _ haccepts hok ih => exact (ih.step haccepts (ih.step_of_handle haccepts hok)).1

/-- **No dangling references.** In every machine that arises all that is stored is valid, and the
bytes are what the objects were charged, so that none can be released at a loss. A request with
valid operands ends in no fault but the overflow of a threshold, and what it replies and leaves
behind is valid again. -/
theorem Arises.no_dangling {policy : Policy} (ha : m.Arises policy) :
    m.Closed ∧ m.InRange ∧ m.heap.Balanced ∧ ∀ request, m.Accepts request →
      (∀ f, (m.handle request).result = .error f → f = .thresholdOverflow) ∧
      ∀ after reply, (m.handle request).result = .ok (after, reply) →
        after.Closed ∧ after.InRange ∧ after.heap.Balanced ∧ after.Vouches reply := by
  have hm := ha.sound
  refine ⟨hm.closed, hm.inRange, hm.heap.balanced, fun request haccepts => ⟨?_, ?_⟩⟩
  · intro f hf
    rcases hm.handle_cases haccepts with hfault | ⟨after, reply, hok, -⟩
    · rw [hfault] at hf
      cases hf
      rfl
    · rw [hok] at hf
      cases hf
  · intro after reply hok
    have hafter := hm.step haccepts (hm.step_of_handle haccepts hok)
    exact ⟨hafter.1.closed, hafter.1.inRange, hafter.1.heap.balanced, hafter.2⟩

/-- A machine with a name that is not rooted. -/
def named : Machine := { heap := ((Heap.new {}).withString (.ofText "A" 0)).1 }

theorem arises_named : named.Arises {} :=
  .handle .new (show Accepts _ (.intern "A") from trivial)
    (show _ = Except.ok (named, .symbol Heap.ringName) by decide +kernel)

theorem validSymbol_named : named.heap.ValidSymbol Heap.ringName := ⟨.ofText "A" 0, rfl, rfl⟩

/-- A class of that name is made. -/
theorem arises_classed :
    Arises {} { heap := (named.heap.place (.cls { name := Heap.ringName })).1 } :=
  .handle arises_named (show Accepts _ (.newClass Heap.ringName) from validSymbol_named)
    (show _ = Except.ok (_, .cls ⟨1⟩) by decide +kernel)

/-- A machine with a name, a class and an instance, none of which is rooted. -/
theorem arises_pair : Arises {} { heap := Heap.pair } :=
  .handle arises_classed (show Accepts _ (.newInstance ⟨1⟩) from ⟨{ name := Heap.ringName }, rfl⟩)
    (show _ = Except.ok (_, .inst ⟨2⟩) by decide +kernel)

/-- Another instance of the class is made, and the reference to it is valid. -/
theorem no_dangling_pair : Closed { heap := Heap.pair } ∧ ∃ after,
    (handle { heap := Heap.pair } (.newInstance ⟨1⟩)).result = .ok (after, .inst ⟨3⟩) ∧
    after.Closed ∧ after.heap.Valid (⟨3⟩ : Ref .inst) := by
  have hall := Arises.no_dangling arises_pair
  have hok : (handle { heap := Heap.pair } (.newInstance ⟨1⟩)).result =
      .ok ({ heap := (Heap.pair.place (.inst { cls := ⟨1⟩ })).1 }, .inst ⟨3⟩) := by
    decide +kernel
  have hafter := (hall.2.2.2 (.newInstance ⟨1⟩) ⟨{ name := Heap.ringName }, rfl⟩).2 _ _ hok
  exact ⟨hall.1, _, hok, hafter.1, hafter.2.2.2⟩

end Machine

end ObjectHeap
