import ObjectHeap.Proofs.Machine.Reset
import ObjectHeap.Proofs.Program.Transparency
import ObjectHeap.Proofs.Renaming.Request

/-!
# A reset machine is as good as new

A program runs on a machine that has been reset as it runs on a new one. Both are vacant, hence
twins, and each step of the program makes corresponding requests of them, so they stay twins. What
was left in the reset machine shows in the slots that new objects get and nowhere else: not in what
is replied, nor in when collections happen, since these depend on what is charged.

That the operands of both sessions correspond is not quite immediate. A reply may be used as long as
its slot has not been released since, and slots are released in both sessions, each counting its
own. But the two run one program, so they track one abstract run (`Session.Tracks`), in which every
reference that may still be used has an object; and of objects it is known that they are released
together.
-/

set_option autoImplicit false

namespace ObjectHeap

/-- The value that is replied is renamed with the reply. -/
theorem Reply.value?_rename (σ : Nat → Nat) (reply : Reply) :
    (reply.rename σ).value? = reply.value?.map (Value.rename σ) := by
  cases reply <;> rfl

namespace Machine

/-- What a program could find out about a machine without its replies, and how often it has
collected. -/
structure InStep (lag : Nat) (m n : Machine) : Prop where
  bytes_eq : n.heap.bytes = m.heap.bytes
  objectCount_eq : n.heap.objectCount = m.heap.objectCount
  due_eq : n.heap.due = m.heap.due
  threshold_eq : n.heap.threshold = m.heap.threshold
  globals_capacity_eq : n.globals.capacity = m.globals.capacity
  globals_used_eq : n.globals.used = m.globals.used
  globals_size_eq : n.globals.size = m.globals.size
  cycles_eq : n.heap.cycles = m.heap.cycles + lag

theorem Twins.inStep {m n : Machine} {σ : Equiv.Perm Nat} {lag : Nat} (ht : Twins σ lag m n)
    (hm : m.Sound) (hn : n.Sound) : m.InStep lag n where
  bytes_eq := ht.bytes_eq hm hn
  objectCount_eq := ht.cells.objectCount_eq
  due_eq := ht.due_eq hm hn
  threshold_eq := ht.threshold_eq
  globals_capacity_eq := by rw [ht.globals_eq, Table.capacity_rename]
  globals_used_eq := by rw [ht.globals_eq]; rfl
  globals_size_eq := by rw [ht.globals_eq]; rfl
  cycles_eq := ht.cycles_eq

end Machine

namespace Session

variable {s t : Session} {σ : Equiv.Perm Nat} {lag : Nat} {ids ids' : Nat → Nat}
  {a : Abstract.Session}

/-- The second session is the first with the slots renamed. -/
structure Mirrors (σ : Equiv.Perm Nat) (lag : Nat) (s t : Session) : Prop where
  twins : Machine.Twins σ lag s.machine t.machine
  /-- The last reply is the same, and so was every reply when it was given. -/
  latest : t.replies.getLast?.map Reported.reply =
    s.replies.getLast?.map fun r => r.reply.rename σ
  /-- The same replies may still be used, and they have corresponding values. -/
  current : ∀ step, t.current? step = (s.current? step).map (Value.rename σ)

/-! ## Operands -/

theorem Mirrors.value? (hm : s.Mirrors σ lag t) (operand : Operand) :
    t.value? operand = (s.value? operand).map (Value.rename σ) := by
  cases operand with
  | nil | bool b | num x => rfl
  | reply step => exact hm.current step

theorem Mirrors.symbol? (hm : s.Mirrors σ lag t) (operand : Operand) :
    t.symbol? operand = (s.symbol? operand).map (Symbol.rename σ) := by
  rw [Session.symbol?, Session.symbol?, hm.value?]
  rcases s.value? operand with _ | _ | _ | _ | _ | _ | _ <;> rfl

theorem Mirrors.cls? (hm : s.Mirrors σ lag t) (operand : Operand) :
    t.cls? operand = (s.cls? operand).map (Ref.rename σ) := by
  rw [Session.cls?, Session.cls?, hm.value?]
  rcases s.value? operand with _ | _ | _ | _ | _ | _ | _ <;> rfl

/-- Sessions that track one run have the same texts, and amount to corresponding requests. -/
theorem Mirrors.request? (hm : s.Mirrors σ lag t) (hs : s.Tracks ids a) (ht : t.Tracks ids' a)
    (instruction : Instruction) :
    t.request? instruction = (s.request? instruction).map (Request.rename σ) := by
  have htext : ∀ operand, t.text? operand = s.text? operand := fun operand =>
    (ht.text?_eq operand).trans (hs.text?_eq operand).symm
  cases instruction <;>
    simp only [Session.request?, hm.value?, hm.symbol?, hm.cls?, htext, bind, Option.bind_map,
      Option.map_bind, Option.map_some, pure, Function.comp_def, Request.rename]

/-! ## Steps -/

section Extend

variable {machine : Machine} {releases : List Nat} {reply : Reply}

/-- A reply may still be used if it could be used before and its slot has not been released now. -/
theorem Tracks.current?_extend_iff (hs : s.Tracks ids a) {step : Nat} {v : Value}
    (hlt : step < s.replies.length) :
    (s.extend machine releases reply).current? step = some v ↔
      s.current? step = some v ∧ ∀ slot, v.RefersTo slot → slot ∉ releases := by
  refine ⟨hs.current?_extend hlt, ?_⟩
  rintro ⟨hcurrent, hkept⟩
  obtain ⟨r, hr, hvalue, heq⟩ := current?_eq_some_iff.1 hcurrent
  refine current?_eq_some_iff.2 ⟨r, ?_, hvalue, ?_⟩
  · rwa [Session.extend, List.getElem?_append_left hlt]
  · have hnone : (v.target?.map releases.count).getD 0 = 0 := by
      cases htarget : v.target? with
      | none => rfl
      | some slot =>
        have hrefers : v.RefersTo slot := Value.mem_target?.1 (Option.mem_toList.2 htarget)
        exact List.count_eq_zero.2 (hkept slot hrefers)
    rw [releasesOf_extend, heq, hnone, Nat.add_zero]

/-- The value that is replied now may be used. -/
theorem current?_extend_length :
    (s.extend machine releases reply).current? s.replies.length = reply.value? := by
  apply Option.ext
  intro v
  rw [current?_eq_some_iff, extend, List.getElem?_concat_length]
  constructor
  · rintro ⟨r, hr, hvalue, -⟩
    cases hr
    exact hvalue
  · intro hvalue
    refine ⟨_, rfl, hvalue, ?_⟩
    rw [hvalue]
    rfl

theorem current?_of_length_le {step : Nat} (hle : s.replies.length ≤ step) :
    s.current? step = none := by
  rw [current?, List.getElem?_eq_none hle]
  rfl

theorem current?_of_length_extend_le {step : Nat} (hlt : s.replies.length < step) :
    (s.extend machine releases reply).current? step = none := by
  apply current?_of_length_le
  rw [Session.extend, List.length_append]
  exact hlt

end Extend

/-- A step that does not stop is a step of the run that is tracked. -/
theorem Tracks.of_step (hs : s.Tracks ids a) {instruction : Instruction} {after : Session}
    (hstep : s.step instruction = .ok after) :
    ∃ ids' a', a.step instruction = some a' ∧ after.Tracks ids' a' := by
  rcases hs.step instruction with hstop | hstop | ⟨after', ids', a', hstep', ha, hs'⟩
  · rw [hstep] at hstop
    cases hstop
  · rw [hstep] at hstop
    cases hstop
  · rw [hstep] at hstep'
    cases hstep'
    exact ⟨ids', a', ha, hs'⟩

/-- What may still be used has an object. -/
theorem Tracks.occupied (hs : s.Tracks ids a) {step slot : Nat} {v : Value}
    (hv : s.current? step = some v) (hslot : v.RefersTo slot) : s.machine.heap.Occupied slot := by
  obtain ⟨w, -, hstands⟩ := hs.values step v hv
  exact hstands.validValue.occupied hslot

/-- Of the replies that could be used before, the same can still be used, and where they can the new
permutation renames them as the old one did. -/
theorem Mirrors.current_extend (hm : s.Mirrors σ lag t) (hs : s.Tracks ids a)
    (ht : t.Tracks ids' a) {τ : Equiv.Perm Nat} {machine machine' : Machine}
    {releases releases' : List Nat} {reply reply' : Reply}
    (hagree : ∀ slot, s.machine.heap.Occupied slot → slot ∉ releases → τ slot = σ slot)
    (hreleases : ∀ slot, s.machine.heap.Occupied slot → (slot ∈ releases ↔ σ slot ∈ releases'))
    {step : Nat} (hlt : step < s.replies.length) (hlt' : step < t.replies.length) :
    (t.extend machine' releases' reply').current? step =
      ((s.extend machine releases reply).current? step).map (Value.rename τ) := by
  have hkept : ∀ v, s.current? step = some v →
      ((∀ slot, (v.rename σ).RefersTo slot → slot ∉ releases') ↔
        ∀ slot, v.RefersTo slot → slot ∉ releases) := by
    intro v hv
    simp only [Value.refersTo_rename]
    constructor
    · intro hkept slot hslot hr
      exact hkept (σ slot) ⟨slot, hslot, rfl⟩ ((hreleases slot (hs.occupied hv hslot)).1 hr)
    · rintro hkept _ ⟨slot, hslot, rfl⟩ hr
      exact hkept slot hslot ((hreleases slot (hs.occupied hv hslot)).2 hr)
  have hrename : ∀ v, s.current? step = some v → (∀ slot, v.RefersTo slot → slot ∉ releases) →
      v.rename τ = v.rename σ := fun v hv hkept =>
    Value.rename_congr fun slot hslot => hagree slot (hs.occupied hv hslot) (hkept slot hslot)
  apply Option.ext
  intro w
  rw [ht.current?_extend_iff hlt', hm.current, Option.map_eq_some_iff, Option.map_eq_some_iff]
  simp only [hs.current?_extend_iff hlt]
  constructor
  · rintro ⟨⟨v, hv, rfl⟩, hunreleased⟩
    have hold := (hkept v hv).1 hunreleased
    exact ⟨v, ⟨hv, hold⟩, hrename v hv hold⟩
  · rintro ⟨v, ⟨hv, hold⟩, rfl⟩
    rw [hrename v hv hold]
    exact ⟨⟨v, hv, rfl⟩, (hkept v hv).2 hold⟩

theorem Mirrors.extend (hm : s.Mirrors σ lag t) (hs : s.Tracks ids a) (ht : t.Tracks ids' a)
    {τ : Equiv.Perm Nat} {machine machine' : Machine} {releases releases' : List Nat}
    {reply : Reply} (htwins : Machine.Twins τ lag machine machine')
    (hagree : ∀ slot, s.machine.heap.Occupied slot → slot ∉ releases → τ slot = σ slot)
    (hreleases : ∀ slot, s.machine.heap.Occupied slot → (slot ∈ releases ↔ σ slot ∈ releases')) :
    (s.extend machine releases reply).Mirrors τ lag
      (t.extend machine' releases' (reply.rename τ)) where
  twins := htwins
  latest := by
    rw [Session.extend, Session.extend, List.getLast?_concat, List.getLast?_concat]
    rfl
  current step := by
    have hlength : t.replies.length = s.replies.length := ht.length_eq.trans hs.length_eq.symm
    rcases Nat.lt_trichotomy step s.replies.length with hlt | rfl | hgt
    · exact hm.current_extend hs ht hagree hreleases hlt (hlength ▸ hlt)
    · rw [current?_extend_length, ← hlength, current?_extend_length, Reply.value?_rename]
    · rw [current?_of_length_extend_le hgt, current?_of_length_extend_le (hlength ▸ hgt)]
      rfl

/-- A step stops both sessions in the same way, or they mirror each other after it. -/
theorem Mirrors.step (hm : s.Mirrors σ lag t) (hs : s.Tracks ids a) (ht : t.Tracks ids' a)
    (instruction : Instruction) :
    (∃ why, s.step instruction = .error why ∧ t.step instruction = .error why) ∨
    ∃ τ after after', s.step instruction = .ok after ∧ t.step instruction = .ok after' ∧
      after.Mirrors τ lag after' := by
  have hrequest := hm.request? hs ht instruction
  cases hq : s.request? instruction with
  | none =>
    rw [hq] at hrequest
    exact .inl ⟨.unusable, by rw [Session.step, hq], by rw [Session.step, hrequest]; rfl⟩
  | some request =>
    rw [hq] at hrequest
    obtain ⟨abstract, -, hstands⟩ := hs.request instruction request hq
    have haccepts := Machine.accepts_of_stands hstands
    rcases hm.twins.handle hs.refines.sound ht.refines.sound haccepts with
      ⟨hfault, hfault'⟩ | ⟨τ, machine, machine', reply, hok, hok', htwins, hagree, hreleases⟩
    · refine .inl ⟨.fault .thresholdOverflow, ?_, ?_⟩
      · simp only [Session.step, hq, hfault]
      · simp only [Session.step, hrequest, Option.map_some, hfault']
    · have hmirrors : (s.extend machine _ reply).Mirrors τ lag
          (t.extend machine' _ (reply.rename τ)) := hm.extend hs ht htwins hagree hreleases
      refine .inr ⟨τ, _, _, ?_, ?_, hmirrors⟩
      · simp only [Session.step, hq, hok]
      · simp only [Session.step, hrequest, Option.map_some, hok']

/-! ## Runs -/

/-- Two sessions of one program have stopped for the same reason, or one mirrors the other. -/
def FareAlike (lag : Nat) (x y : Except Stop Session) : Prop :=
  (∃ why, x = .error why ∧ y = .error why) ∨
  ∃ σ s t, x = .ok s ∧ y = .ok t ∧ s.Mirrors σ lag t ∧ s.Agrees t ∧
    s.machine.InStep lag t.machine

/-- Sessions that mirror each other and track one run go on doing so. -/
theorem Mirrors.run (hm : s.Mirrors σ lag t) (hs : s.Tracks ids a) (ht : t.Tracks ids' a)
    (program : List Instruction) : FareAlike lag (s.run program) (t.run program) := by
  -- Each step hands on another permutation and other numbers.
  induction program generalizing s t σ ids ids' a with
  | nil =>
    exact .inr ⟨σ, s, t, rfl, rfl, hm, hs.agrees ht,
      hm.twins.inStep hs.refines.sound ht.refines.sound⟩
  | cons instruction rest ih =>
    rcases hm.step hs ht instruction with
      ⟨why, hstop, hstop'⟩ | ⟨τ, after, after', hstep, hstep', hm'⟩
    · exact .inl ⟨why, by rw [Session.run, hstop]; rfl, by rw [Session.run, hstop']; rfl⟩
    · obtain ⟨ids₁, a₁, ha, hs'⟩ := hs.of_step hstep
      obtain ⟨ids₂, a₂, ha', ht'⟩ := ht.of_step hstep'
      obtain rfl : a₁ = a₂ := Option.some.inj (ha.symm.trans ha')
      have hrun : s.run (instruction :: rest) = after.run rest := by rw [Session.run, hstep]; rfl
      have hrun' : t.run (instruction :: rest) = after'.run rest := by
        rw [Session.run, hstep']
        rfl
      rw [hrun, hrun']
      exact ih hm' hs' ht'

/-! ## Resets -/

/-- On a vacant machine nothing stands for anything, so a session can begin there. -/
theorem tracks_of_vacant {machine : Machine} {policy : Policy} (hm : machine.Sound)
    (hv : machine.Vacant policy) (ids : Nat → Nat) : Tracks { machine } ids {} where
  refines :=
    { sound := hm
      stack := by rw [hv.stack_eq]; exact .nil
      globals := by rw [hv.globals_eq]; exact Heap.tabulates_empty
      objects := fun slot o ho =>
        absurd (Heap.occupied_iff_object?.2 ⟨o, ho⟩) (hv.not_occupied slot)
      distinct := fun slot _ ⟨o, ho, _⟩ =>
        absurd (Heap.occupied_iff_object?.2 ⟨o, ho⟩) (hv.not_occupied slot) }
  shapes := rfl
  values step v hv := by
    rw [current?_of_length_le (Nat.zero_le step)] at hv
    cases hv
  counts r hr := absurd hr List.not_mem_nil

end Session

/-- **A reset machine is as good as new.** A reset of any machine that arises completes and leaves
nothing in use. After that every program fares as on a new machine: it stops at the same point for
the same reason, or is replied the same but for slots. In both cases the machines are charged the
same all the way, and collect at the same steps. -/
theorem Machine.Arises.reset_as_new {policy : Policy} {m : Machine} (ha : m.Arises policy) :
    ∃ after, (m.handle .reset).result = .ok (after, .done) ∧ after.Vacant policy ∧
      ∀ program, Session.FareAlike after.heap.cycles ((Session.new policy).run program)
        (Session.run { machine := after } program) := by
  obtain ⟨after, hreset, hvacant⟩ := ha.sound.reset
  rw [ha.policy_eq] at hvacant
  have hok : (m.handle .reset).result = .ok (after, .done) := by
    rw [Machine.handle, Outcome.result_bind, hreset]
    rfl
  have haccepts : m.Accepts .reset := trivial
  have hsound := (ha.handle haccepts hok).sound
  refine ⟨after, hok, hvacant, ?_⟩
  intro program
  have htwins := (vacant_new policy).twins hvacant (Nat.zero_add _).symm (Equiv.refl Nat)
  have hmirrors : (Session.new policy).Mirrors (Equiv.refl Nat) after.heap.cycles
      { machine := after } := ⟨htwins, rfl, fun _ => rfl⟩
  exact hmirrors.run (Session.tracks_new policy id) (Session.tracks_of_vacant hsound hvacant id)
    program

/-- The reset of a machine with a name, a class and an instance leaves three free slots and, among
the interned strings, a tombstone. The first name that a program interns then goes into the slot
that was released last, and not into the first one. -/
theorem Machine.reset_as_new_pair : ∃ after,
    (handle { heap := Heap.pair } .reset).result = .ok (after, .done) ∧ after.Vacant {} ∧
    after.heap.free = [2, 1, 0] ∧ after.heap.strings.used = 1 ∧ ∃ σ s t,
      (Session.new {}).run Session.forgetful = .ok s ∧
      Session.run { machine := after } Session.forgetful = .ok t ∧ s.Mirrors σ 1 t ∧
      s.machine.InStep 1 t.machine ∧ (s.current? 0).bind Value.target? = some 0 ∧
      (t.current? 0).bind Value.target? = some 2 := by
  obtain ⟨after, hok, hvacant, hprograms⟩ := Arises.reset_as_new arises_pair
  have hleft : (handle { heap := Heap.pair } .reset).result.map (fun x =>
      (x.1.heap.free, x.1.heap.strings.used, x.1.heap.cycles)) = .ok ([2, 1, 0], 1, 1) := by
    decide +kernel
  have hnew : ((Session.new {}).run Session.forgetful).map
      (fun s => (s.current? 0).bind Value.target?) = .ok (some 0) := by
    decide +kernel
  have hreset : (handle { heap := Heap.pair } .reset).result.map (fun x =>
      (Session.run { machine := x.1 } Session.forgetful).map
        fun t => (t.current? 0).bind Value.target?) = .ok (.ok (some 2)) := by
    decide +kernel
  rw [hok] at hleft hreset
  obtain ⟨hfree, hused, hcycles⟩ : after.heap.free = [2, 1, 0] ∧ after.heap.strings.used = 1 ∧
      after.heap.cycles = 1 := by
    simpa [Except.map] using hleft
  have hfare := hprograms Session.forgetful
  rw [hcycles] at hfare
  rcases hfare with ⟨why, hstop, -⟩ | ⟨σ, s, t, hs, ht, hmirrors, -, hinstep⟩
  · rw [hstop] at hnew
    cases hnew
  · rw [hs] at hnew
    have hslot : (Session.run { machine := after } Session.forgetful).map
        (fun t => (t.current? 0).bind Value.target?) = .ok (some 2) := Except.ok.inj hreset
    rw [ht] at hslot
    exact ⟨after, hok, hvacant, hfree, hused, σ, s, t, hs, ht, hmirrors, hinstep,
      Except.ok.inj hnew, Except.ok.inj hslot⟩

end ObjectHeap
