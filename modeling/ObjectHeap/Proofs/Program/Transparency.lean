import ObjectHeap.Proofs.Abstract.Simulation

/-!
# Collections are transparent

What a program is replied does not depend on when collections happen, nor on which slots objects
get. The argument is not about two machines at all. A program can be run on the abstract machine,
which has neither slots nor collections, and every session of the program tracks that run: its
machine refines the abstract one, its replies stand for the abstract replies, and every reference
that may still be used means what it meant when it was replied. Two sessions that track the same run
agree.
-/

set_option autoImplicit false

namespace ObjectHeap

/-! ## The abstract run of a program -/

namespace Abstract

structure Session where
  machine : Machine := {}
  replies : List Reply := []

namespace Session

variable (a : Session)

def current? (step : Nat) : Option Value := a.replies[step]?.bind Reply.value?

def value? : Operand → Option Value
  | .nil => some .nil
  | .bool b => some (.bool b)
  | .num n => some (.num n)
  | .reply step => a.current? step

def symbol? (operand : Operand) : Option String :=
  match a.value? operand with
  | some (.str text) => some text
  | _ => none

def cls? (operand : Operand) : Option Nat :=
  match a.value? operand with
  | some (.cls id) => some id
  | _ => none

def text? : TextOperand → Option String
  | .const text => some text
  | .reply step => (a.replies[step]?.map Reply.shape).bind ObjectHeap.Reply.text?
  | .name step index => (a.replies[step]?.map Reply.shape).bind (ObjectHeap.Reply.name? index)

def request? : Instruction → Option Request
  | .push v => return .push (← a.value? v)
  | .pop => return .pop
  | .peek distance => return .peek distance
  | .intern text => return .intern (← a.text? text)
  | .concatenate s t => return .concatenate (← a.symbol? s) (← a.symbol? t)
  | .defineGlobal name v => return .defineGlobal (← a.symbol? name) (← a.value? v)
  | .getGlobal name => return .getGlobal (← a.symbol? name)
  | .setGlobal name v => return .setGlobal (← a.symbol? name) (← a.value? v)
  | .globalNames => return .globalNames
  | .newClass name => return .newClass (← a.symbol? name)
  | .newInstance cls => return .newInstance (← a.cls? cls)
  | .defineMethod cls name method =>
    return .defineMethod (← a.cls? cls) (← a.symbol? name) (← a.value? method)
  | .inherit super cls => return .inherit (← a.value? super) (← a.cls? cls)
  | .getProperty receiver name => return .getProperty (← a.value? receiver) (← a.symbol? name)
  | .setProperty receiver name v =>
    return .setProperty (← a.value? receiver) (← a.symbol? name) (← a.value? v)
  | .display v => return .display (← a.value? v)
  | .collect => return .collect
  | .reset => return .reset

def step (instruction : Instruction) : Option Session := do
  let (machine, reply) ← a.machine.handle (← a.request? instruction)
  return { machine, replies := a.replies ++ [reply] }

def run (a : Session) : List Instruction → Option Session
  | [] => some a
  | instruction :: rest => do (← a.step instruction).run rest

end Session

end Abstract

namespace Session

variable {s t : Session} {ids ids' : Nat → Nat} {a : Abstract.Session}

/-- The session is one of the program whose abstract run has come this far. -/
structure Tracks (s : Session) (ids : Nat → Nat) (a : Abstract.Session) : Prop where
  refines : s.machine.Refines ids a.machine
  shapes : s.replies.map (fun r => r.reply.shape) = a.replies.map Abstract.Reply.shape
  values : ∀ step v, s.current? step = some v →
    ∃ w, a.current? step = some w ∧ s.machine.heap.Stands ids v w
  /-- No slot has been released more often by the time of a reply than by now. -/
  counts : ∀ r ∈ s.replies, ∀ v, r.reply.value? = some v → r.releases ≤ s.releasesOf v

theorem tracks_new (policy : Policy) (ids : Nat → Nat) : (Session.new policy).Tracks ids {} where
  refines := Machine.refines_new policy ids
  shapes := rfl
  values step v hv := by simp [current?, Session.new] at hv
  counts r hr := absurd hr List.not_mem_nil

/-! ## Operands -/

/-- Whenever there is something on the left, there is something on the right that is related to it.
-/
def Follows {α β : Type} (R : α → β → Prop) (x : Option α) (y : Option β) : Prop :=
  ∀ v, x = some v → ∃ w, y = some w ∧ R v w

theorem Follows.pure {α β : Type} {R : α → β → Prop} {v : α} {w : β} (hr : R v w) :
    Follows R (Pure.pure v) (Pure.pure w) := by
  intro v' hv
  cases hv
  exact ⟨w, rfl, hr⟩

theorem Follows.bind {α β γ δ : Type} {R : α → β → Prop} {S : γ → δ → Prop} {x : Option α}
    {y : Option β} {f : α → Option γ} {g : β → Option δ} (hxy : Follows R x y)
    (hfg : ∀ v w, R v w → Follows S (f v) (g w)) : Follows S (x >>= f) (y >>= g) := by
  intro v hv
  obtain ⟨u, hu, hf⟩ := Option.bind_eq_some_iff.1 hv
  obtain ⟨w, rfl, hr⟩ := hxy u hu
  exact hfg u w hr v hf

theorem Tracks.value (ht : s.Tracks ids a) (operand : Operand) :
    Follows (s.machine.heap.Stands ids) (s.value? operand) (a.value? operand) := by
  cases operand with
  | nil => exact .pure .nil
  | bool b => exact .pure (.bool b)
  | num n => exact .pure (.num n)
  | reply step => exact ht.values step

theorem Tracks.symbol (ht : s.Tracks ids a) (operand : Operand) :
    Follows s.machine.heap.Spells (s.symbol? operand) (a.symbol? operand) := by
  intro symbol hs
  unfold symbol? at hs
  split at hs
  · next symbol' hv =>
    cases hs
    obtain ⟨w, hw, hstands⟩ := ht.value operand _ hv
    cases hstands with
    | str hspells => exact ⟨_, by rw [Abstract.Session.symbol?, hw], hspells⟩
  · cases hs

theorem Tracks.cls (ht : s.Tracks ids a) (operand : Operand) :
    Follows (fun c id => s.machine.heap.Valid c ∧ ids c.slot = id) (s.cls? operand)
      (a.cls? operand) := by
  intro c hc
  unfold cls? at hc
  split at hc
  · next c' hv =>
    cases hc
    obtain ⟨w, hw, hstands⟩ := ht.value operand _ hv
    cases hstands with
    | cls hvalid => exact ⟨_, by rw [Abstract.Session.cls?, hw], hvalid, rfl⟩
  · cases hc

theorem text?_shape (reply : Reply) : reply.shape.text? = reply.text? := by
  cases reply <;> rfl

theorem name?_shape (index : Nat) (reply : Reply) :
    reply.shape.name? index = reply.name? index := by
  cases reply <;> rfl

/-- Texts that have been replied are the same in the abstract run. -/
theorem Tracks.text?_eq (ht : s.Tracks ids a) (operand : TextOperand) :
    s.text? operand = a.text? operand := by
  have hshape : ∀ step, a.replies[step]?.map Abstract.Reply.shape =
      (s.reply? step).map Reply.shape := by
    intro step
    have hget := congrArg (fun l => l[step]?) ht.shapes
    simp only [List.getElem?_map] at hget
    rw [← hget, reply?, Option.map_map]
    rfl
  cases operand with
  | const text => rfl
  | reply step =>
    rw [Abstract.Session.text?, hshape, text?, Option.bind_map]
    exact congrArg _ (funext fun reply => (text?_shape reply).symm)
  | name step index =>
    rw [Abstract.Session.text?, hshape, text?, Option.bind_map]
    exact congrArg _ (funext fun reply => (name?_shape index reply).symm)

theorem Tracks.text (ht : s.Tracks ids a) (operand : TextOperand) :
    Follows (fun t u => t = u) (s.text? operand) (a.text? operand) := by
  rw [ht.text?_eq operand]
  exact fun t heq => ⟨t, heq, rfl⟩

/-- The request that an instruction amounts to stands for the one that it amounts to in the abstract
run. -/
theorem Tracks.request (ht : s.Tracks ids a) (instruction : Instruction) :
    Follows (s.machine.heap.StandsRequest ids) (s.request? instruction)
      (a.request? instruction) := by
  cases instruction with
  | push v => exact (ht.value v).bind fun _ _ hv => .pure (.push hv)
  | pop => exact .pure .pop
  | peek distance => exact .pure (.peek distance)
  | intern text =>
    refine (ht.text text).bind ?_
    intro t u htext
    subst htext
    exact .pure (.intern t)
  | concatenate left right =>
    exact (ht.symbol left).bind fun _ _ hleft => (ht.symbol right).bind fun _ _ hright =>
      .pure (.concatenate hleft hright)
  | defineGlobal name v =>
    exact (ht.symbol name).bind fun _ _ hs => (ht.value v).bind fun _ _ hv =>
      .pure (.defineGlobal hs hv)
  | getGlobal name => exact (ht.symbol name).bind fun _ _ hs => .pure (.getGlobal hs)
  | setGlobal name v =>
    exact (ht.symbol name).bind fun _ _ hs => (ht.value v).bind fun _ _ hv =>
      .pure (.setGlobal hs hv)
  | globalNames => exact .pure .globalNames
  | newClass name => exact (ht.symbol name).bind fun _ _ hs => .pure (.newClass hs)
  | newInstance cls =>
    refine (ht.cls cls).bind ?_
    intro c id hc
    obtain ⟨hvalid, rfl⟩ := hc
    exact .pure (.newInstance hvalid)
  | defineMethod cls name method =>
    refine (ht.cls cls).bind ?_
    intro c id hc
    obtain ⟨hvalid, rfl⟩ := hc
    exact (ht.symbol name).bind fun _ _ hs => (ht.value method).bind fun _ _ hv =>
      .pure (.defineMethod hvalid hs hv)
  | inherit super cls =>
    refine (ht.value super).bind fun _ _ hv => (ht.cls cls).bind ?_
    intro c id hc
    obtain ⟨hvalid, rfl⟩ := hc
    exact .pure (.inherit hv hvalid)
  | getProperty receiver name =>
    exact (ht.value receiver).bind fun _ _ hv => (ht.symbol name).bind fun _ _ hs =>
      .pure (.getProperty hv hs)
  | setProperty receiver name v =>
    exact (ht.value receiver).bind fun _ _ hr => (ht.symbol name).bind fun _ _ hs =>
      (ht.value v).bind fun _ _ hv => .pure (.setProperty hr hs hv)
  | display v => exact (ht.value v).bind fun _ _ hv => .pure (.display hv)
  | collect => exact .pure .collect
  | reset => exact .pure .reset

/-! ## Steps -/

section Extend

variable {machine : Machine} {releases : List Nat} {reply : Reply}

theorem releasesOf_extend (v : Value) : (s.extend machine releases reply).releasesOf v =
    s.releasesOf v + (v.target?.map releases.count).getD 0 := by
  simp only [releasesOf, extend]
  cases v.target? with
  | none => rfl
  | some slot => exact List.count_append

theorem current?_eq_some_iff {step : Nat} {v : Value} : s.current? step = some v ↔
    ∃ r, s.replies[step]? = some r ∧ r.reply.value? = some v ∧ s.releasesOf v = r.releases := by
  unfold current?
  constructor
  · intro hv
    obtain ⟨r, hr, hv⟩ := Option.bind_eq_some_iff.1 hv
    obtain ⟨w, hw, hv⟩ := Option.bind_eq_some_iff.1 hv
    split at hv
    · next heq =>
      cases hv
      exact ⟨r, hr, hw, heq⟩
    · cases hv
  · rintro ⟨r, hr, hvalue, heq⟩
    simp only [hr, hvalue, heq, bind, Option.bind, if_true]

/-- A reply that may still be used could be used before, and its slot has not been released now. -/
theorem Tracks.current?_extend (ht : s.Tracks ids a) {step : Nat} {v : Value}
    (hlt : step < s.replies.length)
    (hv : (s.extend machine releases reply).current? step = some v) :
    s.current? step = some v ∧ ∀ slot, v.RefersTo slot → slot ∉ releases := by
  obtain ⟨r, hr, hvalue, heq⟩ := current?_eq_some_iff.1 hv
  rw [extend, List.getElem?_append_left hlt] at hr
  have hle := ht.counts r (List.mem_of_getElem? hr) v hvalue
  rw [releasesOf_extend] at heq
  refine ⟨current?_eq_some_iff.2 ⟨r, hr, hvalue, by omega⟩, fun slot hslot => ?_⟩
  rw [Option.mem_toList.1 (Value.mem_target?.2 hslot), Option.map_some, Option.getD_some] at heq
  exact List.count_eq_zero.1 (by omega)

/-- A reply of the extended session is the new one or one of those before. -/
theorem of_replies_extend {step : Nat} {r : Reported}
    (hr : (s.extend machine releases reply).replies[step]? = some r) :
    (step < s.replies.length ∧ s.replies[step]? = some r) ∨
      (step = s.replies.length ∧ r.reply = reply) := by
  rw [extend, List.getElem?_append] at hr
  split at hr
  · next hlt => exact .inl ⟨hlt, hr⟩
  · next hge =>
    rw [List.getElem?_singleton] at hr
    split at hr
    · next hzero => exact .inr ⟨by omega, by cases hr; rfl⟩
    · cases hr

theorem Tracks.length_eq (ht : s.Tracks ids a) : s.replies.length = a.replies.length := by
  have hlength := congrArg List.length ht.shapes
  rwa [List.length_map, List.length_map] at hlength

theorem Tracks.extend (ht : s.Tracks ids a) {a' : Abstract.Machine} {abstract : Abstract.Reply}
    (hr : machine.Refines ids' a') (hreply : machine.heap.StandsReply ids' reply abstract)
    (hc : ∀ slot, slot ∉ releases → s.machine.heap.Carries ids machine.heap ids' slot) :
    (s.extend machine releases reply).Tracks ids'
      { machine := a', replies := a.replies ++ [abstract] } where
  refines := hr
  shapes := by
    rw [Session.extend, List.map_append, List.map_append, ht.shapes, List.map_singleton,
      List.map_singleton, hreply.shape_eq]
  values step v hv := by
    obtain ⟨r, hr, hvalue, -⟩ := current?_eq_some_iff.1 hv
    rcases of_replies_extend hr with ⟨hlt, -⟩ | ⟨rfl, rfl⟩
    -- An old reply that is still usable refers to a slot that has been carried over.
    · obtain ⟨hcurrent, hkept⟩ := ht.current?_extend hlt hv
      obtain ⟨w, hw, hstands⟩ := ht.values step v hcurrent
      refine ⟨w, ?_, hstands.carries fun slot hslot => hc slot (hkept slot hslot)⟩
      rwa [Abstract.Session.current?, List.getElem?_append_left (ht.length_eq ▸ hlt)]
    · obtain ⟨w, hw, hstands⟩ := hreply.value v hvalue
      refine ⟨w, ?_, hstands⟩
      rw [Abstract.Session.current?, ht.length_eq, List.getElem?_concat_length]
      exact hw
  counts r hr v hv := by
    rcases List.mem_append.1 hr with hold | hnew
    · rw [releasesOf_extend]
      exact Nat.le_trans (ht.counts r hold v hv) (Nat.le_add_right _ _)
    · cases List.mem_singleton.1 hnew
      simp only at hv
      rw [hv]
      exact Nat.le_refl _

end Extend

/-- Every step of a session is a step of the abstract run, unless it stops. -/
theorem Tracks.step (ht : s.Tracks ids a) (instruction : Instruction) :
    s.step instruction = .error .unusable ∨
    s.step instruction = .error (.fault .thresholdOverflow) ∨
    ∃ after ids' a', s.step instruction = .ok after ∧ a.step instruction = some a' ∧
      after.Tracks ids' a' := by
  unfold Session.step
  cases hq : s.request? instruction with
  | none => exact .inl rfl
  | some request =>
    -- What stands for something is valid, so the request is answered unless a threshold overflows.
    obtain ⟨abstract, habstract, hstands⟩ := ht.request instruction request hq
    rcases ht.refines.sound.handle_cases (Machine.accepts_of_stands hstands) with
      hfault | ⟨machine, reply, hok, hstep⟩
    · exact .inr (.inl (by simp only [hfault]))
    · obtain ⟨ids', a', areply, hhandle, hr, hreply, hc⟩ := ht.refines.step hstep hstands
      refine .inr (.inr ⟨_, ids', _, by simp only [hok], ?_, ht.extend hr hreply hc⟩)
      simp only [Abstract.Session.step, habstract, hhandle, bind, Option.bind]
      rfl

/-- Every run tracks the abstract run of the same program, unless it stops. -/
theorem Tracks.run (ht : s.Tracks ids a) (program : List Instruction) :
    s.run program = .error .unusable ∨
    s.run program = .error (.fault .thresholdOverflow) ∨
    ∃ after ids' a', s.run program = .ok after ∧ a.run program = some a' ∧
      after.Tracks ids' a' := by
  -- The assignment of numbers is not fixed: each step hands on the one that holds after it.
  induction program generalizing s ids a with
  | nil => exact .inr (.inr ⟨s, ids, a, rfl, rfl, ht⟩)
  | cons instruction rest ih =>
    rcases ht.step instruction with hstop | hstop | ⟨after, ids', a', hstep, habstract, ht'⟩
    · exact .inl (by rw [Session.run, hstop]; rfl)
    · exact .inr (.inl (by rw [Session.run, hstop]; rfl))
    · have hrun : s.run (instruction :: rest) = after.run rest := by rw [Session.run, hstep]; rfl
      have harun : a.run (instruction :: rest) = a'.run rest := by
        rw [Abstract.Session.run, habstract]
        rfl
      rw [hrun, harun]
      exact ih ht'

/-! ## Agreement -/

/-- Two sessions that track the same abstract run agree. -/
theorem Tracks.agrees (hs : s.Tracks ids a) (ht : t.Tracks ids' a) : s.Agrees t where
  shapes := hs.shapes.trans ht.shapes.symm
  objects step v w hv hw slot hslot := by
    obtain ⟨x, hx, hvx⟩ := hs.values step v hv
    obtain ⟨y, hy, hwy⟩ := ht.values step w hw
    obtain rfl : x = y := Option.some.inj (hx.symm.trans hy)
    exact hvx.exists_alike hwy hslot
  identities i j v v' w w' hv hv' hw hw' := by
    obtain ⟨x, hx, hvx⟩ := hs.values i v hv
    obtain ⟨y, hy, hvy⟩ := hs.values j v' hv'
    obtain ⟨x', hx', hwx⟩ := ht.values i w hw
    obtain ⟨y', hy', hwy⟩ := ht.values j w' hw'
    obtain rfl : x = x' := Option.some.inj (hx.symm.trans hx')
    obtain rfl : y = y' := Option.some.inj (hy.symm.trans hy')
    -- Equal values stand for the same, and in either session only equal values do.
    constructor
    · rintro rfl
      obtain rfl := hvx.unique hvy
      exact ht.refines.stands_injective hwx hwy
    · rintro rfl
      obtain rfl := hwx.unique hwy
      exact hs.refines.stands_injective hvx hvy

/-- A run stops where it stops, whatever instructions come after. -/
theorem run_append (s : Session) (program rest : List Instruction) :
    s.run (program ++ rest) = s.run program >>= fun after => after.run rest := by
  induction program generalizing s with
  | nil => rfl
  | cons instruction program ih =>
    rw [List.cons_append, run, run]
    cases s.step instruction with
    | error why => rfl
    | ok after => exact ih after

theorem Proper.take {program : List Instruction} (hp : s.Proper program) (n : Nat) :
    s.Proper (program.take n) := by
  have happend := run_append s (program.take n) (program.drop n)
  rw [List.take_append_drop] at happend
  refine ⟨fun hstop => hp.1 ?_, fun hstop => hp.2 ?_⟩ <;> rw [happend, hstop] <;> rfl

/-- **Collections are transparent.** If a program runs properly under two policies, then after every
step both runs have come to a session, and the two sessions agree. -/
theorem collection_transparent {policy policy' : Policy} {program : List Instruction}
    (hs : (Session.new policy).Proper program) (ht : (Session.new policy').Proper program)
    (n : Nat) : ∃ s t, (Session.new policy).run (program.take n) = .ok s ∧
      (Session.new policy').run (program.take n) = .ok t ∧ s.Agrees t := by
  rcases (tracks_new policy fun _ => 0).run (program.take n) with
    hstop | hstop | ⟨s, ids, a, hrun, ha, htracks⟩
  · exact absurd hstop (hs.take n).1
  · exact absurd hstop (hs.take n).2
  · rcases (tracks_new policy' fun _ => 0).run (program.take n) with
      hstop | hstop | ⟨t, ids', a', hrun', ha', htracks'⟩
    · exact absurd hstop (ht.take n).1
    · exact absurd hstop (ht.take n).2
    · obtain rfl : a = a' := Option.some.inj (ha.symm.trans ha')
      exact ⟨s, t, hrun, hrun', htracks.agrees htracks'⟩

/-- A program that lets go of two strings before it makes an instance. -/
def forgetful : List Instruction :=
  [.intern (.const "a"), .newClass (.reply 0), .push (.reply 1), .intern (.const "b"),
    .intern (.const "c"), .newInstance (.reply 1), .display (.reply 5)]

/-- Under stress the instance takes the slot that both strings have had before it. -/
theorem collection_transparent_forgetful : ∃ s t, (Session.new {}).run forgetful = .ok s ∧
    (Session.new { stress := true }).run forgetful = .ok t ∧ s.Agrees t ∧
    s.current? 5 = some (.inst ⟨4⟩) ∧ t.current? 5 = some (.inst ⟨2⟩) := by
  obtain ⟨s, t, hs, ht, hagrees⟩ := @collection_transparent {} { stress := true } forgetful
    ⟨by decide +kernel, by decide +kernel⟩ ⟨by decide +kernel, by decide +kernel⟩ 7
  have hslot : ((Session.new {}).run forgetful).map (fun s => s.current? 5) =
      .ok (some (.inst ⟨4⟩)) := by
    decide +kernel
  have hslot' : ((Session.new { stress := true }).run forgetful).map (fun s => s.current? 5) =
      .ok (some (.inst ⟨2⟩)) := by
    decide +kernel
  rw [show (Session.new {}).run forgetful = .ok s from hs] at hslot
  rw [show (Session.new { stress := true }).run forgetful = .ok t from ht] at hslot'
  exact ⟨s, t, hs, ht, hagrees, Except.ok.inj hslot, Except.ok.inj hslot'⟩

end Session

end ObjectHeap
