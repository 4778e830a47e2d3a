import ObjectHeap.Machine.Request
import ObjectHeap.Proofs.Heap.Kept

/-!
# Programs

A program is a list of instructions whose operands are constants or what earlier steps have replied.
So it can be run on any machine, and what slots the machine chooses for its objects is no part of
it.

A reference that was replied may be used as long as its object has not been released since. To tell,
a session counts how often each slot has been released, and notes for every reply how often it was
at the time. An instruction with an operand that is no longer usable, or is of a kind that the
request has no use for, stops the run.

Two sessions of one program agree if they cannot be told apart from what was replied, slot numbers
aside (`Session.Agrees`).
-/

set_option autoImplicit false

namespace ObjectHeap

/-! ## Instructions -/

/-- A constant, or the value that an earlier step has replied. -/
inductive Operand
  | nil
  | bool (b : Bool)
  | num (n : Number)
  | reply (step : Nat)
  deriving DecidableEq, Repr

/-- A constant, or a text that an earlier step has replied: what it displayed, the message of its
refusal, or one of the names that it listed. -/
inductive TextOperand
  | const (text : String)
  | reply (step : Nat)
  | name (step index : Nat)
  deriving DecidableEq, Repr

inductive Instruction
  | push (v : Operand)
  | pop
  | peek (distance : Nat)
  | intern (text : TextOperand)
  | concatenate (a b : Operand)
  | defineGlobal (name v : Operand)
  | getGlobal (name : Operand)
  | setGlobal (name v : Operand)
  | globalNames
  | newClass (name : Operand)
  | newInstance (cls : Operand)
  | defineMethod (cls name method : Operand)
  | inherit (super cls : Operand)
  | getProperty (receiver name : Operand)
  | setProperty (receiver name v : Operand)
  | display (v : Operand)
  | collect
  | reset
  deriving DecidableEq, Repr

/-! ## Replies -/

/-- The value without its slot number. -/
def Value.shape : Value → Value
  | .str s => .str { str := ⟨0⟩, hash := s.hash }
  | .cls _ => .cls ⟨0⟩
  | .inst _ => .inst ⟨0⟩
  | v => v

namespace Reply

/-- The reply without slot numbers. -/
def shape : Reply → Reply
  | .top v => .top (v.map Value.shape)
  | .symbol s => .symbol { str := ⟨0⟩, hash := s.hash }
  | .cls _ => .cls ⟨0⟩
  | .inst _ => .inst ⟨0⟩
  | .found v => .found v.shape
  | r => r

/-- The value that is replied. -/
def value? : Reply → Option Value
  | .top v => v
  | .symbol s => some (.str s)
  | .cls c => some (.cls c)
  | .inst i => some (.inst i)
  | .found v => some v
  | .done | .text _ | .names _ | .refused _ => none

def text? : Reply → Option String
  | .text s => some s
  | .refused why => some why.message
  | _ => none

def name? (index : Nat) : Reply → Option String
  | .names list => list[index]?
  | _ => none

end Reply

/-! ## Sessions -/

/-- A reply, with the number of times that the slot it refers to had been released by then. -/
structure Reported where
  reply : Reply
  releases : Nat
  deriving DecidableEq, Repr

structure Session where
  machine : Machine
  /-- All slots that have been released, in order. -/
  released : List Nat := []
  /-- What was replied so far, the first reply first. -/
  replies : List Reported := []
  deriving DecidableEq, Repr

/-- Why a run stops. -/
inductive Stop
  /-- An operand was not replied, or is no longer usable, or is of the wrong kind. -/
  | unusable
  | fault (f : Fault)
  deriving DecidableEq, Repr

namespace Session

variable (s : Session)

def new (policy : Policy) : Session := { machine := .new policy }

/-- How often the slot that a value refers to has been released. -/
def releasesOf (v : Value) : Nat :=
  match v.target? with
  | some slot => s.released.count slot
  | none => 0

/-- The value that a step has replied, unless what it refers to has been released since. -/
def current? (step : Nat) : Option Value := do
  let reported ← s.replies[step]?
  let v ← reported.reply.value?
  if s.releasesOf v = reported.releases then some v else none

def reply? (step : Nat) : Option Reply := s.replies[step]?.map Reported.reply

/-! ### Operands -/

def value? : Operand → Option Value
  | .nil => some .nil
  | .bool b => some (.bool b)
  | .num n => some (.num n)
  | .reply step => s.current? step

def symbol? (operand : Operand) : Option Symbol :=
  match s.value? operand with
  | some (.str symbol) => some symbol
  | _ => none

def cls? (operand : Operand) : Option (Ref .cls) :=
  match s.value? operand with
  | some (.cls c) => some c
  | _ => none

def text? : TextOperand → Option String
  | .const text => some text
  | .reply step => (s.reply? step).bind Reply.text?
  | .name step index => (s.reply? step).bind (Reply.name? index)

/-- The request that an instruction amounts to, if its operands are usable. -/
def request? : Instruction → Option Request
  | .push v => return .push (← s.value? v)
  | .pop => return .pop
  | .peek distance => return .peek distance
  | .intern text => return .intern (← s.text? text)
  | .concatenate a b => return .concatenate (← s.symbol? a) (← s.symbol? b)
  | .defineGlobal name v => return .defineGlobal (← s.symbol? name) (← s.value? v)
  | .getGlobal name => return .getGlobal (← s.symbol? name)
  | .setGlobal name v => return .setGlobal (← s.symbol? name) (← s.value? v)
  | .globalNames => return .globalNames
  | .newClass name => return .newClass (← s.symbol? name)
  | .newInstance cls => return .newInstance (← s.cls? cls)
  | .defineMethod cls name method =>
    return .defineMethod (← s.cls? cls) (← s.symbol? name) (← s.value? method)
  | .inherit super cls => return .inherit (← s.value? super) (← s.cls? cls)
  | .getProperty receiver name => return .getProperty (← s.value? receiver) (← s.symbol? name)
  | .setProperty receiver name v =>
    return .setProperty (← s.value? receiver) (← s.symbol? name) (← s.value? v)
  | .display v => return .display (← s.value? v)
  | .collect => return .collect
  | .reset => return .reset

/-! ### Runs -/

/-- The session after a request has been answered. -/
def extend (machine : Machine) (releases : List Nat) (reply : Reply) : Session :=
  let released := s.released ++ releases
  let after : Session := { machine, released, replies := s.replies }
  let count := (reply.value?.map after.releasesOf).getD 0
  { after with replies := s.replies ++ [{ reply, releases := count }] }

def step (instruction : Instruction) : Except Stop Session :=
  match s.request? instruction with
  | none => .error .unusable
  | some request =>
    match (s.machine.handle request).result with
    | .error f => .error (.fault f)
    | .ok (machine, reply) =>
      .ok (s.extend machine (s.machine.handle request).releases reply)

def run (s : Session) : List Instruction → Except Stop Session
  | [] => .ok s
  | instruction :: rest => do
    let after ← s.step instruction
    after.run rest

/-- A run is proper if no operand is unusable and no threshold overflows. -/
def Proper (s : Session) (program : List Instruction) : Prop :=
  s.run program ≠ .error .unusable ∧ s.run program ≠ .error (.fault .thresholdOverflow)

/-- Two sessions of one program agree. The objects of one correspond to those of the other to which
the replies of the same steps refer. -/
structure Agrees (s t : Session) : Prop where
  /-- The replies are the same, slot numbers aside. -/
  shapes : s.replies.map (fun r => r.reply.shape) = t.replies.map fun r => r.reply.shape
  /-- Corresponding objects are of one kind and, if they are strings, have one text. -/
  objects : ∀ step v w, s.current? step = some v → t.current? step = some w →
    ∀ slot, v.RefersTo slot → ∃ slot' o o', w.RefersTo slot' ∧
      s.machine.heap.object? slot = some o ∧ t.machine.heap.object? slot' = some o' ∧ o.Alike o'
  /-- References are equal in one session if and only if they are in the other. -/
  identities : ∀ i j v v' w w', s.current? i = some v → s.current? j = some v' →
    t.current? i = some w → t.current? j = some w' → (v = v' ↔ w = w')

end Session

end ObjectHeap
