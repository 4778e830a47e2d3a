import ObjectHeap.Heap.Display
import ObjectHeap.Machine.Classes
import ObjectHeap.Machine.Globals

/-!
# Requests

All that can be asked of a machine, as data, and one function that answers. A run of a machine is a
list of requests, so what holds of every run is proved by going through the requests once.
-/

set_option autoImplicit false

namespace ObjectHeap

inductive Request
  | push (v : Value)
  | pop
  | peek (distance : Nat)
  | intern (text : String)
  | concatenate (a b : Symbol)
  | defineGlobal (name : Symbol) (v : Value)
  | getGlobal (name : Symbol)
  | setGlobal (name : Symbol) (v : Value)
  | globalNames
  | newClass (name : Symbol)
  | newInstance (cls : Ref .cls)
  | defineMethod (cls : Ref .cls) (name : Symbol) (method : Value)
  | inherit (super : Value) (cls : Ref .cls)
  | getProperty (receiver : Value) (name : Symbol)
  | setProperty (receiver : Value) (name : Symbol) (v : Value)
  | display (v : Value)
  | collect
  | reset
  deriving DecidableEq, Repr

inductive Reply
  | done
  /-- A value that may be missing: what was on the stack. -/
  | top (v : Option Value)
  | symbol (s : Symbol)
  | cls (c : Ref .cls)
  | inst (i : Ref .inst)
  | found (v : Value)
  | text (s : String)
  | names (names : List String)
  | refused (why : Refusal)
  deriving DecidableEq, Repr

namespace Reply

/-- The reply of an operation that may be refused and has nothing to say otherwise. -/
def ofUnit : Except Refusal Unit → Reply
  | .ok () => .done
  | .error why => .refused why

/-- The reply of an operation that looks for a value and may be refused. -/
def ofValue : Except Refusal Value → Reply
  | .ok v => .found v
  | .error why => .refused why

end Reply

namespace Machine

/-- Carries out a request. -/
def handle (m : Machine) : Request → Outcome (Machine × Reply)
  | .push v => return (m.push v, .done)
  | .pop => return (m.pop.1, .top m.pop.2)
  | .peek distance => return (m, .top (m.peek distance))
  | .intern text => do
    let (m, s) ← m.intern text
    return (m, .symbol s)
  | .concatenate a b => do
    let (m, s) ← m.concatenate a b
    return (m, .symbol s)
  | .defineGlobal name v => return (← m.defineGlobal name v, .done)
  | .getGlobal name => return (m, .ofValue (← m.getGlobal name))
  | .setGlobal name v => do
    let (m, r) ← m.setGlobal name v
    return (m, .ofUnit r)
  | .globalNames => return (m, .names (← m.globalNames))
  | .newClass name => do
    let (m, c) ← m.newClass name
    return (m, .cls c)
  | .newInstance cls => do
    let (m, i) ← m.newInstance cls
    return (m, .inst i)
  | .defineMethod cls name method => return (← m.defineMethod cls name method, .done)
  | .inherit super cls => do
    let (m, r) ← m.inherit super cls
    return (m, .ofUnit r)
  | .getProperty receiver name => return (m, .ofValue (← m.getProperty receiver name))
  | .setProperty receiver name v => do
    let (m, r) ← m.setProperty receiver name v
    return (m, .ofUnit r)
  | .display v => return (m, .text (← m.heap.display v))
  | .collect => return (← m.collect, .done)
  | .reset => return (← m.reset, .done)

/-- Carries out requests one after the other. -/
def run (m : Machine) : List Request → Outcome (Machine × List Reply)
  | [] => return (m, [])
  | request :: rest => do
    let (m, reply) ← m.handle request
    let (m, replies) ← m.run rest
    return (m, reply :: replies)

end Machine

end ObjectHeap
