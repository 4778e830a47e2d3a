import ObjectHeap.Machine.Basic
import ObjectHeap.Machine.Refusal

/-!
# Global variables

Globals are a table from names to values. They come into being by definition only. An assignment to
a name that is not defined is refused and leaves it undefined; since the name has to be inserted to
find that out, such an assignment can leave a tombstone in the table, or make it grow.
-/

set_option autoImplicit false

namespace ObjectHeap

namespace Machine

/-- Binds a name, whether or not it was defined before. -/
def defineGlobal (m : Machine) (name : Symbol) (v : Value) : Outcome Machine := do
  let globals := (m.globals.insert name v).1
  Outcome.report (Event.growths m.globals globals)
  return { m with globals }

/-- The value of a global. -/
def getGlobal (m : Machine) (name : Symbol) : Except Fault (Except Refusal Value) :=
  match m.globals.get? name with
  | some v => return .ok v
  | none => return .error (.undefinedVariable (← m.heap.textOf name))

/-- Changes the value of a global. -/
def setGlobal (m : Machine) (name : Symbol) (v : Value) :
    Outcome (Machine × Except Refusal Unit) := do
  let (globals, isNew) := m.globals.insert name v
  Outcome.report (Event.growths m.globals globals)
  if isNew then
    let text ← m.heap.textOf name
    return ({ m with globals := (globals.erase name).1 }, .error (.undefinedVariable text))
  else
    return ({ m with globals }, .ok ())

/-- The names of the globals in ascending order. -/
def globalNames (m : Machine) : Except Fault (List String) := do
  let names ← m.globals.entries.mapM fun (name, _) => m.heap.textOf name
  return names.mergeSort fun a b => a ≤ b

end Machine

end ObjectHeap
