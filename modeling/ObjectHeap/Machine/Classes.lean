import ObjectHeap.Machine.Basic
import ObjectHeap.Machine.Refusal

/-!
# Classes and instances

A class has methods and an instance has fields; both are tables from names to values. A property of
an instance is its field of that name or, failing that, the method that its class has now. A class
inherits by taking over the methods that its superclass has at that moment, so what either class
does afterwards does not show in the other.
-/

set_option autoImplicit false

namespace ObjectHeap

namespace Machine

/-- A new class without methods. -/
def newClass (m : Machine) (name : Symbol) : Outcome (Machine × Ref .cls) :=
  m.allocateHolding (.str name) .cls { name }

/-- A new instance without fields. -/
def newInstance (m : Machine) (cls : Ref .cls) : Outcome (Machine × Ref .inst) :=
  m.allocateHolding (.cls cls) .inst { cls }

/-- Gives a class a method. -/
def defineMethod (m : Machine) (cls : Ref .cls) (name : Symbol) (method : Value) :
    Outcome Machine := do
  let (c, put) ← m.heap.access cls
  let methods := (c.methods.insert name method).1
  Outcome.report (Event.growths c.methods methods)
  return { m with heap := put { c with methods } }

/-- Copies the methods of a superclass into a class, over those of the same name. -/
def inherit (m : Machine) (super : Value) (cls : Ref .cls) :
    Outcome (Machine × Except Refusal Unit) :=
  match super with
  | .cls super => do
    let s ← m.heap.deref super
    let (c, put) ← m.heap.access cls
    let methods := c.methods.merge s.methods
    Outcome.report (Event.growths c.methods methods)
    return ({ m with heap := put { c with methods } }, .ok ())
  | _ => return (m, .error .invalidSuperclass)

/-- The property of an instance: a field, or else a method of its class. -/
def getProperty (m : Machine) (receiver : Value) (name : Symbol) :
    Except Fault (Except Refusal Value) :=
  match receiver with
  | .inst i => do
    let inst ← m.heap.deref i
    match inst.fields.get? name with
    | some v => return .ok v
    | none =>
      let cls ← m.heap.deref inst.cls
      match cls.methods.get? name with
      | some v => return .ok v
      | none => return .error (.undefinedProperty (← m.heap.textOf name))
  | _ => return .error .notAnInstance

/-- Sets a field of an instance. -/
def setProperty (m : Machine) (receiver : Value) (name : Symbol) (v : Value) :
    Outcome (Machine × Except Refusal Unit) :=
  match receiver with
  | .inst i => do
    let (inst, put) ← m.heap.access i
    let fields := (inst.fields.insert name v).1
    Outcome.report (Event.growths inst.fields fields)
    return ({ m with heap := put { inst with fields } }, .ok ())
  | _ => return (m, .error .noFields)

end Machine

end ObjectHeap
