/-!
# Refusals

What a program of the machine can do wrong. A refusal is an answer like any other: the machine goes
on, and the program may handle it. See `Fault` for what cannot be handled.
-/

set_option autoImplicit false

namespace ObjectHeap

inductive Refusal
  /-- The global with this name was read or assigned, but never defined. -/
  | undefinedVariable (name : String)
  /-- Neither the instance nor its class has a property with this name. -/
  | undefinedProperty (name : String)
  /-- A property was read from a value that is no instance. -/
  | notAnInstance
  /-- A property was set on a value that is no instance. -/
  | noFields
  /-- A class was made to inherit from a value that is no class. -/
  | invalidSuperclass
  deriving DecidableEq, Repr

namespace Refusal

def message : Refusal → String
  | .undefinedVariable name => s!"Undefined variable '{name}'."
  | .undefinedProperty name => s!"Undefined property '{name}'."
  | .notAnInstance => "Only instances have properties."
  | .noFields => "Only instances have fields."
  | .invalidSuperclass => "Superclass must be a class."

end Refusal

end ObjectHeap
