/-!
# Faults

A fault ends the run: it says that the heap was misused, or that its accounts overflowed, and there
is no state to go on with. What a program of the machine may do wrong and recover from is a
`Refusal` instead (`Machine/Refusal`).
-/

set_option autoImplicit false

namespace ObjectHeap

inductive Fault
  /-- A reference was followed to a slot that is empty or holds an object of another kind. -/
  | dangling (slot : Nat)
  /-- A reference was followed to a boxed value. Boxes keep values alive; they are never opened. -/
  | boxed
  /-- The bytes that survived a collection, times the growth factor, do not fit in a word. -/
  | thresholdOverflow
  deriving DecidableEq, Repr

namespace Fault

def message : Fault → String
  | .dangling slot => s!"dangling reference to #{slot}"
  | .boxed => "Value should not be allocated"
  | .thresholdOverflow => "attempt to multiply with overflow"

end Fault

end ObjectHeap
