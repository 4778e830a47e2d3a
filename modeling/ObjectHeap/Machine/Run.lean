import ObjectHeap.Heap.Valid
import ObjectHeap.Machine.Request

/-!
# Runs of a machine

A machine *arises* under a policy if a new one comes to be it by requests whose operands are valid
when they are made. Validity is all that a caller has to promise. What a machine does not promise is
to keep a reference valid that it does not hold itself: a request that allocates can release
whatever is not on the stack, in the globals or reachable from there.
-/

set_option autoImplicit false

namespace ObjectHeap

namespace Machine

/-- What the objects, the stack and the globals refer to is valid. -/
structure Closed (m : Machine) : Prop where
  heap : m.heap.Closed
  stack : ∀ v ∈ m.stack, m.heap.ValidValue v
  globals : m.heap.ValidTable m.globals

/-- The operands of a request are valid. -/
def Accepts (m : Machine) : Request → Prop
  | .push v => m.heap.ValidValue v
  | .pop | .peek _ | .intern _ | .globalNames | .collect | .reset => True
  | .concatenate a b => m.heap.ValidSymbol a ∧ m.heap.ValidSymbol b
  | .defineGlobal name v | .setGlobal name v => m.heap.ValidSymbol name ∧ m.heap.ValidValue v
  | .getGlobal name | .newClass name => m.heap.ValidSymbol name
  | .newInstance cls => m.heap.Valid cls
  | .defineMethod cls name method =>
    m.heap.Valid cls ∧ m.heap.ValidSymbol name ∧ m.heap.ValidValue method
  | .inherit super cls => m.heap.ValidValue super ∧ m.heap.Valid cls
  | .getProperty receiver name => m.heap.ValidValue receiver ∧ m.heap.ValidSymbol name
  | .setProperty receiver name v =>
    m.heap.ValidValue receiver ∧ m.heap.ValidSymbol name ∧ m.heap.ValidValue v
  | .display v => m.heap.ValidValue v

/-- The references in a reply are valid. -/
def Vouches (m : Machine) : Reply → Prop
  | .done | .text _ | .names _ | .refused _ => True
  | .top v => ∀ w ∈ v, m.heap.ValidValue w
  | .symbol s => m.heap.ValidSymbol s
  | .cls c => m.heap.Valid c
  | .inst i => m.heap.Valid i
  | .found v => m.heap.ValidValue v

/-- The machines that valid requests lead to. -/
inductive Arises (policy : Policy) : Machine → Prop
  | new : Arises policy (.new policy)
  | handle {m after : Machine} {request : Request} {reply : Reply} : Arises policy m →
    m.Accepts request → (m.handle request).result = .ok (after, reply) → Arises policy after

end Machine

end ObjectHeap
