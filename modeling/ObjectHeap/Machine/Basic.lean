import ObjectHeap.Heap.Collect
import ObjectHeap.Heap.Intern

/-!
# The machine

A machine is a heap together with what a program has in use: a stack of values and a table of global
variables. Everything on the stack and in the globals is a *root*, and a collection keeps what can
be reached from the roots and nothing else.

The machine collects only before it allocates. An operation that allocates and still needs one of
its operands afterwards has to make it a root first, and it does so by pushing it on the stack for
the time of the allocation (`Machine.allocateHolding`).
-/

set_option autoImplicit false

namespace ObjectHeap

structure Machine where
  heap : Heap
  /-- The stack, its top first. -/
  stack : List Value := []
  globals : Table := ∅
  deriving DecidableEq, Repr

namespace Machine

/-- The machine without objects, globals or stack. -/
def new (policy : Policy) : Machine := { heap := .new policy }

/-! ## The stack -/

def push (m : Machine) (v : Value) : Machine := { m with stack := v :: m.stack }

/-- Takes the top value off the stack. -/
def pop (m : Machine) : Machine × Option Value := ({ m with stack := m.stack.tail }, m.stack.head?)

/-- The value at a distance from the top of the stack. -/
def peek (m : Machine) (distance : Nat) : Option Value := m.stack[distance]?

/-! ## Collection -/

/-- The slots that the roots refer to, in the order in which they are marked: the stack from its
bottom, and then the globals. -/
def roots (m : Machine) : List Nat := m.stack.reverse.filterMap Value.target? ++ m.globals.targets

/-- Collects what the roots do not reach. -/
def collect (m : Machine) : Outcome Machine := do
  let marked := m.heap.markAll m.roots
  Outcome.report (Heap.marksSince m.heap marked)
  let heap ← marked.collect
  return { m with heap }

/-- Collects if a collection is due. -/
def makeRoom (m : Machine) : Outcome Machine :=
  if m.heap.due then m.collect else pure m

/-- Drops the stack and the globals and collects, which leaves no object. -/
def reset (m : Machine) : Outcome Machine := do
  Outcome.report [.machineReset m.globals.size]
  collect { m with stack := [], globals := ∅ }

/-! ## Allocation -/

/-- Allocates an object that refers to an operand, which is a root until the object is there. -/
def allocateHolding (m : Machine) (operand : Value) (k : Kind) (p : k.Payload) :
    Outcome (Machine × Ref k) := do
  let m ← (m.push operand).makeRoom
  let (heap, r) ← m.heap.allocate k p
  return (({ m with heap }).pop.1, r)

/-- The symbol of a text. Only a text that is not interned yet can cause a collection. The symbol is
not a root, so it has to be put somewhere before the next allocation. -/
def intern (m : Machine) (text : String) : Outcome (Machine × Symbol) := do
  match ← m.heap.find? text with
  | some symbol => return (m, symbol)
  | none =>
    let m ← m.makeRoom
    let (heap, symbol) ← m.heap.intern text
    return ({ m with heap }, symbol)

/-- The symbol of the texts of two symbols, joined. The texts are read and put together before
anything can be collected, in as many bytes as they take. -/
def concatenate (m : Machine) (a b : Symbol) : Outcome (Machine × Symbol) := do
  let first ← m.heap.textOf a
  let second ← m.heap.textOf b
  match ← m.heap.find? (first ++ second) with
  | some symbol => return (m, symbol)
  | none =>
    let m ← m.makeRoom
    let (heap, symbol) ←
      m.heap.internReserving (first ++ second) (first.utf8ByteSize + second.utf8ByteSize)
    return ({ m with heap }, symbol)

/-- To concatenate is to read two texts and to intern them joined. -/
theorem concatenate_eq_bind (m : Machine) (a b : Symbol) : m.concatenate a b = (do
    let first ← m.heap.textOf a
    let second ← m.heap.textOf b
    m.intern (first ++ second)) := by
  simp only [concatenate, intern, Heap.internReserving_append]

end Machine

end ObjectHeap
