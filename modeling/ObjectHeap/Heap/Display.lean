import ObjectHeap.Heap.Basic
import ObjectHeap.Number.Text

/-!
# The text of a value

A string is displayed as its text, a class as its name, and an instance as the name of its class
with a word after it.
-/

set_option autoImplicit false

namespace ObjectHeap

namespace Heap

/-- A value as the language displays it. -/
def display (h : Heap) : Value → Except Fault String
  | .nil => return "nil"
  | .bool true => return "true"
  | .bool false => return "false"
  | .num n => return n.text
  | .str s => h.textOf s
  | .cls c => do
    let cls ← h.deref c
    h.textOf cls.name
  | .inst i => do
    let inst ← h.deref i
    let cls ← h.deref inst.cls
    let name ← h.textOf cls.name
    return name ++ " instance"

end Heap

end ObjectHeap
