import ObjectHeap.Heap.Collect
import ObjectHeap.Heap.Intern
import ObjectHeap.Table.Layout

/-!
# Runs of a heap

A heap *arises* under a policy if a new one comes to be it by the operations of heaps, in any order:
interning, allocation of any object, marking, editing an object in place, and collection. Editing
includes what a table of methods or fields goes through, for which only tables that can be made are
put into objects.

To overwrite the text of a string is an edit like any other, but not one that interning can survive:
its table would then hold a text under the hash of another. So runs are told apart by whether they
may do it.
-/

set_option autoImplicit false

namespace ObjectHeap

/-- The tables of an object can be made. -/
def Object.HasBuiltTables : Object → Prop
  | .str _ | .box _ => True
  | .cls c => c.methods.Built
  | .inst i => i.fields.Built

namespace Heap

/-- One operation. If `overwrites` is false, it does not change the text of a string. -/
inductive Step (overwrites : Bool) : Heap → Heap → Prop
  | intern {h after : Heap} {text : String} {reserved : Nat} {s : Symbol} :
    (h.internReserving text reserved).result = .ok (after, s) → Step overwrites h after
  | allocate {h after : Heap} {k : Kind} {p : k.Payload} {r : Ref k} :
    (Object.of k p).HasBuiltTables → (h.allocate k p).result = .ok (after, r) →
    Step overwrites h after
  | mark {h : Heap} (slot : Nat) : Step overwrites h (h.mark slot)
  | edit {h : Heap} {k : Kind} {r : Ref k} {p : k.Payload} {put : k.Payload → Heap}
    (q : k.Payload) : (k = .str → overwrites = true) → (Object.of k q).HasBuiltTables →
    h.access r = .ok (p, put) → Step overwrites h (put q)
  | collect {h after : Heap} : h.collect.result = .ok after → Step overwrites h after

/-- The heaps that operations lead to. -/
inductive Arises (overwrites : Bool) (policy : Policy) : Heap → Prop
  | new : Arises overwrites policy (.new policy)
  | step {h after : Heap} : Arises overwrites policy h → Step overwrites h after →
    Arises overwrites policy after

end Heap

end ObjectHeap
