import ObjectHeap.Heap.Mark

/-!
# Reachability

The graph of a heap, apart from any way of walking it. Its nodes are the occupied slots, and its
edges are what the objects refer to now, written out kind by kind. An edge to an empty slot leads
nowhere. The collector is right if what it keeps is exactly what can be reached from where it
started.
-/

set_option autoImplicit false

namespace ObjectHeap

/-- The value is a reference to this slot. -/
inductive Value.RefersTo : Value → Nat → Prop
  | str (s : Symbol) : RefersTo (.str s) s.str.slot
  | cls (c : Ref .cls) : RefersTo (.cls c) c.slot
  | inst (i : Ref .inst) : RefersTo (.inst i) i.slot

/-- The object refers to this slot: a class by its name and by the names and values of its methods,
an instance by its class and by the names and values of its fields, a box by what is in it. -/
inductive Object.RefersTo : Object → Nat → Prop
  | name (c : Class) : RefersTo (.cls c) c.name.str.slot
  | methodName {c : Class} {key : Symbol} {v : Value} : (key, v) ∈ c.methods.entries →
    RefersTo (.cls c) key.str.slot
  | method {c : Class} {key : Symbol} {v : Value} {slot : Nat} : (key, v) ∈ c.methods.entries →
    v.RefersTo slot → RefersTo (.cls c) slot
  | cls (i : Instance) : RefersTo (.inst i) i.cls.slot
  | fieldName {i : Instance} {key : Symbol} {v : Value} : (key, v) ∈ i.fields.entries →
    RefersTo (.inst i) key.str.slot
  | field {i : Instance} {key : Symbol} {v : Value} {slot : Nat} : (key, v) ∈ i.fields.entries →
    v.RefersTo slot → RefersTo (.inst i) slot
  | box {v : Value} {slot : Nat} : v.RefersTo slot → RefersTo (.box v) slot

namespace Heap

def Occupied (h : Heap) (slot : Nat) : Prop := ∃ c, h.cell? slot = some c

/-- An object can be reached from one of the given slots. -/
inductive Reach (h : Heap) (start : List Nat) : Nat → Prop
  | start {slot : Nat} : slot ∈ start → h.Occupied slot → Reach h start slot
  | step {a b : Nat} {o : Object} : Reach h start a → h.object? a = some o → o.RefersTo b →
    h.Occupied b → Reach h start b

/-- The slots that are marked. -/
def markedSlots (h : Heap) : List Nat := (List.range h.cells.size).filter h.isMarked

end Heap

end ObjectHeap
