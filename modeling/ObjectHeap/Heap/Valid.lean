import ObjectHeap.Heap.Reach

/-!
# Validity

A reference is valid if its slot holds an object of its kind, and a symbol if moreover its hash is
that of the string. A heap is closed if everything that its objects refer to is valid. Of a closed
heap no reference that is stored anywhere can be dangling.
-/

set_option autoImplicit false

namespace ObjectHeap

namespace Heap

/-- The slot of a reference holds an object of its kind. -/
def Valid {k : Kind} (h : Heap) (r : Ref k) : Prop := ∃ p, h.object? r.slot = some (.of k p)

/-- The slot of a symbol holds a string with its hash. -/
def ValidSymbol (h : Heap) (s : Symbol) : Prop :=
  ∃ str, h.object? s.str.slot = some (.str str) ∧ str.hash = s.hash

def ValidValue (h : Heap) : Value → Prop
  | .nil | .bool _ | .num _ => True
  | .str s => h.ValidSymbol s
  | .cls c => h.Valid c
  | .inst i => h.Valid i

def ValidTable (h : Heap) (t : Table) : Prop :=
  ∀ entry ∈ t.entries, h.ValidSymbol entry.1 ∧ h.ValidValue entry.2

def ValidObject (h : Heap) : Object → Prop
  | .str _ => True
  | .cls c => h.ValidSymbol c.name ∧ h.ValidTable c.methods
  | .inst i => h.Valid i.cls ∧ h.ValidTable i.fields
  | .box v => h.ValidValue v

/-- What the objects refer to is valid. -/
def Closed (h : Heap) : Prop := ∀ slot o, h.object? slot = some o → h.ValidObject o

end Heap

end ObjectHeap
