import ObjectHeap.Heap.Allocate
import ObjectHeap.Table.Search

/-!
# Interning

The heap holds one string for each interned text. It is found by content in the table of interned
strings; if it is not there it is allocated and its symbol put into the table.
-/

set_option autoImplicit false

namespace ObjectHeap

namespace Heap

/-- The symbol of a text that is interned. -/
def find? (h : Heap) (text : String) : Except Fault (Option Symbol) :=
  h.strings.findText? text (Text.hash text) h.textOf

/-- Allocates a string and puts its symbol into the table of interned strings. -/
def addString (h : Heap) (s : Str) : Outcome (Heap × Symbol) := do
  let (h, r) ← h.allocate .str s
  let symbol : Symbol := { str := r, hash := s.hash }
  let strings := (h.strings.insert symbol .nil).1
  Outcome.report (Event.growths h.strings strings)
  return ({ h with strings }, symbol)

/-- The symbol of a text. If it is not interned yet, at least `reserved` bytes are set aside for
its string. -/
def internReserving (h : Heap) (text : String) (reserved : Nat) : Outcome (Heap × Symbol) := do
  match ← h.find? text with
  | some symbol => return (h, symbol)
  | none => h.addString (.ofText text reserved)

/-- The symbol of a text. -/
def intern (h : Heap) (text : String) : Outcome (Heap × Symbol) := h.internReserving text 0

/-- The bytes of two texts are those of the joined text, which a string of that text takes anyway.
-/
theorem internReserving_append (h : Heap) (first second : String) :
    h.internReserving (first ++ second) (first.utf8ByteSize + second.utf8ByteSize) =
      h.intern (first ++ second) := by
  have hstring : Str.ofText (first ++ second) (first.utf8ByteSize + second.utf8ByteSize) =
      .ofText (first ++ second) 0 := by
    simp only [Str.ofText, String.utf8ByteSize_append, Nat.max_self, Nat.zero_max]
  rw [intern, internReserving, internReserving, hstring]

end Heap

end ObjectHeap
