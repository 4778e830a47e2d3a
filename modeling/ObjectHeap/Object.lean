import ObjectHeap.Table.Basic
import ObjectHeap.Text.Hash

/-!
# Objects

What the heap holds: strings, classes with their methods, instances with their fields, and boxed
values. For the collector an object is two things, its *footprint* and its *targets*. The footprint
is what the object is charged for when it is put on the heap, and since tables grow later it can
differ from what was charged. The targets are the slots that the object refers to, in the order in
which a collection marks them.
-/

set_option autoImplicit false

namespace ObjectHeap

structure Str where
  text : String
  /-- The hash of the text that the string was made with. -/
  hash : UInt32
  /-- The bytes set aside for the text. -/
  capacity : Nat
  deriving DecidableEq, Repr, Inhabited

namespace Str

/-- The string with the given text, for which at least `reserved` bytes are set aside. -/
def ofText (text : String) (reserved : Nat) : Str :=
  { text, hash := Text.hash text, capacity := max reserved text.utf8ByteSize }

/-- The string with its text replaced. The hash stays that of the text it was made with. -/
def withText (s : Str) (text : String) : Str := { s with text, capacity := text.utf8ByteSize }

end Str

structure Class where
  name : Symbol
  methods : Table := ∅
  deriving DecidableEq, Repr, Inhabited

structure Instance where
  cls : Ref .cls
  fields : Table := ∅
  deriving DecidableEq, Repr, Inhabited

inductive Object
  | str (s : Str)
  | cls (c : Class)
  | inst (i : Instance)
  | box (v : Value)
  deriving DecidableEq, Repr, Inhabited

/-- What an object of the given kind consists of. -/
abbrev Kind.Payload : Kind → Type
  | .str => Str
  | .cls => Class
  | .inst => Instance
  | .box => Value

namespace Object

/-- The object of the given kind. -/
def of : (k : Kind) → k.Payload → Object
  | .str, s => .str s
  | .cls, c => .cls c
  | .inst, i => .inst i
  | .box, v => .box v

/-- The payload of an object, if it is of the given kind. -/
def as? : (k : Kind) → Object → Option k.Payload
  | .str, .str s => some s
  | .cls, .cls c => some c
  | .inst, .inst i => some i
  | .box, .box v => some v
  | _, _ => none

theorem as?_of (k : Kind) (p : k.Payload) : (of k p).as? k = some p := by
  cases k <;> rfl

theorem eq_of_as? {k : Kind} {o : Object} {p : k.Payload} (h : o.as? k = some p) :
    o = of k p := by
  cases k <;> cases o <;> simp_all [as?, of]

/-- The bytes that one bucket of a table takes. -/
def bucketBytes : Nat := 40

/-- The bytes that an object takes, without what the heap keeps beside it. -/
def footprint : Object → Nat
  | .str s => 32 + s.capacity
  | .cls c => 56 + bucketBytes * c.methods.capacity
  | .inst i => 48 + bucketBytes * i.fields.capacity
  | .box _ => 0

/-- The slots that an object refers to. -/
def targets : Object → List Nat
  | .str _ => []
  | .cls c => c.name.str.slot :: c.methods.targets
  | .inst i => i.cls.slot :: i.fields.targets
  | .box v => v.target?.toList

end Object

end ObjectHeap
