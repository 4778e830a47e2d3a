import ObjectHeap.Number.Basic

/-!
# Values

A program handles values: nothing, truth values, numbers, and references to what lives on the heap.
A reference is only a slot number. Its kind, which says what it refers to, is an index of its type
and costs nothing at run time; whether the slot still holds an object of that kind is for the heap
to say when the reference is followed.

Strings are referred to by *symbols*: a reference together with the hash of the text. Two symbols
are equal when both parts are, so equality of strings never looks at a text. That this is the same
as equality of texts is the work of interning.
-/

set_option autoImplicit false

namespace ObjectHeap

/-- The kinds of object on the heap. -/
inductive Kind
  | str
  | cls
  | inst
  | box
  deriving DecidableEq, Repr

/-- A reference to an object of the given kind. -/
structure Ref (k : Kind) where
  slot : Nat
  deriving DecidableEq, Repr, Inhabited

/-- A reference to a string, with the hash of its text. -/
structure Symbol where
  str : Ref .str
  hash : UInt32
  deriving DecidableEq, Repr, Inhabited

inductive Value
  | nil
  | bool (b : Bool)
  | num (n : Number)
  | str (s : Symbol)
  | cls (c : Ref .cls)
  | inst (i : Ref .inst)
  deriving DecidableEq, Repr, Inhabited

namespace Value

/-- The slot that a value refers to. -/
def target? : Value → Option Nat
  | .nil | .bool _ | .num _ => none
  | .str s => some s.str.slot
  | .cls c => some c.slot
  | .inst i => some i.slot

/-- A condition fails on nothing and on false, and on no other value. -/
def isFalsey : Value → Bool
  | .nil | .bool false => true
  | _ => false

/-- Equality of values as the language has it. Numbers are compared as numbers, all else by
identity. -/
def same : Value → Value → Bool
  | .num a, .num b => a.same b
  | a, b => a = b

end Value

/-- How many different symbols a list holds. -/
def Symbol.countDistinct (symbols : List Symbol) : Nat := symbols.eraseDups.length

end ObjectHeap
