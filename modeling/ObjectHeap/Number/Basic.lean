/-!
# Numbers

A number is a 64-bit IEEE 754 value, kept as its bits. Nothing here computes with numbers: they are
stored, compared and written. Keeping the bits makes storing exact (a NaN keeps its payload, and
minus zero its sign) and equality of numbers decidable, which equality of floating-point values is
not: `Number.same` is the comparison of the language, under which a NaN differs from itself.
-/

set_option autoImplicit false

namespace ObjectHeap

/-- A 64-bit floating-point number, given by its bits. -/
structure Number where
  bits : UInt64
  deriving DecidableEq, Repr, Inhabited

namespace Number

/-- The sign bit. -/
def isNegative (n : Number) : Bool := n.bits >>> 63 == 1

/-- The biased exponent, from 0 to 2047. -/
def exponentField (n : Number) : Nat := ((n.bits >>> 52) &&& 0x7FF).toNat

/-- The 52 bits below the exponent. -/
def fractionField (n : Number) : Nat := (n.bits &&& 0xFFFFFFFFFFFFF).toNat

/-- An infinity or a NaN. -/
def isSpecial (n : Number) : Bool := n.exponentField == 2047

def isNaN (n : Number) : Bool := n.isSpecial && n.fractionField != 0

def isInfinite (n : Number) : Bool := n.isSpecial && n.fractionField == 0

/-- Zero of either sign. -/
def isZero (n : Number) : Bool := n.exponentField == 0 && n.fractionField == 0

/-- Equality of numbers as the language has it: a NaN equals nothing, and the two zeros are equal.
-/
def same (a b : Number) : Bool :=
  !a.isNaN && !b.isNaN && (a.bits == b.bits || (a.isZero && b.isZero))

end Number

end ObjectHeap
