import ObjectHeap.Number.Shortest

/-!
# The text of a number

Numbers are written with the digits of their shortest decimal and always positionally: an exponent
becomes zeros before or after the digits. Whole numbers have no point. A minus sign is written
whenever the sign bit is set, also for zero, but not for a NaN.
-/

set_option autoImplicit false

namespace ObjectHeap

namespace Decimal

def zeros (count : Nat) : List Char := List.replicate count '0'

/-- The decimal in positional notation. With a negative exponent the digits are padded on the left
so that at least one stands before the point. -/
def positional (d : Decimal) : List Char :=
  let digits := Nat.toDigits 10 d.digits
  if 0 ≤ d.exponent then digits ++ zeros d.exponent.toNat
  else
    let places := (-d.exponent).toNat
    let padded := zeros (places + 1 - digits.length) ++ digits
    let whole := padded.length - places
    padded.take whole ++ '.' :: padded.drop whole

end Decimal

namespace Number

/-- The text of the magnitude of a number that is no NaN. -/
def magnitudeText (n : Number) : List Char :=
  if n.isInfinite then ['i', 'n', 'f']
  else if n.isZero then ['0']
  else match n.shortest? with
    | some d => d.positional
    | none => []

/-- A number as the language displays it. -/
def text (n : Number) : String :=
  if n.isNaN then "NaN"
  else String.ofList (if n.isNegative then '-' :: n.magnitudeText else n.magnitudeText)

example : (Number.mk 0x3FD3333333333334).text = "0.30000000000000004" := by decide +kernel

example : (Number.mk 0x8000000000000000).text = "-0" := by decide +kernel

end Number

end ObjectHeap
