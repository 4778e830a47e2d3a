import ObjectHeap.Number.Basic

/-!
# The shortest decimal of a number

A finite number stands for an interval of reals: those that round to it. Its shortest decimal is the
multiple of the greatest power of ten in that interval, and of several multiples the one nearest to
the number. On a given power of ten only the two neighbours of the number have to be tried, because
if any multiple lies in the interval then one of the neighbours does.

All comparisons are between naturals: numbers, ends of the interval and multiples are brought over
one denominator first (`Scaled`). There is no rounding anywhere, hence no case in which the answer
is only nearly the shortest.
-/

set_option autoImplicit false

namespace ObjectHeap

namespace Number

/-- The magnitude of a finite number is `significand * 2 ^ scale`. Unless the number is subnormal,
its fraction has a bit before it that is not stored. -/
def significand (n : Number) : Nat :=
  if n.exponentField == 0 then n.fractionField else 0x10000000000000 + n.fractionField

/-- The binary exponent that goes with `significand`. -/
def scale (n : Number) : Int :=
  if n.exponentField == 0 then -1074 else (n.exponentField : Int) - 1075

/-- The gap to the number below is half the gap to the number above. This is so at the powers of
two, except for the least normal one, whose lower neighbour is subnormal and equally far. -/
def narrowBelow (n : Number) : Bool := n.fractionField == 0 && n.exponentField > 1

end Number

/-- A number and the ends of its rounding interval as multiples of one quantity, of which `unit`
make up one step of the decimal grid under consideration. -/
structure Scaled where
  value : Nat
  low : Nat
  high : Nat
  unit : Nat
  /-- The ends themselves round to the number. -/
  closed : Bool

namespace Scaled

/-- A finite number on the grid of the multiples of `10 ^ e`. The ends of the interval lie halfway
to the neighbouring numbers, which is why everything is counted in quarters of the last binary
place; they round to the number when its significand is even. -/
def of (n : Number) (e : Int) : Scaled :=
  let up := Nat.pow 2 (n.scale - 2).toNat * Nat.pow 10 (-e).toNat
  { value := 4 * n.significand * up
    low := (4 * n.significand - (if n.narrowBelow then 1 else 2)) * up
    high := (4 * n.significand + 2) * up
    unit := Nat.pow 2 (2 - n.scale).toNat * Nat.pow 10 e.toNat
    closed := n.significand % 2 == 0 }

/-- The multiple of the grid step lies in the interval. -/
def covers (s : Scaled) (multiple : Nat) : Bool :=
  let reached := multiple * s.unit
  if s.closed then s.low ≤ reached && reached ≤ s.high else s.low < reached && reached < s.high

/-- The multiple of the grid step in the interval that is nearest to the number, if there is one. A
number halfway between two goes to the greater. -/
def nearest? (s : Scaled) : Option Nat :=
  let below := s.value / s.unit
  match s.covers below, s.covers (below + 1) with
  | true, true => if 2 * s.value < (2 * below + 1) * s.unit then some below else some (below + 1)
  | true, false => some below
  | false, true => some (below + 1)
  | false, false => none

end Scaled

/-- The value `digits * 10 ^ exponent`. -/
structure Decimal where
  digits : Nat
  exponent : Int
  deriving DecidableEq, Repr

namespace Number

/-- The exponent of the finest grid that is ever needed: the interval of the least number is wider
than one step of it. -/
def finestGrid : Int := -324

/-- Tries the grids from `10 ^ (finestGrid + steps)` down to `10 ^ finestGrid`. -/
def shortestFrom (n : Number) : (steps : Nat) → Option Decimal
  | 0 => (Scaled.of n finestGrid).nearest?.map (⟨·, finestGrid⟩)
  | steps + 1 =>
    let e := finestGrid + (steps + 1 : Nat)
    match (Scaled.of n e).nearest? with
    | some digits => some ⟨digits, e⟩
    | none => shortestFrom n steps

/-- The shortest decimal that rounds to a finite number other than zero, whose sign is ignored. No
number reaches `10 ^ 309`, so the search starts there. -/
def shortest? (n : Number) : Option Decimal := n.shortestFrom 633

end Number

end ObjectHeap
