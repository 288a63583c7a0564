set_option autoImplicit false

/-!
# Shortest decimals: the fewest digits in an interval

A positive rational number and an interval around it are given over a common
denominator.  Among the decimals inside the interval those with the fewest digits are
looked for, and of these the one nearest to the number; of two equally near the larger.
It is enough to look at the two neighbours of the number on the grid of each digit
count: if any point of a grid lies in the interval, so does one of these.
-/

namespace ShapeCode.Shortest

/-- A number and the ends of an interval around it, over one denominator. -/
structure Target where
  low : Nat
  value : Nat
  high : Nat
  denominator : Nat
  /-- Whether the ends belong to the interval. -/
  closed : Bool
  deriving DecidableEq, Repr, Inhabited

/-- The decimal `digits * 10 ^ exponent`. -/
structure Decimal where
  digits : Nat
  exponent : Int
  deriving DecidableEq, Repr, Inhabited

namespace Target

/-- The factor of numerators on the grid of `10 ^ e`. -/
def scaleUp (e : Int) : Nat := Nat.pow 10 (-e).toNat

/-- The unit of the grid of `10 ^ e`, in scaled numerators. -/
def unit (t : Target) (e : Int) : Nat := t.denominator * Nat.pow 10 e.toNat

/-- Whether the grid point `n * 10 ^ e` lies in the interval. -/
def holds (t : Target) (e : Int) (n : Nat) : Bool :=
  let point := n * t.unit e
  let low := t.low * scaleUp e
  let high := t.high * scaleUp e
  if t.closed then low ≤ point && point ≤ high else low < point && point < high

/-- The last grid point of `10 ^ e` that is not above the number. -/
def below (t : Target) (e : Int) : Nat := t.value * scaleUp e / t.unit e

/-- Whether the grid point after `below` is at least as near as `below`. -/
def upIsNearer (t : Target) (e : Int) : Bool :=
  t.unit e ≤ 2 * (t.value * scaleUp e - t.below e * t.unit e)

/-- The neighbour of the number on the grid of `10 ^ e` that lies in the interval. -/
def onGrid? (t : Target) (e : Int) : Option Nat :=
  let n := t.below e
  match t.holds e n, t.holds e (n + 1) with
  | true, true => some (if t.upIsNearer e then n + 1 else n)
  | true, false => some n
  | false, true => some (n + 1)
  | false, false => none

/-- The number of digits before the point: the number is below `10 ^ magnitude` and not
below a tenth of it. -/
def magnitude (t : Target) : Int :=
  if t.denominator ≤ t.value
    then ((Nat.toDigits 10 (t.value / t.denominator)).length : Int)
  else
    -- the zeros behind the point are the digits that the reciprocal, rounded up
    -- and less one, has
    -((Nat.toDigits 10 ((t.denominator - 1) / t.value)).length : Int) + 1

/-- The first grid from `10 ^ e` on, each ten times finer, with a decimal
in the interval. -/
def search (t : Target) : (fuel : Nat) → (e : Int) → Decimal
  | 0, e => ⟨t.below e, e⟩
  | fuel + 1, e =>
    match t.onGrid? e with
    | some n => ⟨n, e⟩
    | none => search t fuel (e - 1)

/-- The decimal of fewest digits in the interval, searched up to `most` digits. -/
def shortest (t : Target) (most : Nat) : Decimal := t.search most (t.magnitude - 1)

end Target

end ShapeCode.Shortest
