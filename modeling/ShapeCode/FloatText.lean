import ShapeCode.FloatBits
import ShapeCode.Shortest

set_option autoImplicit false

/-!
# Float text: the fewest digits that read back, without exponents

A finite number is written with the fewest decimal digits that are nearer to it than to
any other number of its format, in positional notation however large or small it is, and
without a point if there is nothing behind it.  A negative zero keeps its sign.
-/

namespace ShapeCode.FloatText

/-- No number of a format needs more digits than this. -/
def mostDigits : Nat := 20

/-- The numbers that round to `mantissa * 2 ^ exponent`, in quarters of the last place: the
ends are half way to the neighbours, and belong to the interval if the mantissa is even. -/
def target (mantissa : Nat) (exponent : Int) (narrow : Bool) : Shortest.Target :=
  let up := Nat.pow 2 (exponent - 2).toNat
  { low := (4 * mantissa - (if narrow then 1 else 2)) * up
    value := 4 * mantissa * up
    high := (4 * mantissa + 2) * up
    denominator := Nat.pow 2 (2 - exponent).toNat
    closed := mantissa % 2 == 0 }

/-- Digits without the zeros at their end. -/
def dropTrailingZeros (ds : List Char) : List Char :=
  (ds.reverse.dropWhile (· == '0')).reverse

/-- Digits with a point before the last `places`, filled up with zeros in front. -/
def withPoint (ds : List Char) (places : Nat) : List Char :=
  let filled := List.replicate (places + 1 - ds.length) '0' ++ ds
  let whole := filled.take (filled.length - places)
  let part := dropTrailingZeros (filled.drop (filled.length - places))
  if part.isEmpty then whole else whole ++ ('.' :: part)

/-- A decimal in positional notation. -/
def positional (d : Shortest.Decimal) : List Char :=
  let ds := Nat.toDigits 10 d.digits
  if 0 ≤ d.exponent then ds ++ List.replicate d.exponent.toNat '0'
  else withPoint ds (-d.exponent).toNat

/-- The digits of a finite number without its sign. -/
def finite (mantissa : Nat) (exponent : Int) (narrow : Bool) : List Char :=
  if mantissa = 0 then ['0']
  else positional ((target mantissa exponent narrow).shortest mostDigits)

/-- The text of a number. -/
def ofBits (f : FloatFormat) (bits : Nat) : String :=
  match f.decode bits with
  | .nan => "NaN"
  | .infinite negative => if negative then "-inf" else "inf"
  | .finite negative mantissa exponent narrow =>
    String.ofList ((if negative then ['-'] else []) ++ finite mantissa exponent narrow)

end ShapeCode.FloatText
