set_option autoImplicit false

/-!
# Floating-point numbers as bits

A binary floating-point number is a sign, a biased exponent and a fraction.  Decoding
gives a finite number exactly, as a natural number times a power of two.  Two numbers
that are not NaN are ordered like their bits without the sign, with the sign applied:
zero of either sign is the same.
-/

namespace ShapeCode

/-- The widths of a binary floating-point format. -/
structure FloatFormat where
  exponentBits : Nat
  fractionBits : Nat
  deriving DecidableEq, Repr, Inhabited

/-- What the bits of a floating-point number say. -/
inductive FloatValue where
  | nan
  | infinite (negative : Bool)
  /-- The number `mantissa * 2 ^ exponent`, with a sign; `narrow` if the gap to the next
  smaller number is half the gap to the next larger one. -/
  | finite (negative : Bool) (mantissa : Nat) (exponent : Int) (narrow : Bool)
  deriving DecidableEq, Repr, Inhabited

namespace FloatFormat

/-- Four bytes. -/
def single : FloatFormat := ⟨8, 23⟩

/-- Eight bytes. -/
def double : FloatFormat := ⟨11, 52⟩

/-- The bits without the sign. -/
def magnitude (f : FloatFormat) (bits : Nat) : Nat :=
  bits % Nat.pow 2 (f.exponentBits + f.fractionBits)

/-- Whether the sign bit is set. -/
def isNegative (f : FloatFormat) (bits : Nat) : Bool :=
  bits / Nat.pow 2 (f.exponentBits + f.fractionBits) % 2 == 1

/-- The largest biased exponent, which infinities and NaNs have. -/
def top (f : FloatFormat) : Nat := Nat.pow 2 f.exponentBits - 1

/-- The exponent of the last fraction bit of the numbers with biased exponent one. -/
def least (f : FloatFormat) : Int :=
  2 - (Nat.pow 2 (f.exponentBits - 1) : Int) - f.fractionBits

/-- The biased exponent. -/
def biased (f : FloatFormat) (bits : Nat) : Nat :=
  f.magnitude bits / Nat.pow 2 f.fractionBits

/-- The fraction. -/
def fraction (f : FloatFormat) (bits : Nat) : Nat :=
  f.magnitude bits % Nat.pow 2 f.fractionBits

/-- Whether the bits are no number. -/
def isNaN (f : FloatFormat) (bits : Nat) : Bool :=
  f.biased bits == f.top && f.fraction bits != 0

/-- What the bits say. -/
def decode (f : FloatFormat) (bits : Nat) : FloatValue :=
  let negative := f.isNegative bits
  let biased := f.biased bits
  let fraction := f.fraction bits
  if biased = f.top then if fraction = 0 then .infinite negative else .nan
  else if biased = 0 then .finite negative fraction f.least false
  else
    .finite negative (Nat.pow 2 f.fractionBits + fraction) (f.least + (biased - 1))
      (fraction == 0 && biased != 1)

/-- The position of a number that is not NaN among all of them. -/
def rank (f : FloatFormat) (bits : Nat) : Int :=
  if f.isNegative bits then -(f.magnitude bits : Int) else f.magnitude bits

/-- The order of two numbers.  Where a NaN is involved, neither is less and they are not
equal, and the first counts as the greater. -/
def compare (f : FloatFormat) (a b : Nat) : Ordering :=
  if f.isNaN a || f.isNaN b then .gt else Ord.compare (f.rank a) (f.rank b)

end FloatFormat

end ShapeCode
