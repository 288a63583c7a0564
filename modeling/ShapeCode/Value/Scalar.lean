import ShapeCode.FloatText
import ShapeCode.Kind
import ShapeCode.Memory
import ShapeCode.Quoted

set_option autoImplicit false

/-!
# Scalar values: reading, ordering, writing

A scalar is the number in its bytes, read as its kind says: unsigned, signed in two's
complement, or a floating-point number.  A truth value is ordered as the byte it is, and
is true unless that is zero.
-/

namespace ShapeCode.Scalar

/-- The signed number of `width` bytes with the given unsigned value. -/
def signed (width n : Nat) : Int :=
  if 2 * n < Nat.pow 256 width then n else (n : Int) - (Nat.pow 256 width : Nat)

/-- The number in the bytes of a scalar. -/
def number (s : Scalar) (mem : Memory) (address : Nat) : Nat := mem.number s.size address

/-- The order of two scalars of one kind, by the numbers in their bytes. -/
def order (s : Scalar) (a b : Nat) : Ordering :=
  match s with
  | .unit => .eq
  | .bool | .char | .u8 | .u16 | .u32 | .u64 => compare a b
  | .i8 | .i16 | .i32 | .i64 => compare (signed s.size a) (signed s.size b)
  | .f32 => FloatFormat.single.compare a b
  | .f64 => FloatFormat.double.compare a b

/-- The text of a scalar, by the number in its bytes. -/
def text (s : Scalar) (n : Nat) : String :=
  match s with
  | .unit => "()"
  | .bool => if n = 0 then "false" else "true"
  | .char => Quoted.char n
  | .u8 | .u16 | .u32 | .u64 => toString n
  | .i8 | .i16 | .i32 | .i64 => toString (signed s.size n)
  | .f32 => FloatText.ofBits .single n
  | .f64 => FloatText.ofBits .double n

end ShapeCode.Scalar
