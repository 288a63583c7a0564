set_option autoImplicit false

/-!
# Numerals: numbers written in a base

Decimal text is that of `Nat.repr`.  Hexadecimal text has lower-case digits and, where a
field asks for it, zeros in front.
-/

namespace ShapeCode.Numeral

/-- The lower-case digits of `n` in base sixteen. -/
def hexDigits (n : Nat) : List Char := Nat.toDigits 16 n

/-- The hexadecimal text of a number. -/
def hex (n : Nat) : String := String.ofList (hexDigits n)

/-- Text filled up with zeros in front to at least `width` characters. -/
def padded (width : Nat) (digits : List Char) : String :=
  String.ofList (List.replicate (width - digits.length) '0' ++ digits)

/-- The hexadecimal text of a number, in at least `width` digits. -/
def hexPadded (width n : Nat) : String := padded width (hexDigits n)

/-- The decimal text of a number, in at least `width` digits. -/
def decimalPadded (width n : Nat) : String := padded width (Nat.toDigits 10 n)

/-! ## Logarithms -/

/-- The exponent of the largest power of ten that a positive number reaches. -/
def log10 (n : Nat) : Nat := if n < 10 then 0 else log10 (n / 10) + 1

/-- A number has one decimal digit more than its logarithm. -/
theorem length_toDigits (n : Nat) : (Nat.toDigits 10 n).length = log10 n + 1 := by
  induction n using log10.induct with
  | case1 n h =>
    rw [Nat.toDigits_of_lt_base h, log10, if_pos h]
    rfl
  | case2 n h ih =>
    have hstep : log10 n = log10 (n / 10) + 1 := by rw [log10, if_neg h]
    rw [Nat.toDigits_of_base_le (by decide) (Nat.le_of_not_lt h),
      List.length_append, ih, hstep]
    rfl

end ShapeCode.Numeral
