import ShapeCode.Bytes
import ShapeCode.Numeral

set_option autoImplicit false

/-!
# Quoted text: characters and byte strings

Everything that is not printable ASCII is written as an escape, so quoted text is one
line of printable ASCII whatever it quotes.  A character is escaped by its code, which
need not be that of a character; a byte string byte by byte.
-/

namespace ShapeCode.Quoted

/-- Whether a code is that of a printable ASCII character. -/
def isPrintable (code : Nat) : Bool := 0x20 ≤ code && code ≤ 0x7e

/-- A code between single quotes, without them. -/
def charBody (code : Nat) : List Char :=
  if code = 0x09 then ['\\', 't']
  else if code = 0x0a then ['\\', 'n']
  else if code = 0x0d then ['\\', 'r']
  else if code = 0x22 ∨ code = 0x27 ∨ code = 0x5c then ['\\', Char.ofNat code]
  else if isPrintable code then [Char.ofNat code]
  else ['\\', 'u', '{'] ++ Numeral.hexDigits code ++ ['}']

/-- A character of the given code in single quotes. -/
def char (code : Nat) : String := String.ofList ('\'' :: (charBody code ++ ['\'']))

/-- A digit below sixteen. -/
def hexDigit (n : Nat) : Char := Nat.digitChar n

/-- A byte inside a byte string. -/
def byteBody (b : UInt8) : List Char :=
  if b = 0x0a then ['\\', 'n']
  else if b = 0x0d then ['\\', 'r']
  else if b = 0x09 then ['\\', 't']
  else if b = 0x22 ∨ b = 0x5c then ['\\', Char.ofNat b.toNat]
  else if isPrintable b.toNat then [Char.ofNat b.toNat]
  else ['\\', 'x', hexDigit (b.toNat / 16), hexDigit (b.toNat % 16)]

/-- A byte string in double quotes. -/
def bytes (bs : Bytes) : String := String.ofList ('"' :: (bs.flatMap byteBody ++ ['"']))

end ShapeCode.Quoted
