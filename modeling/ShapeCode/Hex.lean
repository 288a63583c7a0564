import ShapeCode.Bytes
import ShapeCode.Numeral

set_option autoImplicit false

/-!
# Hexadecimal text of bytes

Two digits a byte, of either case when read and of lower case when written.  A text of
an odd number of bytes is refused before its digits are looked at; otherwise the first
byte that is no digit is reported with its position.
-/

namespace ShapeCode

/-- Why a text is no hexadecimal text. -/
inductive HexError where
  | oddLength
  | badDigit (byte : UInt8) (position : Nat)
  deriving DecidableEq, Repr, Inhabited

namespace Hex

/-- The value of a digit. -/
def digitValue? (b : UInt8) : Option Nat :=
  let n := b.toNat
  if 48 ≤ n ∧ n ≤ 57 then some (n - 48)
  else if 97 ≤ n ∧ n ≤ 102 then some (n - 87)
  else if 65 ≤ n ∧ n ≤ 70 then some (n - 55)
  else none

/-- The bytes of pairs of digits, the first at `position`, after those in `before`,
which are kept newest first. -/
def pairs : (position : Nat) → (before : Bytes) → Bytes → Except HexError Bytes
  | position, before, high :: low :: rest =>
    match digitValue? high with
    | none => .error (.badDigit high position)
    | some h =>
      match digitValue? low with
      | none => .error (.badDigit low (position + 1))
      | some l => pairs (position + 2) (UInt8.ofNat (16 * h + l) :: before) rest
  | _, before, _ => .ok before.reverse

/-- The bytes of a text. -/
def decode (text : Bytes) : Except HexError Bytes :=
  if text.length % 2 = 1 then .error .oddLength else pairs 0 [] text

/-- The text of bytes. -/
def encode (bs : Bytes) : String :=
  String.ofList (bs.flatMap fun b =>
    [Nat.digitChar (b.toNat / 16), Nat.digitChar (b.toNat % 16)])

end Hex

namespace HexError

/-- A byte as a character in single quotes; what cannot be shown is escaped. -/
def shown (b : UInt8) : String :=
  let n := b.toNat
  let body : String :=
    if n = 0 then "\\0"
    else if n = 9 then "\\t"
    else if n = 10 then "\\n"
    else if n = 13 then "\\r"
    else if n = 39 ∨ n = 92 then "\\" ++ String.singleton (Char.ofNat n)
    else if n < 32 ∨ (127 ≤ n ∧ n ≤ 160) ∨ n = 173
      then "\\u\x7b" ++ Numeral.hex n ++ "\x7d"
    else String.singleton (Char.ofNat n)
  "'" ++ body ++ "'"

/-- The text of a refusal. -/
def message : HexError → String
  | .oddLength => "Odd number of digits"
  | .badDigit byte position =>
    "Invalid character " ++ shown byte ++ s!" at position {position}"

end HexError

end ShapeCode
