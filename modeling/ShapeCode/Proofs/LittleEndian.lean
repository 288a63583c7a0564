import Mathlib.Algebra.Group.Nat.Defs
import ShapeCode.Bytes

set_option autoImplicit false

/-!
# Little-endian numbers

The number that a run of bytes spells fits in as many bytes (`toNat_lt`), and writing a
number and reading it back drops what does not fit (`toNat_ofNat`); the other direction
is `ofNat_toNat`.  Runs of two, four and eight bytes spell words of that width.
-/

namespace ShapeCode.Bytes

theorem toNat_lt (bs : Bytes) : toNat bs < 256 ^ bs.length := by
  induction bs with
  | nil => simp [toNat]
  | cons b rest ih =>
    have hb : b.toNat < 256 := b.toNat_lt
    simp only [toNat, List.length_cons, Nat.pow_succ]
    omega

/-- Writing a number in `width` bytes and reading it back drops what does not fit. -/
theorem toNat_ofNat (width n : Nat) : toNat (ofNat width n) = n % 256 ^ width := by
  induction width generalizing n with
  | zero => simp [ofNat, toNat, Nat.mod_one]
  | succ width ih =>
    simp only [ofNat, toNat, ih, UInt8.toNat_ofNat']
    rw [show 256 ^ (width + 1) =
      256 * 256 ^ width by rw [Nat.pow_succ, Nat.mul_comm], Nat.mod_mul]

theorem toNat_ofNat_of_lt {width n : Nat} (h : n < 256 ^ width) :
    toNat (ofNat width n) = n := by
  rw [toNat_ofNat, Nat.mod_eq_of_lt h]

/-! ## Words -/

theorem toNat_u16 {word : Bytes} (h : word.length = 2) :
    (UInt16.ofNat word.toNat).toNat = word.toNat := by
  have hlt := toNat_lt word
  rw [h] at hlt
  rw [UInt16.toNat_ofNat']
  exact Nat.mod_eq_of_lt hlt

theorem toNat_u32 {word : Bytes} (h : word.length = 4) :
    (UInt32.ofNat word.toNat).toNat = word.toNat := by
  have hlt := toNat_lt word
  rw [h] at hlt
  rw [UInt32.toNat_ofNat']
  exact Nat.mod_eq_of_lt hlt

theorem toNat_u64 {word : Bytes} (h : word.length = 8) :
    (UInt64.ofNat word.toNat).toNat = word.toNat := by
  have hlt := toNat_lt word
  rw [h] at hlt
  rw [UInt64.toNat_ofNat']
  exact Nat.mod_eq_of_lt hlt

theorem ofNat_toNat_of_length {bs : Bytes} {n : Nat} (h : bs.length = n) :
    ofNat n bs.toNat = bs := by
  rw [← h]
  exact ofNat_toNat bs

end ShapeCode.Bytes
