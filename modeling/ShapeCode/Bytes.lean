set_option autoImplicit false

/-!
# Bytes: runs of bytes and little-endian words

Shape bytecode, descriptor files and value images are all runs of bytes, and every
number wider than a byte is stored least significant byte first.  This module fixes that
order once, together with the one way a run is cut in two.
-/

namespace ShapeCode

/-- A run of bytes. -/
abbrev Bytes : Type := List UInt8

namespace Bytes

/-! ## Little-endian numbers -/

/-- The number a run spells, least significant byte first. -/
def toNat : Bytes → Nat
  | [] => 0
  | b :: rest => b.toNat + 256 * toNat rest

/-- The `width` low-order bytes of `n`, least significant first. -/
def ofNat : (width : Nat) → (n : Nat) → Bytes
  | 0, _ => []
  | width + 1, n => UInt8.ofNat n :: ofNat width (n / 256)

@[simp] theorem length_ofNat (width n : Nat) : (ofNat width n).length = width := by
  induction width generalizing n with
  | zero => rfl
  | succ width ih => simp [ofNat, ih]

/-- A run is what its number is written as in its own length. -/
theorem ofNat_toNat (bs : Bytes) : ofNat bs.length (toNat bs) = bs := by
  induction bs with
  | nil => rfl
  | cons b rest ih =>
    have hb : b.toNat < 256 := b.toNat_lt
    have hdiv : (b.toNat + 256 * toNat rest) / 256 = toNat rest := by omega
    have hlow : UInt8.ofNat (b.toNat + 256 * toNat rest) = b := by
      apply UInt8.toNat_inj.1
      rw [UInt8.toNat_ofNat']
      omega
    simp only [List.length_cons, toNat, ofNat, hdiv, hlow, ih]

/-! ## Cutting a run -/

/-- The first `n` bytes and what follows them, if there are that many. -/
def split? (n : Nat) (bs : Bytes) : Option (Bytes × Bytes) :=
  let head := bs.take n
  if head.length = n then some (head, bs.drop n) else none

theorem split?_eq_some_iff {n : Nat} {bs head rest : Bytes} :
    split? n bs = some (head, rest) ↔ bs = head ++ rest ∧ head.length = n := by
  unfold split?
  constructor
  · intro h
    by_cases hn : (bs.take n).length = n
    · rw [if_pos hn] at h
      obtain ⟨rfl, rfl⟩ := Prod.mk.inj (Option.some.inj h)
      exact ⟨(List.take_append_drop n bs).symm, hn⟩
    · rw [if_neg hn] at h
      cases h
  · rintro ⟨rfl, rfl⟩
    simp

theorem split?_eq_none_iff {n : Nat} {bs : Bytes} :
    split? n bs = none ↔ bs.length < n := by
  unfold split?
  by_cases hn : (bs.take n).length = n
  · rw [if_pos hn]
    rw [List.length_take] at hn
    constructor
    · intro h; cases h
    · intro h; omega
  · rw [if_neg hn]
    rw [List.length_take] at hn
    constructor
    · intro _; omega
    · intro _; rfl

end Bytes

end ShapeCode
