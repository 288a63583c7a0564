import ShapeCode.Fault

set_option autoImplicit false

/-!
# Machine words: 64-bit sizes and addresses

Sizes, counts and addresses are natural numbers below `Word.limit`.  A size is computed
with checks: a sum or a product that leaves the word is a fault.  An address wraps
around.  Rounding up to an alignment clears the low bits of `n + align - 1`, and the sum
`n + align` is the one that is checked.
-/

namespace ShapeCode.Word

/-- The first number that does not fit in a word. -/
def limit : Nat := 0x10000000000000000

/-- Bytes in a word. -/
def size : Nat := 8

/-- Addresses wrap around at the end of memory. -/
def wrap (n : Nat) : Nat := n % limit

theorem wrap_lt (n : Nat) : wrap n < limit := Nat.mod_lt _ (by decide)

theorem wrap_of_lt {n : Nat} (h : n < limit) : wrap n = n := Nat.mod_eq_of_lt h

/-- A sum of sizes. -/
def add (a b : Nat) : Except Fault Nat :=
  if a + b < limit then .ok (a + b) else .error .addOverflow

theorem add_eq_ok_iff {a b c : Nat} : add a b = .ok c ↔ a + b < limit ∧ c = a + b := by
  unfold add
  split
  · constructor
    · intro h; exact ⟨by assumption, (Except.ok.inj h).symm⟩
    · rintro ⟨_, rfl⟩; rfl
  · constructor
    · intro h; cases h
    · rintro ⟨h, _⟩; contradiction

theorem add_eq_error {a b : Nat} {f : Fault} (h : add a b = .error f) :
    f = .addOverflow := by
  unfold add at h
  split at h
  · cases h
  · exact (Except.error.inj h).symm

/-- A product of sizes. -/
def mul (a b : Nat) : Except Fault Nat :=
  if a * b < limit then .ok (a * b) else .error .mulOverflow

theorem mul_eq_ok_iff {a b c : Nat} : mul a b = .ok c ↔ a * b < limit ∧ c = a * b := by
  unfold mul
  split
  · constructor
    · intro h; exact ⟨by assumption, (Except.ok.inj h).symm⟩
    · rintro ⟨_, rfl⟩; rfl
  · constructor
    · intro h; cases h
    · rintro ⟨h, _⟩; contradiction

theorem mul_eq_error {a b : Nat} {f : Fault} (h : mul a b = .error f) :
    f = .mulOverflow := by
  unfold mul at h
  split at h
  · cases h
  · exact (Except.error.inj h).symm

/-! ## Alignment -/

/-- Whether exactly one bit of `n` is set. -/
def isPowerOfTwo (n : Nat) : Bool := n != 0 && (n &&& (n - 1)) == 0

/-- The next multiple of `align` at or after `n`: the low bits of `n + align - 1` are
cleared by the word whose bits below `align` are zero. -/
def alignUp (n align : Nat) : Except Fault Nat :=
  if isPowerOfTwo align then
    match add n align with
    | .error f => .error f
    | .ok sum => .ok ((sum - 1) &&& (limit - align))
  else .error (.notPowerOfTwo align)

end ShapeCode.Word
