import ShapeCode.Bytes

set_option autoImplicit false

/-!
# Buffers: bytes that start on a boundary

A buffer holds bytes whose start is a multiple of every scalar's alignment, so a value
read from it is read where its layout says.  Its length never changes.
-/

namespace ShapeCode

/-- Bytes that start on a boundary. -/
structure Buffer where
  bytes : Bytes
  deriving DecidableEq, Repr, Inhabited

namespace Buffer

/-- The boundary a buffer starts on. -/
def alignment : Nat := 16

/-- A buffer of zeros. -/
def zeroed (length : Nat) : Buffer := ⟨List.replicate length 0⟩

/-- Bytes in a buffer. -/
def length (b : Buffer) : Nat := b.bytes.length

/-- Whether a buffer holds no byte. -/
def isEmpty (b : Buffer) : Bool := b.bytes.isEmpty

/-- The buffer with a run of bytes written at an offset, if it fits. -/
def set? (b : Buffer) (offset : Nat) (run : Bytes) : Option Buffer :=
  if offset + run.length ≤ b.length then
    some ⟨b.bytes.take offset ++ run ++ b.bytes.drop (offset + run.length)⟩
  else none

/-- The text of a buffer. -/
def text (b : Buffer) : String :=
  "AlignedVec \x7b len: " ++ toString b.length ++ ", aligned: true \x7d"

theorem length_set? {b c : Buffer} {offset : Nat} {run : Bytes}
    (h : b.set? offset run = some c) : c.length = b.length := by
  unfold set? at h
  split at h
  · obtain rfl := Option.some.inj h
    simp only [length, List.length_append, List.length_take, List.length_drop] at *
    omega
  · cases h

/-- Bytes written over a buffer of their length are all it holds. -/
theorem set?_zeroed (run : Bytes) : (zeroed run.length).set? 0 run = some ⟨run⟩ := by
  simp [set?, zeroed, length]

end Buffer

end ShapeCode
