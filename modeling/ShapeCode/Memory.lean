import ShapeCode.Bytes
import ShapeCode.Word

set_option autoImplicit false

/-!
# Memory: a byte at every address

Memory is total: every address holds a byte.  Numbers of several bytes are little-endian
and wrap around at the end of the address space.  Writing a run of bytes changes those
addresses and no others (`byteAt_write_of_lt`, `byteAt_write_of_ge`).
-/

namespace ShapeCode

/-- A byte at every address. -/
structure Memory where
  byteAt : Nat → UInt8

namespace Memory

/-- Memory that holds zero everywhere. -/
def zero : Memory := ⟨fun _ => 0⟩

/-- Memory with a run of bytes written from `address` on. -/
def write (m : Memory) (address : Nat) (bytes : Array UInt8) : Memory :=
  ⟨fun a => if a < address then m.byteAt a else (bytes[a - address]?).getD (m.byteAt a)⟩

/-- The `n` bytes from `address` on. -/
def bytes (m : Memory) : (address n : Nat) → Bytes
  | _, 0 => []
  | address, n + 1 => m.byteAt (Word.wrap address) :: bytes m (address + 1) n

/-- The number in the `width` bytes from `address` on. -/
def number (m : Memory) (width address : Nat) : Nat := Bytes.toNat (m.bytes address width)

/-- The word at an address. -/
def word (m : Memory) (address : Nat) : Nat := m.number Word.size address

@[simp] theorem length_bytes (m : Memory) (address n : Nat) :
    (m.bytes address n).length = n := by
  induction n generalizing address with
  | zero => rfl
  | succ n ih => simp [bytes, ih]

theorem byteAt_write_of_lt {m : Memory} {address a : Nat} {run : Array UInt8}
    (h : a < address) :
    (m.write address run).byteAt a = m.byteAt a := by
  simp [write, h]

theorem byteAt_write_of_ge {m : Memory} {address a : Nat} {run : Array UInt8}
    (h : address + run.size ≤ a) : (m.write address run).byteAt a = m.byteAt a := by
  have : ¬ a < address := by omega
  have hnone : run[a - address]? = none := Array.getElem?_eq_none (by omega)
  simp [write, this, hnone]

theorem byteAt_write_of_mem {m : Memory} {address i : Nat} {run : Array UInt8}
    (h : i < run.size) :
    (m.write address run).byteAt (address + i) = run[i] := by
  have : ¬ address + i < address := by omega
  simp [write, this, h]

end Memory

end ShapeCode
