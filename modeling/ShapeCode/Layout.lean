import ShapeCode.Word

set_option autoImplicit false

/-!
# Layouts: size and alignment

A layout says how many bytes a value takes and which addresses it may start at.  Fields
are appended one after another, each at the next multiple of its own alignment; the
finished total is padded to the largest alignment met.  An alignment of zero marks a
layout that has not been measured.
-/

namespace ShapeCode

/-- Size in bytes and required alignment. -/
structure Layout where
  size : Nat
  align : Nat
  deriving DecidableEq, Repr, Inhabited

namespace Layout

/-- Not yet measured. -/
def unset : Layout := ⟨0, 0⟩

/-- The layout of a value of no bytes. -/
def empty : Layout := ⟨0, 1⟩

/-- The layout of `n` consecutive words. -/
def words (n : Nat) : Layout := ⟨n * Word.size, Word.size⟩

/-- The layout of `n` consecutive words, for any `n` whose total fits in a word. -/
def words? (n : Nat) : Except Fault Layout :=
  match Word.mul n Word.size with
  | .error f => .error f
  | .ok size => .ok ⟨size, Word.size⟩

/-- Whether the layout has been measured. -/
def isSet (l : Layout) : Bool := l.align != 0

/-- The layout with one more field: pad to the field's alignment, then add its size. -/
def append (l field : Layout) : Except Fault Layout :=
  match Word.alignUp l.size field.align with
  | .error f => .error f
  | .ok start =>
    match Word.add start field.size with
    | .error f => .error f
    | .ok size => .ok ⟨size, max l.align field.align⟩

/-- The layout with its size rounded up to its alignment. -/
def padded (l : Layout) : Except Fault Layout :=
  match Word.alignUp l.size (max l.align 1) with
  | .error f => .error f
  | .ok size => .ok ⟨size, max l.align 1⟩

/-- The layout of `count` values back to back. -/
def copies (count : Nat) (elem : Layout) : Except Fault Layout :=
  match Word.mul count elem.size with
  | .error f => .error f
  | .ok size => .ok ⟨size, elem.align⟩

/-- The text of a layout. -/
def text (l : Layout) : String := s!"size={l.size} align={l.align}"

end Layout

end ShapeCode
