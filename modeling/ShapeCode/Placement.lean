import ShapeCode.Layout

set_option autoImplicit false

/-!
# Placement: how values lie in memory

Scalars have their own size and alignment; records and resources place their fields one
after another in order; a union of more than one variant starts with a word, the
discriminant, that selects the variant whose fields follow.  A box is a pointer to a cell of
a count and the body; other pointers point at the value itself.  A vector is a header of two
words, the bytes in use and the bytes allocated, and then its elements: behind a pointer or
inline.  A slice is a data pointer and a byte length.  A fixed vector is its elements back
to back.  Callables, objects and descriptors are one or two words.
-/

namespace ShapeCode.Placement

/-- The layout of a discriminant: one word. -/
def discriminant : Layout := ⟨Word.size, Word.size⟩

/-- Where the body of a box lies in its cell: after the count. -/
def boxBodyOffset (align : Nat) : Except Fault Nat := Word.alignUp Word.size align

/-- Where the elements of a vector lie: after the header. -/
def vecDataOffset (align : Nat) : Except Fault Nat := Word.alignUp (2 * Word.size) align

/-- The count of a new box. -/
def freshCount : Nat := 1

/-- Bytes in use and bytes allocated of a vector made of `count` elements
of `size` bytes. -/
def vecHeader (count size : Nat) : Nat × Nat := (count * size, count * size)

/-- The byte length of a slice of `count` elements of `size` bytes. -/
def sliceLength (count size : Nat) : Nat := count * size

end ShapeCode.Placement
