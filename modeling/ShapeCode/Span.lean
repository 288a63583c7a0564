import ShapeCode.Cursor
import ShapeCode.Measure
import ShapeCode.Memory

set_option autoImplicit false

/-!
# Spans: where the elements of a run lie

A run of elements is resolved to the addresses where its elements start and stop, in
every lane.  Vectors and slices state their length in bytes; a string slice counts a
terminator that is no element.  Elements follow one another at the stride of their
layout, and there are as many as fit before the end in every lane.  Elements of no size
leave no trace in a byte length, so there are none.
-/

namespace ShapeCode

/-- The elements of a run in memory. -/
structure Span where
  form : RunForm
  plain : Bool
  elem : Bytes
  stride : Nat
  start : Cursor
  stop : Cursor
  deriving DecidableEq, Repr, Inhabited

namespace Span

/-- Where the elements start, for a run at `address`. -/
def laneStart (mem : Memory) (offset : Nat) : RunForm → (address : Nat) → Nat
  | .vec, a => Word.wrap (mem.word a + offset)
  | .unboxedVec, a => Word.wrap (a + offset)
  | .slice _, a => mem.word a
  | .fixedVec _, a => a

/-- The byte length of a slice of `length` bytes without its terminator. -/
def sliceBytes (isStr : Bool) (length : Nat) : Nat := if isStr then length - 1 else length

/-- Where the elements stop, for a run at `address`. -/
def laneStop (mem : Memory) (spacing : Spacing) :
    RunForm → (address : Nat) → Except Fault Nat
  | .vec, a =>
    match Word.add spacing.dataOffset (mem.word (mem.word a)) with
    | .error f => .error f
    | .ok n => .ok (Word.wrap (mem.word a + n))
  | .unboxedVec, a =>
    match Word.add spacing.dataOffset (mem.word a) with
    | .error f => .error f
    | .ok n => .ok (Word.wrap (a + n))
  | .slice isStr, a =>
    .ok (Word.wrap (mem.word a + sliceBytes isStr (mem.word (Word.wrap (a + Word.size)))))
  | .fixedVec count, a =>
    match Word.mul count.toNat spacing.stride with
    | .error f => .error f
    | .ok n => .ok (Word.wrap (a + n))

/-- The elements of a run node at a cursor. -/
def resolve (tables : Tables) (mem : Memory) (form : RunForm) (plain : Bool) (elem : Bytes)
    (inner : Outline) (c : Cursor) : Except Fault Span :=
  match inner.spacing tables with
  | .error f => .error f
  | .ok spacing =>
    match c.mapM (laneStop mem spacing form) with
    | .error f => .error f
    | .ok stop =>
      .ok ⟨form, plain, elem, spacing.stride,
        c.map (laneStart mem spacing.dataOffset form), stop⟩

/-- Whether the elements are plain bytes, which are written as a string. -/
def isBytes (s : Span) : Bool := s.elem == [(Kind.scalar .u8).byte]

/-- Whether an element fits at a cursor. -/
def hasElement (s : Span) (c : Cursor) : Bool := s.stride != 0 && c.fits s.stop s.stride

/-- No more elements than this can follow a cursor: each takes a byte. -/
def elementBound (s : Span) (c : Cursor) : Nat := (c.distance s.stop).headD 0

/-- The cursors of the elements from `c` on, at most `bound` of them. -/
def elementsFrom (s : Span) : (bound : Nat) → Cursor → List Cursor
  | 0, _ => []
  | bound + 1, c =>
    if s.hasElement c then c :: elementsFrom s bound (c.advance s.stride) else []

/-- The cursor of every element. -/
def elements (s : Span) : List Cursor := s.elementsFrom (s.elementBound s.start) s.start

end Span

end ShapeCode
