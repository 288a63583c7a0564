import ShapeCode.Descriptor
import ShapeCode.Flat
import ShapeCode.Hex
import ShapeCode.Value.Order
import ShapeCode.Value.Text

set_option autoImplicit false

/-!
# Images: values as hexadecimal text

A value of a flat type is its bytes, so it can be read from text.  White space and one
leading `0x` are ignored.  There must be at least as many bytes as the type needs, and
every discriminant that a walk over the value meets must name a variant; bytes behind
the value are kept and not looked at.

An image is walked in a memory that holds it at an aligned address; what that memory
holds elsewhere is up to the caller.
-/

namespace ShapeCode

/-- Why a text is no image of a type. -/
inductive ImageError where
  /-- The type holds pointers. -/
  | notFlat
  | hex (cause : HexError)
  | tooShort (length needed : Nat)
  /-- A discriminant that names no variant of its union. -/
  | badVariant (union : UInt16) (discriminant count : Nat)
  deriving DecidableEq, Repr, Inhabited

/-- The text of a refusal; `what` names the image. -/
def ImageError.message (what : String) : ImageError → String
  | .notFlat => "type contains pointers; only pointer-free values can be read from hex"
  | .hex cause => s!"invalid hex in {what}: " ++ cause.message
  | .tooShort length needed => s!"{what} is {length} bytes, but the type needs {needed}"
  | .badVariant union discriminant count =>
      s!"{what}: discriminant {discriminant} out of range for tag {union.toNat} " ++
        s!"({count} variants)"

namespace Image

/-! ## Text -/

/-- The characters ignored anywhere in a text. -/
def isBlank (c : Char) : Bool :=
  c == ' ' || c == '\t' || c == '\n' || c == '\r' || c.toNat == 12

/-- A text without one leading `0x`. -/
def withoutMark : List Char → List Char
  | '0' :: 'x' :: rest => rest
  | '0' :: 'X' :: rest => rest
  | cs => cs

/-- The digits of a text. -/
def digits (text : String) : Bytes :=
  (String.ofList (withoutMark (text.toList.filter fun c => !isBlank c))).toUTF8.data.toList

/-! ## Memory -/

/-- Where the first image of a walk is held. -/
def address : Nat := 0x100000000

/-- Where the second image of a walk is held: behind the first. -/
def secondAddress (first : Bytes) : Nat := (first.length / address + 2) * address

/-- Memory that holds an image. -/
def hold (outside : Memory) (image : Bytes) : Memory := outside.write address image.toArray

/-- Memory that holds two images. -/
def holdTwo (outside : Memory) (first second : Bytes) : Memory :=
  (hold outside first).write (secondAddress first) second.toArray

/-- No walk over an image enters more unions inside one another: every discriminant
takes a word of the image, and between two of them stand only unions of one variant,
each of them once. -/
def depth (tables : Tables) (image : Bytes) : Nat :=
  (tables.unions.size + 1) * (image.length + 2)

/-! ## Discriminants -/

/-- A discriminant that names no variant: the union, what was read, and the
number of variants. -/
structure BadVariant where
  union : UInt16
  discriminant : Nat
  count : Nat
  deriving DecidableEq, Repr, Inhabited

/-- Looks for the first discriminant that names no variant. -/
def enter (node : Node) (_ : Cursor) (content : Content) (found : Option BadVariant) :
    Option BadVariant × Bool :=
  match node, content with
  | .union id, .union u (selected :: _) =>
    if u.variants.size ≤ selected then (some ⟨id, selected, u.variants.size⟩, false)
    else (found, true)
  | _, _ => (found, true)

/-- Looks for the first discriminant that names no variant. -/
def visitor : Visitor (Option BadVariant) where
  attends found := found.isNone
  enter := enter
  leave _ _ found := found

end Image

namespace Descriptor

/-- The root range of a descriptor, with its nested ranges. -/
def outline (d : Descriptor) : Outline := Outline.ofBytes d.shape

/-- The first discriminant of an image that names no variant. -/
def badVariant (d : Descriptor) (outside : Memory) (image : Bytes) :
    Walk.Outcome (Option Image.BadVariant) :=
  Walk.run ⟨d.tables, Image.hold outside image⟩ Image.visitor
    (Image.depth d.tables image) d.outline
    [Image.address] none

/-- The image that bytes of sufficient number are, if their discriminants name variants. -/
def checkImage (d : Descriptor) (outside : Memory) (image : Bytes) :
    Walk.Outcome (Except ImageError Bytes) :=
  match d.badVariant outside image with
  | .error h => .error h
  | .ok (some bad) => .ok (.error (.badVariant bad.union bad.discriminant bad.count))
  | .ok none => .ok (.ok image)

/-- The image of a type that a text spells. -/
def readImage (d : Descriptor) (outside : Memory) (text : String) :
    Walk.Outcome (Except ImageError Bytes) :=
  match d.outline.isFlat d.tables with
  | .error f => .error (.fault f)
  | .ok false => .ok (.error .notFlat)
  | .ok true =>
    match Hex.decode (Image.digits text) with
    | .error cause => .ok (.error (.hex cause))
    | .ok image =>
      match d.outline.layout d.tables with
      | .error f => .error (.fault f)
      | .ok l =>
        if image.length < l.size then .ok (.error (.tooShort image.length l.size))
        else d.checkImage outside image

/-- The text of the value that an image is. -/
def renderImage (d : Descriptor) (outside : Memory) (image : Bytes) : Walk.Outcome String :=
  Scene.render ⟨d.tables, Image.hold outside image⟩
    (Image.depth d.tables image) d.outline
    Image.address

/-- The order of the values that two images are. -/
def compareImages (d : Descriptor) (outside : Memory) (first second : Bytes) :
    Walk.Outcome Ordering :=
  Scene.compare ⟨d.tables,
    Image.holdTwo outside first second⟩ (Image.depth d.tables first) d.outline
    Image.address (Image.secondAddress first)

end Descriptor

end ShapeCode
