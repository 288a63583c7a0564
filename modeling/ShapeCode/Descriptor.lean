import ShapeCode.Files
import ShapeCode.Tables

set_option autoImplicit false

/-!
# Descriptors: a type with its tables

A descriptor is the range that describes one type, together with the tables its unions
and resources refer to.  Loading one may be refused for the reasons of `LoadError`;
`Flaw` is what can be wrong inside a range, and `Place` is the range it was found in.
-/

namespace ShapeCode

/-- A type: its root range and the tables behind it. -/
structure Descriptor where
  shape : Bytes
  tables : Tables
  deriving DecidableEq, Repr, Inhabited

/-! ## Refusals -/

/-- What is wrong with a range. -/
inductive Flaw where
  /-- A byte that no kind has. -/
  | unknownKind
  /-- An operand or nested range longer than what is left. -/
  | pastEnd
  | unionId
  | resourceId
  /-- A nested range that stands for one value and does not hold one node. -/
  | notSingle
  /-- A root range that does not hold one node. -/
  | rootNotSingle
  deriving DecidableEq, Repr, Inhabited

/-- The text of a flaw. -/
def Flaw.text : Flaw → String
  | .unknownKind => "unknown tag byte"
  | .pastEnd => "operand runs past end of range"
  | .unionId => "tag id out of range"
  | .resourceId => "resource id out of range"
  | .notSingle => "nested range must hold exactly one shape"
  | .rootNotSingle => "root must be exactly one shape"

/-- A range of a descriptor. -/
inductive Place where
  | root
  | variant (union variant : Nat)
  deriving DecidableEq, Repr, Inhabited

/-- The text of a place. -/
def Place.text : Place → String
  | .root => "root shape"
  | .variant u v => s!"tag {u} variant {v}"

/-- A section of a descriptor file. -/
inductive FileSection where
  | shape
  | resources
  | unions
  | variant
  deriving DecidableEq, Repr, Inhabited

/-- The name of a section. -/
def FileSection.text : FileSection → String
  | .shape => "shape blob"
  | .resources => "resource table"
  | .unions => "tag table"
  | .variant => "variant shape"

/-- What a descriptor file counts in a field of limited width. -/
inductive Counted where
  | unions
  | resources
  | shapeBytes
  | variants
  | hints
  | variantBytes
  deriving DecidableEq, Repr, Inhabited

/-- The name of what is counted. -/
def Counted.text : Counted → String
  | .unions => "tags"
  | .resources => "resources"
  | .shapeBytes => "shape bytes"
  | .variants => "variants"
  | .hints => "largest-variant hints"
  | .variantBytes => "variant bytes"

/-- Why a descriptor is refused. -/
inductive LoadError where
  | badMagic
  | unsupportedVersion (version : UInt16)
  | tooSmall (length : Nat)
  | truncated (part : FileSection) (offset needed : Nat)
  | sizeMismatch (expected actual : Nat)
  | hintOutOfRange (union hint variants : UInt16)
  | hintEmpty (union : UInt16)
  | malformed (place : Place) (offset : Nat) (flaw : Flaw)
  | selfContaining (union : UInt16)
  | tooMany (what : Counted) (count : Nat)
  | unreadable (cause : FileError)
  deriving DecidableEq, Repr, Inhabited

/-- The text of a refusal. -/
def LoadError.message : LoadError → String
  | .badMagic => "invalid magic: expected SHPD"
  | .unsupportedVersion version => s!"unsupported version: {version.toNat} (expected 1)"
  | .tooSmall length => s!"file too small: {length} bytes (minimum 16)"
  | .truncated part offset needed =>
      s!"truncated {part.text}: need {needed} bytes at offset {offset}"
  | .sizeMismatch expected actual =>
      s!"size mismatch: descriptor ends at {expected} bytes, got {actual}"
  | .hintOutOfRange union hint variants =>
      s!"tag {union.toNat}: largest-variant hint {hint.toNat} out of range " ++
        s!"({variants.toNat} variants)"
  | .hintEmpty union => s!"tag {union.toNat}: largest-variant hint is empty"
  | .malformed place offset flaw =>
      s!"invalid shape in {place.text} at byte {offset}: {flaw.text}"
  | .selfContaining union => s!"tag {union.toNat} contains itself by value"
  | .tooMany what count => s!"too many {what.text}: {count} (maximum 65535)"
  | .unreadable cause => "io error: " ++ cause.message

/-- Why an operation on descriptors gave no answer: the descriptor was refused, or the
operation met a fault. -/
inductive Failure where
  | refused (cause : LoadError)
  | fault (cause : Fault)
  deriving DecidableEq, Repr, Inhabited

end ShapeCode
