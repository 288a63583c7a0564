set_option autoImplicit false

/-!
# Faults: why an operation stopped short

The operations on shape bytecode trust their input: a range that breaks off, an id
outside its table or a size beyond the machine word is not an answer but a fault.  Every
cause is one constructor here, and its text is `Fault.message`.  Causes that a caller is
expected to handle (a file that does not load, a hex text that does not decode) have
types of their own beside the operation that reports them.
-/

namespace ShapeCode

/-- Why an operation stopped short. -/
inductive Fault where
  /-- The range ended `left` bytes into an operand of `need` bytes. -/
  | truncated (need left : Nat)
  /-- No kind of node has this byte. -/
  | unknownKind (byte : Nat)
  /-- A union id outside the table of `count` unions. -/
  | unknownUnion (id count : Nat)
  /-- A resource id outside the table of `count` resources. -/
  | unknownResource (id count : Nat)
  /-- A variant number outside a union of `count` variants. -/
  | unknownVariant (variant count : Nat)
  /-- A hint that names a variant outside a union of `count` variants. -/
  | hintOutOfRange (variant count : Nat)
  /-- A union of `count` variants whose hint names none of them. -/
  | hintEmpty (count : Nat)
  /-- A union whose own value would lie inside it. -/
  | selfContaining (id : Nat)
  /-- A nested range too long for its 16-bit length. -/
  | nestedTooLong (length : Nat)
  /-- No 16-bit id is left for another union. -/
  | tooManyUnions
  /-- No 16-bit id is left for another resource. -/
  | tooManyResources
  /-- An index outside a sequence of `length` items. -/
  | indexOutOfBounds (length index : Nat)
  /-- Fewer bytes than a file header has. -/
  | headerTooShort
  /-- An alignment that is no power of two. -/
  | notPowerOfTwo (align : Nat)
  /-- A sum beyond the machine word. -/
  | addOverflow
  /-- A product beyond the machine word. -/
  | mulOverflow
  deriving DecidableEq, Repr, Inhabited

namespace Fault

/-- The text of a fault. -/
def message : Fault → String
  | .truncated need left => s!"shape bytecode truncated: need {need} bytes, {left} left"
  | .unknownKind byte => s!"invalid shape tag byte: {byte}"
  | .unknownUnion id count => s!"unknown tag id {id} ({count} tags in table)"
  | .unknownResource id count => s!"unknown resource id {id} ({count} resources in table)"
  | .unknownVariant variant count => s!"variant {variant} out of range ({count} variants)"
  | .hintOutOfRange variant count =>
      s!"largest-variant hint {variant} out of range ({count} variants)"
  | .hintEmpty count => s!"largest-variant hint is empty for a union with {count} variants"
  | .selfContaining id => s!"tag {id} contains itself by value"
  | .nestedTooLong length => s!"nested shape too long: {length} bytes (maximum 65535)"
  | .tooManyUnions => "too many tags (maximum 65535)"
  | .tooManyResources => "too many resources (maximum 65535)"
  | .indexOutOfBounds length index =>
      s!"index out of bounds: the len is {length} but the index is {index}"
  | .headerTooShort => "header too short"
  | .notPowerOfTwo align => s!"alignment {align} is not a power of two"
  | .addOverflow => "attempt to add with overflow"
  | .mulOverflow => "attempt to multiply with overflow"

/-- Whether the fault is a computation that left the machine word. -/
def isOverflow : Fault → Bool
  | .addOverflow | .mulOverflow => true
  | _ => false

end Fault

end ShapeCode
