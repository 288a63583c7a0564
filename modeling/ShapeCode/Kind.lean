import ShapeCode.Layout

set_option autoImplicit false

/-!
# Kinds: the first byte of a node

Every node of shape bytecode starts with one byte that says what kind of value it
describes.  The bytes are fixed by the format and stated once, in `Kind.byte`; reading a
byte looks it up there, so the two directions agree (`ofByte?_byte`, `byte_of_ofByte?`).
-/

namespace ShapeCode

/-! ## Scalars -/

/-- The leaves of every shape. -/
inductive Scalar where
  | unit | bool | char
  | u8 | u16 | u32 | u64
  | i8 | i16 | i32 | i64
  | f32 | f64
  deriving DecidableEq, Repr, Inhabited

namespace Scalar

/-- Size in bytes. -/
def size : Scalar → Nat
  | .unit => 0
  | .bool | .u8 | .i8 => 1
  | .u16 | .i16 => 2
  | .char | .u32 | .i32 | .f32 => 4
  | .u64 | .i64 | .f64 => 8

/-- A scalar is aligned to its size, the unit value to one byte. -/
def align (s : Scalar) : Nat := max s.size 1

/-- The layout of a scalar. -/
def layout (s : Scalar) : Layout := ⟨s.size, s.align⟩

/-- The short name of a scalar. -/
def name : Scalar → String
  | .unit => "()"
  | .bool => "bool"
  | .char => "char"
  | .u8 => "u8"
  | .u16 => "u16"
  | .u32 => "u32"
  | .u64 => "u64"
  | .i8 => "i8"
  | .i16 => "i16"
  | .i32 => "i32"
  | .i64 => "i64"
  | .f32 => "f32"
  | .f64 => "f64"

/-- Every scalar. -/
def all : List Scalar :=
  [.unit, .bool, .char, .u8, .u16, .u32, .u64, .i8, .i16, .i32, .i64, .f32, .f64]

/-- The scalar of a name. -/
def ofName? (name : String) : Option Scalar := all.find? fun s => s.name == name

end Scalar

/-! ## Callables -/

/-- The representations of a callable value. -/
inductive Callable where
  /-- A code pointer alone. -/
  | bare
  /-- A closure whose environment is on the stack. -/
  | stack
  /-- A closure whose environment is a counted box. -/
  | boxed
  /-- A closure that owns its environment. -/
  | unique
  deriving DecidableEq, Repr, Inhabited

namespace Callable

/-- Words in a callable value. -/
def words : Callable → Nat
  | .bare => 1
  | .stack | .boxed | .unique => 2

/-- The name of a representation. -/
def name : Callable → String
  | .bare => "Bare"
  | .stack => "Stack"
  | .boxed => "Boxed"
  | .unique => "Unique"

end Callable

/-! ## Kinds -/

/-- What a node describes. -/
inductive Kind where
  | scalar (s : Scalar)
  /-- A counted box on the heap. -/
  | box
  /-- A pointer to a vector on the heap. -/
  | vec
  /-- A tagged union of the union table. -/
  | union
  /-- Fields in order. -/
  | record
  | callable (c : Callable)
  /-- An object: two words. -/
  | object
  /-- Fields with a destructor. -/
  | resource
  /-- An owning pointer. -/
  | uniq
  /-- A trait object: two words. -/
  | traitObject
  /-- A pointer to a type descriptor. -/
  | typeDescriptor
  /-- A borrowed pointer. -/
  | borrow
  /-- A fixed number of elements, inline. -/
  | fixedVec
  /-- A data pointer and a byte length. -/
  | slice
  /-- A vector header and its elements, inline. -/
  | unboxedVec
  deriving DecidableEq, Repr, Inhabited

namespace Kind

/-- The byte of a kind. -/
def byte : Kind → UInt8
  | .scalar .u8 => 0
  | .scalar .u16 => 1
  | .scalar .u32 => 2
  | .scalar .u64 => 3
  | .scalar .i8 => 4
  | .scalar .i16 => 5
  | .scalar .i32 => 6
  | .scalar .i64 => 7
  | .scalar .f32 => 8
  | .scalar .f64 => 9
  | .box => 10
  | .vec => 11
  | .union => 12
  | .record => 17
  | .callable .boxed => 18
  | .object => 19
  | .resource => 20
  | .uniq => 22
  | .traitObject => 24
  | .callable .unique => 25
  | .callable .stack => 26
  | .callable .bare => 27
  | .typeDescriptor => 28
  | .borrow => 31
  | .fixedVec => 32
  | .slice => 33
  | .unboxedVec => 34
  | .scalar .unit => 35
  | .scalar .bool => 36
  | .scalar .char => 37

/-- Every kind, by its byte. -/
def all : List Kind :=
  [.scalar .u8, .scalar .u16, .scalar .u32, .scalar .u64,
   .scalar .i8, .scalar .i16, .scalar .i32, .scalar .i64,
   .scalar .f32, .scalar .f64,
   .box, .vec, .union, .record, .callable .boxed, .object, .resource, .uniq, .traitObject,
   .callable .unique, .callable .stack, .callable .bare, .typeDescriptor, .borrow,
   .fixedVec, .slice, .unboxedVec, .scalar .unit, .scalar .bool, .scalar .char]

/-- The kind of a byte. -/
def ofByte? (b : UInt8) : Option Kind := all.find? fun k => k.byte == b

theorem mem_all (k : Kind) : k ∈ all := by
  cases k with
  | scalar s => cases s <;> decide
  | callable c => cases c <;> decide
  | _ => decide

theorem byte_of_ofByte? {b : UInt8} {k : Kind} (h : ofByte? b = some k) : k.byte = b := by
  have := List.find?_some h
  simpa using this

theorem ofByte?_byte (k : Kind) : ofByte? k.byte = some k := by
  cases k with
  | scalar s => cases s <;> rfl
  | callable c => cases c <;> rfl
  | _ => rfl

/-- Two kinds never share a byte. -/
theorem byte_injective {k l : Kind} (h : k.byte = l.byte) : k = l := by
  have hk := ofByte?_byte k
  rw [h, ofByte?_byte l] at hk
  exact (Option.some.inj hk).symm

/-- The scalar a kind stands for, if it is one. -/
def scalar? : Kind → Option Scalar
  | .scalar s => some s
  | _ => none

/-- Whether a node of the kind carries a nested range. -/
def isComposite : Kind → Bool
  | .record | .resource | .vec | .unboxedVec | .slice | .fixedVec
      | .box | .uniq | .borrow =>
    true
  | _ => false

/-- Whether a value of the kind holds a pointer at its top level. -/
def isPointer : Kind → Bool
  | .box | .uniq | .borrow | .vec | .slice | .callable _ | .object | .traitObject
  | .typeDescriptor => true
  | _ => false

/-- The name of a kind. -/
def name : Kind → String
  | .scalar .u8 => "U8"
  | .scalar .u16 => "U16"
  | .scalar .u32 => "U32"
  | .scalar .u64 => "U64"
  | .scalar .i8 => "I8"
  | .scalar .i16 => "I16"
  | .scalar .i32 => "I32"
  | .scalar .i64 => "I64"
  | .scalar .f32 => "F32"
  | .scalar .f64 => "F64"
  | .box => "Box"
  | .vec => "Vec"
  | .union => "Tag"
  | .record => "Struct"
  | .callable .boxed => "BoxFn"
  | .object => "Obj"
  | .resource => "Res"
  | .uniq => "Uniq"
  | .traitObject => "Trait"
  | .callable .unique => "UniqFn"
  | .callable .stack => "StackFn"
  | .callable .bare => "BareFn"
  | .typeDescriptor => "Tydesc"
  | .borrow => "Rptr"
  | .fixedVec => "FixedVec"
  | .slice => "Slice"
  | .unboxedVec => "UnboxedVec"
  | .scalar .unit => "Nil"
  | .scalar .bool => "Bool"
  | .scalar .char => "Char"

end Kind

end ShapeCode
