set_option autoImplicit false

/-!
# Relations: what a comparison may test

A relation is named by a byte, and holds of an order of two values.
-/

namespace ShapeCode

/-- A relation between two values. -/
inductive Relation where
  | equal
  | less
  | lessOrEqual
  deriving DecidableEq, Repr, Inhabited

namespace Relation

/-- The byte of a relation. -/
def byte : Relation → UInt8
  | .equal => 0
  | .less => 1
  | .lessOrEqual => 2

/-- Every relation, by its byte. -/
def all : List Relation := [.equal, .less, .lessOrEqual]

/-- The relation of a byte. -/
def ofByte? (b : UInt8) : Option Relation := all.find? fun r => r.byte == b

/-- The text for a byte that names no relation. -/
def unknownMessage (b : UInt8) : String :=
  s!"invalid compare mode: {b.toNat} (expected 0=eq, 1=lt, 2=le)"

/-- Whether the relation holds of values in the given order. -/
def holds : Relation → Ordering → Bool
  | .equal, o => o.isEq
  | .less, o => o.isLT
  | .lessOrEqual, o => o.isLE

/-- The word for a relation. -/
def word : Relation → String
  | .equal => "eq"
  | .less => "lt"
  | .lessOrEqual => "le"

/-- The relation of a word. -/
def ofWord? (s : String) : Option Relation := all.find? fun r => r.word == s

theorem ofByte?_byte (r : Relation) : ofByte? r.byte = some r := by
  cases r <;> rfl

end Relation

end ShapeCode
