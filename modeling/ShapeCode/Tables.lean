import ShapeCode.Bytes
import ShapeCode.Fault

set_option autoImplicit false

/-!
# Tables: unions and resources

A union node carries only an id; its variants stand in a table, so that a union that
occurs often, or inside itself behind a pointer, is described once.  Each variant is a
range of fields.  A union also carries a hint: ids of variants among which a largest one
is to be found.  A resource is an opaque destructor handle.

Looking up an id outside its table is a fault.
-/

namespace ShapeCode

/-- A tagged union: the fields of each variant, and the hint that names the
largest candidates. -/
structure Union where
  variants : Array Bytes
  hint : List UInt16
  deriving DecidableEq, Repr, Inhabited

namespace Union

/-- The first hint that names no variant of the union. -/
def badHint? (u : Union) : Option UInt16 :=
  u.hint.find? fun v => u.variants.size ≤ v.toNat

/-- Whether the hint says nothing of a union that has variants. -/
def lacksHint (u : Union) : Bool := !u.variants.isEmpty && u.hint.isEmpty

/-- A union whose hint names existing variants, and at least one of them
if there are any. -/
def make (variants : Array Bytes) (hint : List UInt16) : Except Fault Union :=
  let u : Union := ⟨variants, hint⟩
  match u.badHint? with
  | some v => .error (.hintOutOfRange v.toNat variants.size)
  | none => if u.lacksHint then .error (.hintEmpty variants.size) else .ok u

/-- A union whose hint names the variants that a 16-bit count of them reaches. -/
def ofVariants (variants : Array Bytes) : Except Fault Union :=
  make variants ((List.range (UInt16.ofNat variants.size).toNat).map UInt16.ofNat)

/-- The union without variants. -/
def none : Union := ⟨#[], []⟩

/-- Whether a value starts with a word that selects the variant. -/
def hasDiscriminant (u : Union) : Bool := 1 < u.variants.size

/-- The fields of a variant. -/
def variant (u : Union) (v : Nat) : Except Fault Bytes :=
  match u.variants[v]? with
  | some fields => .ok fields
  | .none => .error (.unknownVariant v u.variants.size)

end Union

/-- The tables that shape bytecode refers to. -/
structure Tables where
  unions : Array Union
  resources : Array UInt64
  deriving DecidableEq, Repr, Inhabited

namespace Tables

/-- The union of an id. -/
def union (t : Tables) (id : UInt16) : Except Fault Union :=
  match t.unions[id.toNat]? with
  | some u => .ok u
  | none => .error (.unknownUnion id.toNat t.unions.size)

/-- The destructor handle of an id. -/
def resource (t : Tables) (id : UInt16) : Except Fault UInt64 :=
  match t.resources[id.toNat]? with
  | some handle => .ok handle
  | none => .error (.unknownResource id.toNat t.resources.size)

end Tables

end ShapeCode
