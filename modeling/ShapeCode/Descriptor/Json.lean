import ShapeCode.Descriptor
import ShapeCode.Json

set_option autoImplicit false

/-!
# Descriptors as JSON

A descriptor is an object of the root range, as a list of bytes, and the tables; the tables
are an object of the unions and the resources; a union is an object of its variants, as
lists of bytes, and its hint.  Reading takes the text as it comes: nothing is verified.
-/

namespace ShapeCode

namespace JsonForm

open Json (Scan Fields)

/-- The name of the root range. -/
def shapeName : List Char := "shape".toList

/-- The name of the tables. -/
def tablesName : List Char := "tables".toList

/-- The name of the unions. -/
def unionsName : List Char := "tags".toList

/-- The name of the resources. -/
def resourcesName : List Char := "resources".toList

/-- The name of the variants. -/
def variantsName : List Char := "variants".toList

/-- The name of the hint. -/
def hintName : List Char := "largest_variants".toList

/-! ## Reading -/

/-- A number below `limit`, as a word. -/
def word {α : Type} (limit : Nat) (ofNat : Nat → α) : Scan α := fun cs =>
  match Json.natural limit cs with
  | none => none
  | some (n, rest) => some (ofNat n, rest)

/-- A list of bytes. -/
def bytes (bound : Nat) : Scan Bytes := Json.list bound (word 0x100 UInt8.ofNat)

/-- The fields of a union. -/
def unionFields (bound : Nat) : Fields (List Bytes) (List UInt16) :=
  ⟨variantsName, Json.list bound (bytes bound), hintName,
    Json.list bound (word 0x10000 UInt16.ofNat)⟩

/-- A union. -/
def union (bound : Nat) : Scan Union := fun cs =>
  match (unionFields bound).record bound cs with
  | none => none
  | some ((variants, hint), rest) => some (⟨variants.toArray, hint⟩, rest)

/-- The fields of the tables. -/
def tablesFields (bound : Nat) : Fields (List Union) (List UInt64) :=
  ⟨unionsName, Json.list bound (union bound), resourcesName,
    Json.list bound (word 0x10000000000000000 UInt64.ofNat)⟩

/-- The tables. -/
def tables (bound : Nat) : Scan Tables := fun cs =>
  match (tablesFields bound).record bound cs with
  | none => none
  | some ((unions, resources), rest) => some (⟨unions.toArray, resources.toArray⟩, rest)

/-- The fields of a descriptor. -/
def descriptorFields (bound : Nat) : Fields Bytes Tables :=
  ⟨shapeName, bytes bound, tablesName, tables bound⟩

/-- A descriptor. -/
def descriptor (bound : Nat) : Scan Descriptor := fun cs =>
  match (descriptorFields bound).record bound cs with
  | none => none
  | some ((shape, tables), rest) => some (⟨shape, tables⟩, rest)

/-! ## Printing -/

/-- A list of numbers. -/
def printNats (ns : List Nat) : List Char := Json.printList (ns.map Json.printNat)

/-- A range. -/
def printBytes (bs : Bytes) : List Char := printNats (bs.map UInt8.toNat)

/-- A union. -/
def printUnion (u : Union) : List Char :=
  Json.printRecord variantsName (Json.printList (u.variants.toList.map printBytes)) hintName
    (printNats (u.hint.map UInt16.toNat))

/-- The tables. -/
def printTables (t : Tables) : List Char :=
  Json.printRecord unionsName
    (Json.printList (t.unions.toList.map printUnion)) resourcesName
    (printNats (t.resources.toList.map UInt64.toNat))

/-- A descriptor. -/
def printDescriptor (d : Descriptor) : List Char :=
  Json.printRecord shapeName (printBytes d.shape) tablesName (printTables d.tables)

end JsonForm

namespace Descriptor

/-- The descriptor of a JSON text, unverified. -/
def ofJson? (text : String) : Option Descriptor :=
  Json.whole JsonForm.descriptor text.toList

/-- The compact JSON text of a descriptor. -/
def toJson (d : Descriptor) : String := String.ofList (JsonForm.printDescriptor d)

end Descriptor

end ShapeCode
