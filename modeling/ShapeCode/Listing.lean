import ShapeCode.Descriptor
import ShapeCode.Emit
import ShapeCode.Palette
import ShapeCode.ShapeText

set_option autoImplicit false

/-!
# Listings: a descriptor for reading

A listing has a section for the root range, one for the unions and one for the
resources; a table that is empty has none.  Every range comes with its text, and the
root and every union with its layout.  A star marks the variants that a hint names.  The
labels of a table, and of the variants of one union, are as wide as the largest needs.
-/

namespace ShapeCode.Listing

/-- Digits that indices below `count` need. -/
def labelWidth (count : Nat) : Nat :=
  if count ≤ 1 then 1 else Numeral.log10 (count - 1) + 1

/-- These are the digits of the largest of the indices. -/
theorem labelWidth_eq (count : Nat) :
    labelWidth count = (Nat.toDigits 10 (count - 1)).length := by
  unfold labelWidth
  split
  · have hzero : count - 1 = 0 := by omega
    rw [hzero]
    rfl
  · exact (Numeral.length_toDigits (count - 1)).symm

example : [0, 1, 2, 10, 11, 100, 101].map labelWidth = [1, 1, 1, 1, 2, 2, 3] := by
  decide +kernel

/-- A label: a letter and an index. -/
def label (letter : String) (width index : Nat) : String :=
  letter ++ Numeral.decimalPadded width index

/-- A layout as a remark. -/
def remark (c : Palette) (l : Layout) : String := c.punctuation ++ "; " ++ l.text ++ c.reset

/-- The title of a section. -/
def title (c : Palette) (name : String) : String :=
  c.kind ++ "[" ++ name ++ "]" ++ c.reset ++ "\n"

/-- The section of the root range. -/
def root (d : Descriptor) (c : Palette) : Except Fault String :=
  let outline := Outline.ofBytes d.shape
  match outline.layout d.tables with
  | .error f => .error f
  | .ok l =>
    match outline.text d.tables with
    | .error f => .error f
    | .ok text => .ok (title c "shape" ++ text ++ "  " ++ remark c l ++ "\n")

/-- The line of a variant. -/
def variant (tables : Tables) (c : Palette) (u : Union) (index : Nat) (fields : Bytes) :
    Except Fault String :=
  match (Outline.ofBytes fields).text tables with
  | .error f => .error f
  | .ok text =>
    let mark := if u.hint.contains (UInt16.ofNat index) then "*" else " "
    .ok ("  " ++ label "V" (labelWidth u.variants.size) index ++
      c.punctuation ++ mark ++ c.reset ++
      "  (" ++ text ++ ")\n")

/-- The lines of variants in order, the first of the given index, after `before`. -/
def variants (tables : Tables) (c : Palette) (u : Union) :
    (index : Nat) → List Bytes → (before : String) → Except Fault String
  | _, [], before => .ok before
  | index, fields :: rest, before =>
    match variant tables c u index fields with
    | .error f => .error f
    | .ok line => variants tables c u (index + 1) rest (before ++ line)

/-- The line of a union: its label and the layout of a node that names it. -/
def unionLine (tables : Tables) (c : Palette) (width index : Nat) : Except Fault String :=
  match Bytes.layout tables (Emit.union (UInt16.ofNat index)) with
  | .error f => .error f
  | .ok l =>
    .ok (c.number ++ label "T" width index ++ c.reset ++ "  " ++ remark c l ++ "\n")

/-- The lines of unions in order, the first of the given index, after `before`. -/
def unions (tables : Tables) (c : Palette) (width : Nat) :
    (index : Nat) → List Union → (before : String) → Except Fault String
  | _, [], before => .ok before
  | index, u :: rest, before =>
    match unionLine tables c width index with
    | .error f => .error f
    | .ok line =>
      match variants tables c u 0 u.variants.toList (before ++ line) with
      | .error f => .error f
      | .ok sofar => unions tables c width (index + 1) rest sofar

/-- The section of the unions. -/
def unionSection (tables : Tables) (c : Palette) : Except Fault String :=
  if tables.unions.isEmpty then .ok ""
  else
    unions tables c (labelWidth tables.unions.size) 0 tables.unions.toList
      ("\n" ++ title c "tags")

/-- The line of a resource. -/
def resource (c : Palette) (width index : Nat) (handle : UInt64) : String :=
  c.number ++ label "R" width index ++ c.reset ++ "  0x" ++
    Numeral.hexPadded 16 handle.toNat ++ "\n"

/-- The lines of resources in order, the first of the given index, after `before`. -/
def resources (c : Palette) (width : Nat) :
    (index : Nat) → List UInt64 → (before : String) → String
  | _, [], before => before
  | index, handle :: rest, before =>
    resources c width (index + 1) rest (before ++ resource c width index handle)

/-- The section of the resources. -/
def resourceSection (tables : Tables) (c : Palette) : String :=
  if tables.resources.isEmpty then ""
  else
    resources c (labelWidth tables.resources.size) 0 tables.resources.toList
      ("\n" ++ title c "resources")

end ShapeCode.Listing

namespace ShapeCode

/-- The listing of a descriptor. -/
def Descriptor.listing (d : Descriptor) (c : Palette) : Except Fault String :=
  match Listing.root d c with
  | .error f => .error f
  | .ok root =>
    match Listing.unionSection d.tables c with
    | .error f => .error f
    | .ok unions => .ok (root ++ unions ++ Listing.resourceSection d.tables c)

end ShapeCode
