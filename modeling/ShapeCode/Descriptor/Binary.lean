import ShapeCode.Descriptor.Header
import ShapeCode.Descriptor.Verify

set_option autoImplicit false

/-!
# Descriptor files

A descriptor is written as its header, its root range, its resources as eight bytes
each, and its unions: for each the number of variants, the number of hints, the hints,
and the variants behind their 16-bit lengths.  Writing fails where a count or a length
does not fit its field.

Loading reads the sections in this order with a moving offset, so a file that ends early
is refused with the section it ends in, and then verifies what it read.  The reserved
bytes of the header are not looked at.
-/

namespace ShapeCode

namespace Binary

/-! ## Writing -/

/-- A count for a 16-bit field. -/
def count (what : Counted) (n : Nat) : Except LoadError Bytes :=
  if n < 65536 then .ok (Bytes.ofNat 2 n) else .error (.tooMany what n)

/-- A variant behind its length. -/
def variant (fields : Bytes) : Except LoadError Bytes :=
  match count .variantBytes fields.length with
  | .error e => .error e
  | .ok length => .ok (length ++ fields)

/-- A union record. -/
def union (u : Union) : Except LoadError Bytes :=
  match count .variants u.variants.size with
  | .error e => .error e
  | .ok variantCount =>
    match count .hints u.hint.length with
    | .error e => .error e
    | .ok hintCount =>
      match u.variants.toList.mapM variant with
      | .error e => .error e
      | .ok records =>
        .ok (variantCount ++ hintCount ++ u.hint.flatMap (fun v => Bytes.ofNat 2 v.toNat) ++
          records.flatten)

/-- The header of a descriptor. -/
def header (d : Descriptor) : Except LoadError Header :=
  if 65536 ≤ d.tables.unions.size then .error (.tooMany .unions d.tables.unions.size)
  else if 65536 ≤ d.tables.resources.size then
    .error (.tooMany .resources d.tables.resources.size)
  else if 0x100000000 ≤ d.shape.length then .error (.tooMany .shapeBytes d.shape.length)
  else .ok
    { Header.blank with
      unionCount := UInt16.ofNat d.tables.unions.size
      resourceCount := UInt16.ofNat d.tables.resources.size
      shapeLength := UInt32.ofNat d.shape.length }

/-- The bytes of the resources. -/
def resources (tables : Tables) : Bytes :=
  tables.resources.toList.flatMap fun handle => Bytes.ofNat 8 handle.toNat

/-! ## Reading -/

/-- What is left of a file, and where it starts. -/
structure Tail where
  bytes : Bytes
  offset : Nat
  deriving DecidableEq, Repr, Inhabited

/-- Reads an item off the tail of a file. -/
abbrev TailReader (α : Type) : Type := Tail → Except Failure (α × Tail)

/-- The next `n` bytes of a section. -/
def take (part : FileSection) (n : Nat) : TailReader Bytes := fun t =>
  match Bytes.split? n t.bytes with
  | some (head, rest) => .ok (head, ⟨rest, t.offset + n⟩)
  | none => .error (.refused (.truncated part t.offset n))

/-- The next two bytes of the union records, as a number. -/
def readU16 : TailReader UInt16 := fun t =>
  match take .unions 2 t with
  | .error e => .error e
  | .ok (word, t) => .ok (UInt16.ofNat (Bytes.toNat word), t)

/-- A resource. -/
def readResource : TailReader UInt64 := fun t =>
  match take .resources 8 t with
  | .error e => .error e
  | .ok (word, t) => .ok (UInt64.ofNat (Bytes.toNat word), t)

/-- A variant behind its length. -/
def readVariant : TailReader Bytes := fun t =>
  match readU16 t with
  | .error e => .error e
  | .ok (length, t) => take .variant length.toNat t

/-- `n` items in order, after those in `before`, which are kept newest first. -/
def readMany {α : Type} (item : TailReader α) :
    (n : Nat) → (before : List α) → TailReader (List α)
  | 0, before => fun t => .ok (before.reverse, t)
  | n + 1, before => fun t =>
    match item t with
    | .error e => .error e
    | .ok (x, t) => readMany item n (x :: before) t

/-- A union that reading checked. -/
def checkedUnion (id : Nat) (variants : List Bytes) (hint : List UInt16) :
    Except Failure Union :=
  match Verify.hint id ⟨variants.toArray, hint⟩ with
  | .error e => .error (.refused e)
  | .ok () =>
    match Union.make variants.toArray hint with
    | .error f => .error (.fault f)
    | .ok u => .ok u

/-- The record of the union with the given id. -/
def readUnion (id : Nat) : TailReader Union := fun t =>
  match readU16 t with
  | .error e => .error e
  | .ok (variantCount, t) =>
    match readU16 t with
    | .error e => .error e
    | .ok (hintCount, t) =>
      match readMany readU16 hintCount.toNat [] t with
      | .error e => .error e
      | .ok (hint, t) =>
        match readMany readVariant variantCount.toNat [] t with
        | .error e => .error e
        | .ok (variants, t) =>
          match checkedUnion id variants hint with
          | .error e => .error e
          | .ok u => .ok (u, t)

/-- `n` union records, the first of the given id, after those in `before`, which are
kept newest first. -/
def readUnions : (n id : Nat) → (before : List Union) → TailReader (List Union)
  | 0, _, before => fun t => .ok (before.reverse, t)
  | n + 1, id, before => fun t =>
    match readUnion id t with
    | .error e => .error e
    | .ok (u, t) => readUnions n (id + 1) (u :: before) t

/-- The sections behind a header. -/
def readSections (h : Header) : TailReader Descriptor := fun t =>
  match take .shape h.shapeLength.toNat t with
  | .error e => .error e
  | .ok (shape, t) =>
    match readMany readResource h.resourceCount.toNat [] t with
    | .error e => .error e
    | .ok (resources, t) =>
      match readUnions h.unionCount.toNat 0 [] t with
      | .error e => .error e
      | .ok (unions, t) => .ok (⟨shape, ⟨unions.toArray, resources.toArray⟩⟩, t)

/-- The header of a file, if the file is one of these. -/
def readHeader (file : Bytes) : Except Failure Header :=
  if (file.take Header.size).length < Header.size
    then .error (.refused (.tooSmall file.length))
  else
    match Header.ofBytes file with
    | .error f => .error (.fault f)
    | .ok h =>
      if h.hasSignature = false then .error (.refused .badMagic)
      else if h.isCurrent = false then .error (.refused (.unsupportedVersion h.version))
      else .ok h

end Binary

namespace Descriptor

/-- The file of a descriptor. -/
def toBytes (d : Descriptor) : Except LoadError Bytes :=
  match Binary.header d with
  | .error e => .error e
  | .ok h =>
    match d.tables.unions.toList.mapM Binary.union with
    | .error e => .error e
    | .ok unions =>
      .ok (h.toBytes ++ d.shape ++ Binary.resources d.tables ++ unions.flatten)

/-- Loads a descriptor from the bytes of a file. -/
def ofBytes (file : Bytes) : Except Failure Descriptor :=
  match Binary.readHeader file with
  | .error e => .error e
  | .ok h =>
    match Binary.readSections h ⟨file.drop Header.size, Header.size⟩ with
    | .error e => .error e
    | .ok (d, t) =>
      if t.bytes.isEmpty then
        match d.verify with
        | .error e => .error e
        | .ok () => .ok d
      else .error (.refused (.sizeMismatch t.offset (t.offset + t.bytes.length)))

end Descriptor

end ShapeCode
