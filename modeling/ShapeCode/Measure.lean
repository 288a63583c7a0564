import ShapeCode.Outline
import ShapeCode.Placement
import ShapeCode.Tables

set_option autoImplicit false

/-!
# Measure: the layout of shapes

A range is laid out like the fields of a record, each node at the next multiple of its
alignment, and the total padded.  What a node adds depends on how it is stored
(`Node.storage`): words and scalars have a layout of their own, records and resources
that of their fields, a fixed vector that of its element so many times, and a union that
of the widest variant its hint names.

Unions are measured once per computation.  The list of layouts known so far is passed
along, newest first; read backwards it is the order in which they became known.  A union
that is met again while it is being measured contains itself and has no layout.

The recursion goes through the nested ranges of an outline, and only a union leads out
of it.  Since no union may be met inside itself, unions nest at most as deep as the
table is long, which is the bound `Measure.union` recurses on.
-/

namespace ShapeCode

/-! ## How a node is stored -/

/-- How the value of a node takes up space where it stands. -/
inductive Storage where
  /-- With a layout that depends on nothing else. -/
  | own (layout : Layout)
  /-- As the fields of its nested range. -/
  | fields
  /-- As `count` values of its nested range. -/
  | copies (count : Nat)
  /-- As a variant of a union. -/
  | union (id : UInt16)
  deriving DecidableEq, Repr, Inhabited

/-- How a node is stored. -/
def Node.storage : Node → Storage
  | .scalar s => .own s.layout
  | .record _ | .resource _ _ => .fields
  | .union id => .union id
  | .run .vec _ _ => .own (Layout.words 1)
  | .run .unboxedVec _ _ | .run (.slice _) _ _ => .own (Layout.words 2)
  | .run (.fixedVec count) _ _ => .copies count.toNat
  | .pointer _ _ => .own (Layout.words 1)
  | .handle h => .own (Layout.words h.words)

namespace Measure

/-- The unions measured so far, newest first. -/
abbrev Known : Type := List (UInt16 × Layout)

/-- A measurement takes what is known and adds to it. -/
abbrev Measured (α : Type) : Type := Known → Except Fault (α × Known)

/-! ## Ranges -/

/-- The layout of a node, given how to measure its nested range and how to
measure a union. -/
def storageLayout (union : UInt16 → Measured Layout) (nested : Measured Layout) :
    Storage → Measured Layout
  | .own l => fun known => .ok (l, known)
  | .fields => nested
  | .copies count => fun known =>
    match nested known with
    | .error f => .error f
    | .ok (elem, known) =>
      match elem.copies count with
      | .error f => .error f
      | .ok l => .ok (l, known)
  | .union id => union id

/-- The layout of a range whose nodes follow `before`. -/
def range (union : UInt16 → Measured Layout) :
    Outline → (before : Layout) → Measured Layout
  | .done, before => fun known =>
    match before.padded with
    | .error f => .error f
    | .ok l => .ok (l, known)
  | .broken f, _ => fun _ => .error f
  | .cons node inner rest, before => fun known =>
    match storageLayout union (range union inner .empty) node.storage known with
    | .error f => .error f
    | .ok (l, known) =>
      match before.append l with
      | .error f => .error f
      | .ok sofar => range union rest sofar known

/-! ## Unions -/

/-- The size and alignment that the given variants need at most, on top of `widest`;
each variant follows what `head` holds. -/
def variants (union : UInt16 → Measured Layout) (u : Union) (head : Layout) :
    List UInt16 → (widest : Layout) → Measured Layout
  | [], widest => fun known => .ok (widest, known)
  | v :: rest, widest => fun known =>
    match u.variant v.toNat with
    | .error f => .error f
    | .ok fields =>
      match range union (Outline.ofBytes fields) head known with
      | .error f => .error f
      | .ok (l, known) =>
        variants union u head rest ⟨max widest.size l.size,
          max widest.align l.align⟩ known

/-- The layout of a union whose variants need `widest`: padded, and never of no size
unless a discriminant says so. -/
def unionLayout (u : Union) (widest : Layout) : Except Fault Layout :=
  if widest.size = 0 ∧ u.hasDiscriminant = false then .ok ⟨1, 1⟩
  else
    match Word.alignUp widest.size widest.align with
    | .error f => .error f
    | .ok size => .ok ⟨size, widest.align⟩

/-- What stands before the fields of every variant. -/
def unionHead (u : Union) : Layout :=
  if u.hasDiscriminant then Placement.discriminant else .empty

/-- The layout of a union.  The unions on `path` are being measured, and at most
`depth` more may be. -/
def union (tables : Tables) :
    (depth : Nat) → (path : List UInt16) → UInt16 → Measured Layout
  | depth, path, id => fun known =>
    match tables.union id with
    | .error f => .error f
    | .ok u =>
      match known.lookup id with
      | some l => .ok (l, known)
      | none =>
        if id ∈ path then .error (.selfContaining id.toNat)
        else
          match depth with
          | 0 => .error (.selfContaining id.toNat)
          | depth + 1 =>
            match variants (union tables depth (id :: path)) u
              (unionHead u) u.hint .empty known with
            | .error f => .error f
            | .ok (widest, known) =>
              match unionLayout u widest with
              | .error f => .error f
              | .ok l => .ok (l, (id, l) :: known)

/-- The layout of a union when no other is being measured. -/
def anyUnion (tables : Tables) : UInt16 → Measured Layout :=
  union tables tables.unions.size []

end Measure

/-! ## Measuring -/

namespace Outline

/-- The layout of a range, with the unions measured on the way. -/
def measure (tables : Tables) (o : Outline) : Except Fault (Layout × Measure.Known) :=
  Measure.range (Measure.anyUnion tables) o .empty []

/-- The layout of a range. -/
def layout (tables : Tables) (o : Outline) : Except Fault Layout :=
  match o.measure tables with
  | .error f => .error f
  | .ok (l, _) => .ok l

end Outline

/-- The layout of a node with the given nested outline. -/
def Node.layout (tables : Tables) (node : Node) (inner : Outline) : Except Fault Layout :=
  match Measure.storageLayout (Measure.anyUnion tables)
      (Measure.range (Measure.anyUnion tables) inner .empty) node.storage [] with
  | .error f => .error f
  | .ok (l, _) => .ok l

/-- How elements of the given outline follow one another in a run: the distance from one
to the next, and where the first lies behind a vector header. -/
structure Spacing where
  stride : Nat
  dataOffset : Nat
  deriving DecidableEq, Repr, Inhabited

/-- The spacing of elements of the given outline. -/
def Outline.spacing (tables : Tables) (elem : Outline) : Except Fault Spacing :=
  match elem.layout tables with
  | .error f => .error f
  | .ok l =>
    match Placement.vecDataOffset l.align with
    | .error f => .error f
    | .ok offset => .ok ⟨l.size, offset⟩

/-- The layout of a range of bytes. -/
def Bytes.layout (tables : Tables) (bs : Bytes) : Except Fault Layout :=
  (Outline.ofBytes bs).layout tables

end ShapeCode
