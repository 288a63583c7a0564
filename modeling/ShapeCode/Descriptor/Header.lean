import ShapeCode.Bytes
import ShapeCode.Fault

set_option autoImplicit false

/-!
# File headers

A descriptor file starts with sixteen bytes: four of magic, the format version, the
number of unions, the number of resources, two reserved bytes and the length of the root
range.  The root range, eight bytes per resource and the union records follow, so the
header alone says where each section starts.
-/

namespace ShapeCode

/-- The first sixteen bytes of a descriptor file. -/
structure Header where
  magic : Bytes
  version : UInt16
  unionCount : UInt16
  resourceCount : UInt16
  reserved : UInt16
  shapeLength : UInt32
  deriving DecidableEq, Repr, Inhabited

namespace Header

/-- The bytes every descriptor file starts with. -/
def signature : Bytes := [0x53, 0x48, 0x50, 0x44]

/-- The version of the format described here. -/
def currentVersion : UInt16 := 1

/-- Bytes in a header. -/
def size : Nat := 16

/-- The header of a file without unions, resources or root range. -/
def blank : Header := ⟨signature, currentVersion, 0, 0, 0, 0⟩

/-- The number in `width` bytes at `offset`. -/
def field (bs : Bytes) (offset width : Nat) : Nat :=
  Bytes.toNat ((bs.drop offset).take width)

/-- The header at the front of a file. -/
def ofBytes (bs : Bytes) : Except Fault Header :=
  if (bs.take size).length < size then .error .headerTooShort
  else .ok
    { magic := bs.take 4
      version := UInt16.ofNat (field bs 4 2)
      unionCount := UInt16.ofNat (field bs 6 2)
      resourceCount := UInt16.ofNat (field bs 8 2)
      reserved := UInt16.ofNat (field bs 10 2)
      shapeLength := UInt32.ofNat (field bs 12 4) }

/-- The bytes of a header. -/
def toBytes (h : Header) : Bytes :=
  h.magic ++ Bytes.ofNat 2 h.version.toNat ++ Bytes.ofNat 2 h.unionCount.toNat ++
    Bytes.ofNat 2 h.resourceCount.toNat ++ Bytes.ofNat 2 h.reserved.toNat ++
    Bytes.ofNat 4 h.shapeLength.toNat

/-- Whether the magic bytes are those of a descriptor file. -/
def hasSignature (h : Header) : Bool := h.magic == signature

/-- Whether the version is the one described here. -/
def isCurrent (h : Header) : Bool := h.version == currentVersion

/-- Where the resources start. -/
def resourcesOffset (h : Header) : Nat := size + h.shapeLength.toNat

/-- Where the union records start. -/
def unionsOffset (h : Header) : Nat := h.resourcesOffset + h.resourceCount.toNat * 8

end Header

end ShapeCode
