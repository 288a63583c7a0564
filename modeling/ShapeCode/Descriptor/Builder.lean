import ShapeCode.Descriptor
import ShapeCode.Emit

set_option autoImplicit false

/-!
# Building descriptors

A builder collects unions and resources and hands out their ids in order.  A union that
occurs inside itself gets its id first (`reserveUnion`) and its variants later
(`defineUnion`).  Ids have sixteen bits; when they are used up, adding one more is a fault.
-/

namespace ShapeCode

/-- The tables collected so far. -/
structure Builder where
  unions : Array Union
  resources : Array UInt64
  deriving DecidableEq, Repr, Inhabited

namespace Builder

/-- A builder with empty tables. -/
def empty : Builder := ⟨#[], #[]⟩

/-- The id of the next item of a table of `count` items. -/
def nextId (full : Fault) (count : Nat) : Except Fault UInt16 :=
  if count < 65536 then .ok (UInt16.ofNat count) else .error full

/-- Adds a union and returns its id. -/
def pushUnion (b : Builder) (u : Union) : Except Fault (UInt16 × Builder) :=
  match nextId .tooManyUnions b.unions.size with
  | .error f => .error f
  | .ok id => .ok (id, { b with unions := b.unions.push u })

/-- Adds a union whose hint lists its variants. -/
def addUnion (b : Builder) (variants : Array Bytes) : Except Fault (UInt16 × Builder) :=
  match Union.ofVariants variants with
  | .error f => .error f
  | .ok u => b.pushUnion u

/-- Adds a union with the given hint. -/
def addUnionWithHint (b : Builder) (variants : Array Bytes) (hint : List UInt16) :
    Except Fault (UInt16 × Builder) :=
  match Union.make variants hint with
  | .error f => .error f
  | .ok u => b.pushUnion u

/-- Takes an id for a union to be defined later. -/
def reserveUnion (b : Builder) : Except Fault (UInt16 × Builder) := b.pushUnion Union.none

/-- Gives a union its variants, all of them in the hint. -/
def defineUnion (b : Builder) (id : UInt16) (variants : Array Bytes) :
    Except Fault Builder :=
  match Union.ofVariants variants with
  | .error f => .error f
  | .ok u =>
    if id.toNat < b.unions.size
      then .ok { b with unions := b.unions.setIfInBounds id.toNat u }
    else .error (.indexOutOfBounds b.unions.size id.toNat)

/-- Adds a resource and returns its id. -/
def addResource (b : Builder) (handle : UInt64) : Except Fault (UInt16 × Builder) :=
  match nextId .tooManyResources b.resources.size with
  | .error f => .error f
  | .ok id => .ok (id, { b with resources := b.resources.push handle })

/-- The descriptor of a root range over the tables collected. -/
def build (b : Builder) (shape : Bytes) : Descriptor :=
  ⟨shape, ⟨b.unions, b.resources⟩⟩

end Builder

end ShapeCode
