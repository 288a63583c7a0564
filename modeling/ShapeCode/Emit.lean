import ShapeCode.Node

set_option autoImplicit false

/-!
# Emitting shape bytecode

One function per kind of node gives the bytes of the node from its operands and the
bytes of its contents.  A range is the concatenation of its nodes.  A nested range is
written behind its 16-bit length, and one that is too long for it is a fault.
-/

namespace ShapeCode.Emit

/-- A 16-bit number. -/
def u16 (n : UInt16) : Bytes := Bytes.ofNat 2 n.toNat

/-- A flag. -/
def flag (b : Bool) : Bytes := [if b then 1 else 0]

/-- A nested range behind its length, after `head`. -/
def nested (head inner : Bytes) : Except Fault Bytes :=
  if inner.length < 65536 then .ok (head ++ Bytes.ofNat 2 inner.length ++ inner)
  else .error (.nestedTooLong inner.length)

/-- A scalar. -/
def scalar (s : Scalar) : Bytes := [(Kind.scalar s).byte]

/-- A callable. -/
def callable (c : Callable) : Bytes := [(Kind.callable c).byte]

/-- The kind of a handle. -/
def handleKind : Handle → Kind
  | .callable c => .callable c
  | .object => .object
  | .traitObject => .traitObject
  | .typeDescriptor => .typeDescriptor

/-- A handle. -/
def handle (h : Handle) : Bytes := [(handleKind h).byte]

/-- A union. -/
def union (id : UInt16) : Bytes := Kind.union.byte :: u16 id

/-- A record of the given fields. -/
def record (fields : Bytes) : Except Fault Bytes := nested [Kind.record.byte] fields

/-- The bytes of a run before its element range. -/
def runHead (form : RunForm) (plain : Bool) : Bytes :=
  match form with
  | .vec => Kind.vec.byte :: flag plain
  | .unboxedVec => Kind.unboxedVec.byte :: flag plain
  | .slice isStr => Kind.slice.byte :: (flag plain ++ flag isStr)
  | .fixedVec count => Kind.fixedVec.byte :: (u16 count ++ flag plain)

/-- A run of the given element. -/
def run (form : RunForm) (plain : Bool) (elem : Bytes) : Except Fault Bytes :=
  nested (runHead form plain) elem

/-- The kind of a pointer. -/
def pointerKind : PointerForm → Kind
  | .box => .box
  | .uniq => .uniq
  | .borrow => .borrow

/-- A pointer to the given target. -/
def pointer (form : PointerForm) (inner : Bytes) : Except Fault Bytes :=
  nested [(pointerKind form).byte] inner

/-- A resource of the given fields. -/
def resource (id : UInt16) (fields : Bytes) : Except Fault Bytes :=
  nested (Kind.resource.byte :: u16 id) fields

end ShapeCode.Emit
