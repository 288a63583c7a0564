import ShapeCode.Emit

set_option autoImplicit false

/-!
# Drafts: shape bytecode while it is written

A draft is a buffer, and nodes are appended to it.  How long a nested range will be is
not known when its length is due, so a placeholder is written there, the contents are
appended behind it, and the length is then put in its place.  What describes the
contents appends to the same buffer, at any depth.
-/

namespace ShapeCode

/-- What was written so far. -/
structure Draft where
  bytes : Array UInt8
  deriving DecidableEq, Repr, Inhabited

namespace Draft

/-- Appends something to a draft, unless a nested range gets too long. -/
abbrev Step : Type := Draft → Except Fault Draft

/-- A draft with nothing in it. -/
def empty : Draft := ⟨#[]⟩

/-! ## The buffer -/

/-- Appends bytes that are encoded already. -/
def append (draft : Draft) (bs : Bytes) : Draft := ⟨draft.bytes ++ bs⟩

/-- Puts bytes in the place of those from `start` on. -/
def overwrite (draft : Draft) (start : Nat) : Bytes → Draft
  | [] => draft
  | b :: rest => overwrite ⟨draft.bytes.setIfInBounds start b⟩ (start + 1) rest

/-- What stands for a length that is not known yet. -/
def placeholder : Bytes := Emit.u16 0

/-- Puts the length of what was written behind the placeholder at
`lengthAt` in its place. -/
def close (lengthAt : Nat) (draft : Draft) : Except Fault Draft :=
  let length := draft.bytes.size - lengthAt - placeholder.length
  if length < 65536 then .ok (draft.overwrite lengthAt (Emit.u16 (UInt16.ofNat length)))
  else .error (.nestedTooLong length)

/-- Appends what stands before a nested range, its length, and its contents. -/
def nested (head : Bytes) (contents : Step) : Step := fun draft =>
  let lengthAt := draft.bytes.size + head.length
  match contents ((draft.append head).append placeholder) with
  | .error f => .error f
  | .ok draft => draft.close lengthAt

/-! ## Nodes -/

/-- Appends bytes that are encoded already, as a step. -/
def raw (bs : Bytes) : Step := fun draft => .ok (draft.append bs)

/-- Appends a scalar. -/
def scalar (s : Scalar) : Step := raw (Emit.scalar s)

/-- Appends a handle. -/
def handle (h : Handle) : Step := raw (Emit.handle h)

/-- Appends a union. -/
def union (id : UInt16) : Step := raw (Emit.union id)

/-- Appends a record of the given fields. -/
def record (fields : Step) : Step := nested [Kind.record.byte] fields

/-- Appends a run of the given element. -/
def run (form : RunForm) (plain : Bool) (elem : Step) : Step :=
  nested (Emit.runHead form plain) elem

/-- Appends a pointer to the given target. -/
def pointer (form : PointerForm) (inner : Step) : Step :=
  nested [(Emit.pointerKind form).byte] inner

/-- Appends a resource of the given fields. -/
def resource (id : UInt16) (fields : Step) : Step :=
  nested (Kind.resource.byte :: Emit.u16 id) fields

/-! ## Ranges -/

/-- Appends by one step after another. -/
def sequence : List Step → Step
  | [], draft => .ok draft
  | step :: rest, draft =>
    match step draft with
    | .error f => .error f
    | .ok draft => sequence rest draft

/-- The bytes written. -/
def finish (draft : Draft) : Bytes := draft.bytes.toList

/-- The range that a step writes. -/
def shape (step : Step) : Except Fault Bytes :=
  match step empty with
  | .error f => .error f
  | .ok draft => .ok draft.finish

end Draft

end ShapeCode
