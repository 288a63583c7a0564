import ShapeCode.Tour

set_option autoImplicit false

/-!
# Flat shapes: values without pointers

A shape is flat if no value of it holds a pointer, so that its bytes alone describe it.
Vectors, slices, pointers and handles are not flat; everything stored inline is as flat
as its contents, and a union is as flat as all of its variants, hinted or not.  Each
union is judged the first time it is met.

The check goes on after the first pointer, except that no further variant of a union is
looked at, so a fault behind a pointer is still met.
-/

namespace ShapeCode.Flat

/-- The verdict so far, and the unions met. -/
structure State where
  flat : Bool
  met : Array Bool
  deriving DecidableEq, Repr, Inhabited

/-- The state before a check: nothing met. -/
def State.start (tables : Tables) : State :=
  ⟨true, Array.replicate tables.unions.size false⟩

/-- The state once a pointer was met. -/
def State.spoil (s : State) : State := { s with flat := false }

/-- Whether a union was met. -/
def State.hasMet (s : State) (id : UInt16) : Bool := s.met.getD id.toNat false

/-- The state once a union was met. -/
def State.meet (s : State) (id : UInt16) : State :=
  { s with met := s.met.setIfInBounds id.toNat true }

/-- Judges a range, given how to judge a union. -/
def range (tables : Tables) (union : UInt16 → State → Except Fault State) :
    (single : Bool) → Outline → State → Except Fault State
  | single, .done, s => if single then .error Tour.missingNode else .ok s
  | _, .broken f, _ => .error f
  | single, .cons node inner rest, s =>
    let inside : Except Fault State :=
      match node with
      | .scalar _ => .ok s
      | .record _ | .resource _ _ => range tables union false inner s
      | .union id => union id s
      | .run form _ _ =>
        match inner.spacing tables with
        | .error f => .error f
        | .ok _ =>
          match form with
          | .fixedVec _ => range tables union true inner s
          | _ => .ok s.spoil
      | .pointer _ _ | .handle _ => .ok s.spoil
    match inside with
    | .error f => .error f
    | .ok s => if single then .ok s else range tables union false rest s

/-- Judges variants in order until one is not flat. -/
def variants (tables : Tables) (union : UInt16 → State → Except Fault State) :
    List Bytes → State → Except Fault State
  | [], s => .ok s
  | fields :: rest, s =>
    if s.flat then
      match range tables union false (Outline.ofBytes fields) s with
      | .error f => .error f
      | .ok s => variants tables union rest s
    else .ok s

/-- Judges a union, unless it was met before.  At most `depth` more unions may be met
inside it; no more than the table holds ever are. -/
def union (tables : Tables) : (depth : Nat) → UInt16 → State → Except Fault State
  | depth, id, s =>
    match tables.union id with
    | .error f => .error f
    | .ok u =>
      if s.hasMet id then .ok s
      else
        match depth with
        | 0 => .error (.selfContaining id.toNat)
        | depth + 1 => variants tables (union tables depth) u.variants.toList (s.meet id)

end ShapeCode.Flat

namespace ShapeCode

/-- Whether no value of the range holds a pointer. -/
def Outline.isFlat (tables : Tables) (o : Outline) : Except Fault Bool :=
  match Flat.range tables (Flat.union tables tables.unions.size) false o
    (Flat.State.start tables) with
  | .error f => .error f
  | .ok s => .ok s.flat

end ShapeCode
