import ShapeCode.Measure

set_option autoImplicit false

/-!
# Tour: the nodes of a shape, without a value

A tour visits the nodes of a range in order, each before its contents, and looks at no
value: it goes into records, resources, pointers and the one element shape of a run, and
passes unions by, since only a value selects a variant.  The element shape of a run is
measured before it is entered, as a walk over values must.  Where a nested range stands
for one value, only its first node is visited.
-/

namespace ShapeCode.Tour

/-- The fault of a range that should hold a node and holds none. -/
def missingNode : Fault := .truncated 1 0

/-- The nodes of a range in visiting order, put before `seen`, which is kept newest
first.  Only the first node and its contents are visited if `single`. -/
def visits (tables : Tables) :
    (single : Bool) → Outline → (seen : List Node) → Except Fault (List Node)
  | single, .done, seen => if single then .error missingNode else .ok seen
  | _, .broken f, _ => .error f
  | single, .cons node inner rest, seen =>
    let inside : Except Fault (List Node) :=
      match node with
      | .scalar _ | .handle _ => .ok (node :: seen)
      | .record _ | .resource _ _ => visits tables false inner (node :: seen)
      | .union id =>
        match tables.union id with
        | .error f => .error f
        | .ok _ => .ok (node :: seen)
      | .run _ _ _ =>
        match inner.spacing tables with
        | .error f => .error f
        | .ok _ => visits tables true inner (node :: seen)
      | .pointer _ _ => visits tables true inner (node :: seen)
    match inside with
    | .error f => .error f
    | .ok seen => if single then .ok seen else visits tables false rest seen

end ShapeCode.Tour

namespace ShapeCode

/-- The nodes of a range in visiting order. -/
def Outline.tour (tables : Tables) (o : Outline) : Except Fault (List Node) :=
  match Tour.visits tables false o [] with
  | .error f => .error f
  | .ok seen => .ok seen.reverse

end ShapeCode
