import ShapeCode.Walk

set_option autoImplicit false

/-!
# Traces: the visits of a walk

A trace records every node a walk visits and where, in order.  A pointer whose cell is
zero in some lane is recorded as such and not followed.
-/

namespace ShapeCode

/-- A visit of a walk. -/
inductive Visit where
  | node (cursor : Cursor) (node : Node)
  /-- A pointer just visited holds zero in some lane. -/
  | null (cursor : Cursor)
  deriving DecidableEq, Repr, Inhabited

namespace Trace

/-- Whether a pointer is zero in some lane. -/
def isNull : Content → Bool
  | .pointer cells => cells.contains 0
  | _ => false

/-- Records visits, newest first. -/
def visitor : Visitor (List Visit) where
  attends _ := true
  enter node c content seen :=
    if isNull content then (.null c :: .node c node :: seen, false)
    else (.node c node :: seen, true)
  leave _ _ seen := seen

end Trace

/-- The visits of one step, where it left the cursor, and whether it was the last. -/
structure Leg where
  visits : List Visit
  cursor : Cursor
  last : Bool
  deriving DecidableEq, Repr, Inhabited

namespace Scene

/-- The visits of a walk over a range. -/
def trace (s : Scene) (depth : Nat) (o : Outline) (c : Cursor) :
    Walk.Outcome (List Visit) :=
  (Walk.run s Trace.visitor depth o c []).map List.reverse

/-- The visits of a walk over the fields of a variant. -/
def traceVariant (s : Scene) (depth : Nat) (id : UInt16) (selected : Nat) (c : Cursor) :
    Walk.Outcome (List Visit) :=
  (Walk.variant s Trace.visitor depth id selected c []).map List.reverse

/-- The visits of a walk over the elements of a run. -/
def traceElements (s : Scene) (depth : Nat) (inner : Outline) (span : Span) :
    Walk.Outcome (List Visit) :=
  (Walk.spanElements s Trace.visitor depth inner span []).map List.reverse

/-- The steps of a walk over a range, the first aligned if `aligned`. -/
def legs (s : Scene) (depth : Nat) :
    Outline → Cursor → (aligned : Bool) → Walk.Outcome (List Leg)
  | .done, _, _ => .ok []
  | .broken f, _, _ => .error (.fault f)
  | .cons node inner rest, c, aligned =>
    match Walk.step s Trace.visitor depth (.cons node inner rest) c aligned [] with
    | .error h => .error h
    | .ok (seen, c) =>
      match legs s depth rest c true with
      | .error h => .error h
      | .ok more => .ok (⟨seen.reverse, c, rest == .done⟩ :: more)

end Scene

end ShapeCode
