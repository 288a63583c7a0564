import ShapeCode.Value.Scalar
import ShapeCode.Walk

set_option autoImplicit false

/-!
# The order of values

Two values of one shape are walked in step, and the first difference decides.
Scalars are ordered by their kind, handles word by word, unions by discriminant and
then by their fields, a null pointer before any other, and runs element by element
and then by length in bytes.
-/

namespace ShapeCode.ValueOrder

/-- The order of two lanes, by a key. -/
def lanes {α : Type} [Ord α] : List α → Ordering
  | [a, b] => compare a b
  | _ => .eq

/-- The order of two handles of `n` words. -/
def words (mem : Memory) : (n : Nat) → Cursor → Ordering
  | 0, _ => .eq
  | n + 1, c => (lanes (c.map mem.word)).then (words mem n (c.advance Word.size))

/-- The order of two scalars. -/
def scalars (mem : Memory) (s : Scalar) : Cursor → Ordering
  | [a, b] => s.order (s.number mem a) (s.number mem b)
  | _ => .eq

/-- Decides a node, or leaves it to its inside. -/
def enter (mem : Memory) (node : Node) (c : Cursor) (content : Content) (sofar : Ordering) :
    Ordering × Bool :=
  match node, content with
  | .scalar s, _ => (scalars mem s c, false)
  | .handle h, _ => (words mem h.words c, false)
  | .union _, .union _ discriminants =>
    match lanes discriminants with
    | .eq => (sofar, true)
    | decided => (decided, false)
  | .pointer _ _, .pointer cells =>
    if cells.contains 0
      then (lanes (cells.map fun cell => if cell = 0 then 0 else 1), false)
    else (sofar, true)
  | _, _ => (sofar, true)

/-- Decides runs of equal elements by length. -/
def leave (content : Content) (sofar : Ordering) : Ordering :=
  match content with
  | .run span => sofar.then (lanes (span.start.distance span.stop))
  | _ => sofar

/-- Orders two values. -/
def visitor (mem : Memory) : Visitor Ordering where
  attends sofar := sofar == .eq
  enter := enter mem
  leave _ content sofar := leave content sofar

end ShapeCode.ValueOrder

namespace ShapeCode

/-- The order of the values at two addresses. -/
def Scene.compare (s : Scene) (depth : Nat) (o : Outline) (a b : Nat) :
    Walk.Outcome Ordering :=
  Walk.run s (ValueOrder.visitor s.mem) depth o [a, b] .eq

end ShapeCode
