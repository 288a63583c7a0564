import ShapeCode.Phrase
import ShapeCode.Value.Scalar
import ShapeCode.Walk

set_option autoImplicit false

/-!
# Value text: a value on one line

Records and variants are written `(a, b)`, resources `res(a, b)`, runs `[a, b]`, runs of
plain bytes as quoted strings, pointers as their sigil and what they point at, a null
pointer as its sigil and `(null)`, and handles by name.  A variant without fields is
written as nothing, a resource without fields as `res`.  Siblings are separated by a
comma and a blank; a pointer and its target are one sibling.
-/

namespace ShapeCode.ValueText

/-- What stands between siblings. -/
def separator : String := ", "

/-- Writes a phrase that has no inside. -/
def leaf (s : String) (p : Phrase) : Phrase × Bool := (p.leaf separator s, false)

/-- Opens a group. -/
def opening (s : String) (p : Phrase) : Phrase × Bool := (p.start separator s, true)

/-- Whether the selected variant of a union has no fields. -/
def isBare (u : Union) : (discriminants : List Nat) → Bool
  | [] => false
  | selected :: _ => u.variants[selected]? == some []

/-- The bytes of a run in memory. -/
def spanBytes (mem : Memory) (span : Span) : Bytes :=
  mem.bytes (span.start.headD 0) ((span.start.distance span.stop).headD 0)

/-- Writes a node. -/
def enter (mem : Memory) (node : Node) (c : Cursor) (content : Content)
    (p : Phrase) : Phrase × Bool :=
  match node, content with
  | .scalar s, _ => leaf (s.text (s.number mem (c.headD 0))) p
  | .handle h, _ => leaf h.name p
  | .record _, _ => opening "(" p
  | .resource _ fields, _ => if fields.isEmpty then leaf "res" p else opening "res(" p
  | .union _, .union u discriminants =>
    if isBare u discriminants then leaf "" p else opening "(" p
  | .run _ _ _, .run span =>
    if span.isBytes then leaf (Quoted.bytes (spanBytes mem span)) p else opening "[" p
  | .pointer form _, .pointer cells =>
    if cells.contains 0 then leaf (form.sigil ++ "(null)") p else opening form.sigil p
  | _, _ => (p, true)

/-- Closes the group of a node. -/
def leave (node : Node) (p : Phrase) : Phrase :=
  match node with
  | .record _ | .resource _ _ | .union _ => p.finish ")"
  | .run _ _ _ => p.finish "]"
  | .scalar _ | .handle _ | .pointer _ _ => p

/-- Writes a value. -/
def visitor (mem : Memory) : Visitor Phrase where
  attends _ := true
  enter := enter mem
  leave node _ p := leave node p

end ShapeCode.ValueText

namespace ShapeCode

/-- The text of the value at an address. -/
def Scene.render (s : Scene) (depth : Nat) (o : Outline) (address : Nat) :
    Walk.Outcome String :=
  (Walk.run s (ValueText.visitor s.mem) depth o [address] .empty).map Phrase.text

end ShapeCode
