import ShapeCode.Value.Scalar
import ShapeCode.Walk

set_option autoImplicit false

/-!
# Values as trees

What memory holds at an address is a tree: of each value its head, which is what is read
of the value itself, and the values inside it, pointers followed.  `Scene.value` is the
tree that a walk over one lane reads, each node where the walk finds it.  The walk comes
to an end only where the tree is finite and every discriminant selects a variant.

`Values.order` compares two trees of one shape and knows nothing of
memory, cursors or walks.
-/

namespace ShapeCode

/-! ## Trees -/

/-- What is read of a value itself. -/
inductive Head where
  | scalar (s : Scalar) (number : Nat)
  | handle (h : Handle) (words : List Nat)
  | record
  | resource
  | union (discriminant : Nat)
  /-- A run, whether its elements are plain bytes, and its length in bytes. -/
  | run (isBytes : Bool) (length : Nat)
  | null (form : PointerForm)
  | pointer (form : PointerForm)
  deriving DecidableEq, Repr, Inhabited

/-- Values side by side, each with the values inside it. -/
inductive Values where
  | nil
  | cons (head : Head) (inside rest : Values)
  deriving DecidableEq, Repr, Inhabited

namespace Values

/-- Values side by side, and others after them. -/
def append : Values → Values → Values
  | .nil, after => after
  | .cons head inside rest, after => .cons head inside (rest.append after)

@[simp] theorem append_nil (v : Values) : v.append .nil = v := by
  induction v with
  | nil => rfl
  | cons head inside rest _ ih => simp [append, ih]

theorem append_assoc (u v w : Values) : (u.append v).append w = u.append (v.append w) := by
  induction u with
  | nil => rfl
  | cons head inside rest _ ih => simp [append, ih]

end Values

/-! ## Order -/

/-- The number that a scalar stands for: signed in two's complement, or unsigned. -/
def Scalar.reading (s : Scalar) (n : Nat) : Int :=
  match s with
  | .unit => 0
  | .i8 | .i16 | .i32 | .i64 => (BitVec.ofNat (8 * s.size) n).toInt
  | .bool | .char | .u8 | .u16 | .u32 | .u64 | .f32 | .f64 => n

namespace Head

/-- What two heads are compared by, one number after another.  A null pointer comes
before any other. -/
def key : Head → List Int
  | .scalar s n => [s.reading n]
  | .handle _ words => words.map Int.ofNat
  | .union d => [(d : Int)]
  | .null _ => [0]
  | .pointer _ => [1]
  | .record | .resource | .run _ _ => []

/-- The length in bytes of a run. -/
def length : Head → Nat
  | .run _ n => n
  | _ => 0

end Head

/-- The lexicographic order of trees of one shape: the heads, then what is inside up to
the end of the shorter, then the lengths of runs, and then the values after. -/
def Values.order : Values → Values → Ordering
  | .cons h inside rest, .cons k inside' rest' =>
    (compare h.key k.key).then
      ((inside.order inside').then ((compare h.length k.length).then (rest.order rest')))
  | _, _ => .eq

/-! ## Reading -/

namespace ValueTree

/-- So many words from an address on. -/
def words (mem : Memory) : (n address : Nat) → List Nat
  | 0, _ => []
  | n + 1, a => mem.word a :: words mem n (Word.wrap (a + Word.size))

/-- What is read of a node at a cursor of one lane. -/
def head (mem : Memory) (node : Node) (c : Cursor) (content : Content) : Head :=
  match node, content with
  | .scalar s, _ => .scalar s (s.number mem (c.headD 0))
  | .handle h, _ => .handle h (words mem h.words (c.headD 0))
  | .union _, .union _ discriminants => .union (discriminants.headD 0)
  | .run _ _ _, .run span => .run span.isBytes ((span.start.distance span.stop).headD 0)
  | .pointer form _, .pointer cells =>
    if cells.contains 0 then .null form else .pointer form
  | .resource _ _, _ => .resource
  | _, _ => .record

/-- Values being read: those of one group, and the groups that it is inside of,
innermost first.  Of these, the head that was gone into and the values before it. -/
structure Reading where
  group : Values
  around : List (Head × Values)

/-- Reads values, and follows every pointer that is not null. -/
def visitor (mem : Memory) : Visitor Reading where
  attends _ := true
  enter node c content r :=
    match head mem node c content with
    | .null form => (⟨r.group.append (.cons (.null form) .nil .nil), r.around⟩, false)
    | h => (⟨.nil, (h, r.group) :: r.around⟩, true)
  leave _ _ r :=
    match r.around with
    | [] => r
    | (h, before) :: around => ⟨before.append (.cons h r.group .nil), around⟩

end ValueTree

/-- The tree that a walk over one lane reads at an address. -/
def Scene.value (s : Scene) (depth : Nat) (o : Outline) (address : Nat) :
    Walk.Outcome Values :=
  (Walk.run s (ValueTree.visitor s.mem) depth o
    [address] ⟨.nil, []⟩).map ValueTree.Reading.group

end ShapeCode
