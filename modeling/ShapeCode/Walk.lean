import ShapeCode.Span

set_option autoImplicit false

/-!
# Walks: nodes and values in step

A walk goes through the nodes of a range and moves a cursor past the value of each.  A
step reads a node, takes its layout, rounds the cursor up to its alignment unless the
node is the first of its range, lets a visitor look at the node there, and moves on by
its size.  The first node of a range stands where the range was told to start; the
fields of a union behind its discriminant are all rounded up.

What a node holds is resolved before the visitor enters it: the discriminant of a union
in each lane, the elements of a run, the cell of a pointer.  The visitor says whether to
go inside.  Inside are the fields of a record or resource, the fields of the variant
that the first lane selects, every element of a run, or what the pointer points at.

Nested ranges are parts of an outline and bound the recursion.  Only a union leads out
of it, to the outline of a variant, and values may nest unions without end; `depth` is
how many unions a walk enters inside one another before it gives up with `Halt.tooDeep`,
which is no answer about the value.
-/

namespace ShapeCode

/-- Why a walk stopped short. -/
inductive Halt where
  /-- The walk met a fault. -/
  | fault (cause : Fault)
  /-- The walk was allowed too few nested unions to come to an end. -/
  | tooDeep
  deriving DecidableEq, Repr, Inhabited

/-- What a walk moves through: the tables of the shape and the memory of the values. -/
structure Scene where
  tables : Tables
  mem : Memory

/-- What is found at a node, before going inside. -/
inductive Content where
  /-- Nothing to resolve: a scalar, a handle, or fields. -/
  | plain
  /-- A union and its discriminant in each lane. -/
  | union (u : Union) (discriminants : List Nat)
  /-- The elements of a run. -/
  | run (span : Span)
  /-- The cell of a pointer in each lane. -/
  | pointer (cells : List Nat)
  deriving DecidableEq, Repr, Inhabited

/-- What a walk does at its nodes. -/
structure Visitor (σ : Type) where
  /-- Whether the visitor still looks at nodes. -/
  attends : σ → Bool
  /-- Looks at a node, and says whether to go inside. -/
  enter : Node → Cursor → Content → σ → σ × Bool
  /-- Called after the inside of a node. -/
  leave : Node → Content → σ → σ

namespace Scene

/-- The discriminant of a union in each lane.  A union of at most one
variant stores none. -/
def discriminants (s : Scene) (u : Union) (c : Cursor) : List Nat :=
  if u.hasDiscriminant then c.map s.mem.word else c.splat 0

/-- What is found at a node. -/
def content (s : Scene) (node : Node) (inner : Outline) (c : Cursor) :
    Except Fault Content :=
  match node with
  | .scalar _ | .handle _ | .record _ | .resource _ _ => .ok .plain
  | .union id =>
    match s.tables.union id with
    | .error f => .error f
    | .ok u => .ok (.union u (s.discriminants u c))
  | .run form plain elem =>
    match Span.resolve s.tables s.mem form plain elem inner c with
    | .error f => .error f
    | .ok span => .ok (.run span)
  | .pointer _ _ => .ok (.pointer (c.map s.mem.word))

/-- How far behind the address in its cell a pointer points. -/
def targetOffset (s : Scene) (form : PointerForm) (inner : Outline) : Except Fault Nat :=
  match form with
  | .box =>
    match inner.layout s.tables with
    | .error f => .error f
    | .ok l => Placement.boxBodyOffset l.align
  | .uniq | .borrow => .ok 0

/-- What a pointer at a cursor points at. -/
def target (s : Scene) (form : PointerForm) (inner : Outline) (c : Cursor) :
    Except Fault Cursor :=
  match s.targetOffset form inner with
  | .error f => .error f
  | .ok offset => .ok (c.map fun a => Word.wrap (s.mem.word a + offset))

end Scene

namespace Walk

/-- The outcome of a walk. -/
abbrev Outcome (α : Type) : Type := Except Halt α

/-- Turns a fault into the end of a walk. -/
def lift {α : Type} : Except Fault α → Outcome α
  | .error f => .error (.fault f)
  | .ok x => .ok x

/-- Visits elements from `c` on, at most `bound` of them, until the visitor
stops attending. -/
def elements {σ : Type} (v : Visitor σ) (span : Span)
    (visit : Cursor → σ → Outcome σ) :
    (bound : Nat) → Cursor → σ → Outcome σ
  | 0, _, st => .ok st
  | bound + 1, c, st =>
    if span.hasElement c && v.attends st then
      match visit c st with
      | .error h => .error h
      | .ok st => elements v span visit bound (c.advance span.stride) st
    else .ok st

/-- Goes inside a node, given how to visit one value and all fields of its nested range,
and how to visit the fields of a variant. -/
def inside {σ : Type} (s : Scene) (v : Visitor σ)
    (variant : UInt16 → Nat → Cursor → σ → Outcome σ)
    (one fields : Cursor → σ → Outcome σ) (node : Node) (inner : Outline)
    (content : Content) (c : Cursor) (st : σ) : Outcome σ :=
  match node, content with
  | .record _, _ | .resource _ _, _ => fields c st
  | .union id, .union _ (selected :: _) => variant id selected c st
  | .run _ _ _, .run span =>
    elements v span one (span.elementBound span.start) span.start st
  | .pointer form _, _ =>
    match s.target form inner c with
    | .error f => .error (.fault f)
    | .ok target => one target st
  | _, _ => .ok st

/-- Lets a visitor look at a node, and inside it. -/
def visit {σ : Type} (s : Scene) (v : Visitor σ)
    (variant : UInt16 → Nat → Cursor → σ → Outcome σ)
    (one fields : Cursor → σ → Outcome σ) (node : Node) (inner : Outline) (c : Cursor)
    (st : σ) : Outcome σ :=
  if v.attends st then
    match s.content node inner c with
    | .error f => .error (.fault f)
    | .ok content =>
      match v.enter node c content st with
      | (st, false) => .ok st
      | (st, true) =>
        match inside s v variant one fields node inner content c st with
        | .error h => .error h
        | .ok st => .ok (v.leave node content st)
  else .ok st

/-- Where the value of a node of the given alignment starts. -/
def place (aligned : Bool) (align : Nat) (c : Cursor) : Except Fault Cursor :=
  if aligned then c.alignUp align else .ok c

/-- Walks a range, or its first node if `single`, with a cursor that is rounded up from
the first node on if `aligned`, and returns where the cursor ends up. -/
def range {σ : Type} (s : Scene) (v : Visitor σ)
    (variant : UInt16 → Nat → Cursor → σ → Outcome σ) :
    (single : Bool) → Outline → Cursor → (aligned : Bool) →
      σ → Outcome (σ × Cursor)
  | single, .done, c, _, st =>
    if single then .error (.fault (.truncated 1 0)) else .ok (st, c)
  | _, .broken f, _, _, _ => .error (.fault f)
  | single, .cons node inner rest, c, aligned, st =>
    match node.layout s.tables inner with
    | .error f => .error (.fault f)
    | .ok l =>
      match place aligned l.align c with
      | .error f => .error (.fault f)
      | .ok c =>
        match visit s v variant
            (fun c st => (range s v variant true inner c false st).map Prod.fst)
            (fun c st => (range s v variant false inner c false st).map Prod.fst)
            node inner c st with
        | .error h => .error h
        | .ok st =>
          if single then .ok (st, c.advance l.size)
          else range s v variant false rest (c.advance l.size) true st

/-- Walks the fields of a variant of the union at a cursor, entering at most
`depth` unions. -/
def variant {σ : Type} (s : Scene) (v : Visitor σ) :
    (depth : Nat) → UInt16 → (selected : Nat) → Cursor → σ → Outcome σ
  | 0, _, _, _, _ => .error .tooDeep
  | depth + 1, id, selected, c, st =>
    match s.tables.union id with
    | .error f => .error (.fault f)
    | .ok u =>
      match u.variant selected with
      | .error f => .error (.fault f)
      | .ok fields =>
        let start := if u.hasDiscriminant then c.advance Word.size else c
        (range s v (variant s v depth) false (Outline.ofBytes fields) start
          u.hasDiscriminant st).map Prod.fst

/-- Walks a range from a cursor on. -/
def run {σ : Type} (s : Scene) (v : Visitor σ) (depth : Nat) (o : Outline) (c : Cursor)
    (st : σ) : Outcome σ :=
  (range s v (variant s v depth) false o c false st).map Prod.fst

/-- Walks the first node of a range, and returns where the cursor ends up. -/
def step {σ : Type} (s : Scene) (v : Visitor σ) (depth : Nat) (o : Outline) (c : Cursor)
    (aligned : Bool) (st : σ) : Outcome (σ × Cursor) :=
  range s v (variant s v depth) true o c aligned st

/-- Walks every element of a run of the given element outline. -/
def spanElements {σ : Type} (s : Scene) (v : Visitor σ) (depth : Nat) (inner : Outline)
    (span : Span) (st : σ) : Outcome σ :=
  elements v span (fun c st => (step s v depth inner c false st).map Prod.fst)
    (span.elementBound span.start) span.start st

end Walk

end ShapeCode
