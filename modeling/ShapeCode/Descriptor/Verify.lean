import ShapeCode.Descriptor
import ShapeCode.Outline

set_option autoImplicit false

/-!
# Verifying descriptors

A range is accepted if it is nodes from end to end, with every id inside its table,
every nested range accepted, and one node in every nested range that stands for one
value.  A descriptor is accepted if the hints of its unions name existing variants, its
root range is accepted and holds one node, the fields of every variant are accepted, and
no union contains itself inline.

Offsets are counted from the start of the outermost range, at every depth.  Of several flaws
the first in the order above is reported, and within a range the first from the front.
-/

namespace ShapeCode.Verify

/-! ## Ranges -/

/-- A flaw and where it is. -/
structure Defect where
  offset : Nat
  flaw : Flaw
  deriving DecidableEq, Repr, Inhabited

/-- The next `n` bytes, which start at `offset`. -/
def operand (n offset : Nat) (bs : Bytes) : Except Defect (Bytes × Bytes) :=
  match Bytes.split? n bs with
  | some cut => .ok cut
  | none => .error ⟨offset, .pastEnd⟩

/-- What a node is besides its kind byte: nothing more than was read, or a nested range
behind a length that stands at `lengthOffset`. -/
inductive Frame where
  | leaf (next : Nat) (rest : Bytes)
  | nest (single : Bool) (lengthOffset : Nat) (inner rest : Bytes)
  deriving DecidableEq, Repr, Inhabited

/-- The bytes a frame has not looked into: its nested range and what follows it. -/
def Frame.left : Frame → Nat
  | .leaf _ rest => rest.length
  | .nest _ _ inner rest => inner.length + rest.length

/-- A nested range behind `flags` flag bytes. -/
def nest (single : Bool) (flags offset : Nat) (bs : Bytes) : Except Defect Frame :=
  match operand flags offset bs with
  | .error d => .error d
  | .ok (_, bs) =>
    match operand 2 (offset + flags) bs with
    | .error d => .error d
    | .ok (length, bs) =>
      match operand (Bytes.toNat length) (offset + flags + 2) bs with
      | .error d => .error d
      | .ok (inner, rest) => .ok (.nest single (offset + flags) inner rest)

/-- An id that must be below `count`. -/
def idBelow (count : Nat) (flaw : Flaw) (offset : Nat) (bs : Bytes) : Except Defect Bytes :=
  match operand 2 offset bs with
  | .error d => .error d
  | .ok (id, rest) => if Bytes.toNat id < count then .ok rest else .error ⟨offset, flaw⟩

/-- The operands of a node of the given kind, which start at `offset`. -/
def frame (tables : Tables) (k : Kind) (offset : Nat) (bs : Bytes) : Except Defect Frame :=
  match k with
  | .union =>
    match idBelow tables.unions.size .unionId offset bs with
    | .error d => .error d
    | .ok rest => .ok (.leaf (offset + 2) rest)
  | .resource =>
    match idBelow tables.resources.size .resourceId offset bs with
    | .error d => .error d
    | .ok rest => nest false 0 (offset + 2) rest
  | .fixedVec =>
    match operand 2 offset bs with
    | .error d => .error d
    | .ok (_, rest) => nest true 1 (offset + 2) rest
  | .vec | .unboxedVec => nest true 1 offset bs
  | .slice => nest true 2 offset bs
  | .record => nest false 0 offset bs
  | .box | .uniq | .borrow => nest true 0 offset bs
  | .scalar _ | .callable _ | .object | .traitObject | .typeDescriptor =>
    .ok (.leaf offset bs)

theorem length_operand {n offset : Nat} {bs head rest : Bytes}
    (h : operand n offset bs = .ok (head, rest)) :
    bs.length = head.length + rest.length := by
  unfold operand at h
  split at h
  · rename_i cut hcut
    obtain rfl := Except.ok.inj h
    rw [(Bytes.split?_eq_some_iff.1 hcut).1, List.length_append]
  · cases h

theorem left_nest {single : Bool} {flags offset : Nat} {bs : Bytes} {fr : Frame}
    (h : nest single flags offset bs = .ok fr) : fr.left ≤ bs.length := by
  unfold nest at h
  split at h
  · cases h
  · rename_i h1
    split at h
    · cases h
    · rename_i h2
      split at h
      · cases h
      · rename_i h3
        obtain rfl := Except.ok.inj h
        have := length_operand h1
        have := length_operand h2
        have := length_operand h3
        simp only [Frame.left]
        omega

theorem length_idBelow {count offset : Nat} {flaw : Flaw} {bs rest : Bytes}
    (h : idBelow count flaw offset bs = .ok rest) : rest.length ≤ bs.length := by
  unfold idBelow at h
  split at h
  · cases h
  · rename_i h1
    split at h
    · obtain rfl := Except.ok.inj h
      have := length_operand h1
      omega
    · cases h

/-- A frame holds no more than the bytes it was read from. -/
theorem left_frame {tables : Tables} {k : Kind} {offset : Nat} {bs : Bytes} {fr : Frame}
    (h : frame tables k offset bs = .ok fr) : fr.left ≤ bs.length := by
  cases k with
  | union =>
    simp only [frame] at h
    split at h
    · cases h
    · rename_i h1
      obtain rfl := Except.ok.inj h
      exact length_idBelow h1
  | resource =>
    simp only [frame] at h
    split at h
    · cases h
    · rename_i h1
      exact Nat.le_trans (left_nest h) (length_idBelow h1)
  | fixedVec =>
    simp only [frame] at h
    split at h
    · cases h
    · rename_i h1
      have := left_nest h
      have := length_operand h1
      omega
  | vec | unboxedVec | slice | record | box | uniq | borrow =>
    simp only [frame] at h
    exact left_nest h
  | _ =>
    obtain rfl := Except.ok.inj h
    exact Nat.le_refl _

/-- How many nodes a range holds, if it is accepted.  The range starts at `offset`, and
`count` nodes came before it. -/
def range (tables : Tables) (bs : Bytes) (offset count : Nat) : Except Defect Nat :=
  match bs with
  | [] => .ok count
  | b :: operands =>
    match Kind.ofByte? b with
    | none => .error ⟨offset, .unknownKind⟩
    | some k =>
      match _ : frame tables k (offset + 1) operands with
      | .error d => .error d
      | .ok (.leaf next rest) => range tables rest next (count + 1)
      | .ok (.nest single lengthOffset inner rest) =>
        match range tables inner (lengthOffset + 2) 0 with
        | .error d => .error d
        | .ok nodes =>
          if single && nodes != 1 then .error ⟨lengthOffset, .notSingle⟩
          else range tables rest (lengthOffset + 2 + inner.length) (count + 1)
termination_by bs.length
decreasing_by
  all_goals
    have := left_frame ‹frame tables k (offset + 1) operands = .ok _›
    simp only [Frame.left, List.length_cons] at this ⊢
    omega

/-! ## Unions held inline -/

/-- The unions stored inline in a range, put before `found`, which is kept newest first:
through records, resources and fixed vectors, but not behind pointers or vector headers. -/
def inlineUnions : Outline → (found : List UInt16) → Except Fault (List UInt16)
  | .done, found => .ok found
  | .broken f, _ => .error f
  | .cons node inner rest, found =>
    let inside : Except Fault (List UInt16) :=
      match node with
      | .union id => .ok (id :: found)
      | .record _ | .resource _ _ | .run (.fixedVec _) _ _ => inlineUnions inner found
      | _ => .ok found
    match inside with
    | .error f => .error f
    | .ok found => inlineUnions rest found

/-- The unions stored inline in any of the given ranges, put before `found`. -/
def inlineUnionsOfAll : List Bytes → (found : List UInt16) → Except Fault (List UInt16)
  | [], found => .ok found
  | fields :: rest, found =>
    match inlineUnions (Outline.ofBytes fields) found with
    | .error f => .error f
    | .ok found => inlineUnionsOfAll rest found

/-- The unions stored inline in the variants of a union, in order. -/
def heldBy (u : Union) : Except Fault (List UInt16) :=
  match inlineUnionsOfAll u.variants.toList [] with
  | .error f => .error f
  | .ok found => .ok found.reverse

/-- How far the search for a cycle got with a union. -/
inductive Mark where
  | unseen
  /-- Being searched: the union holds the one searched now. -/
  | entered
  | finished
  deriving DecidableEq, Repr, Inhabited

/-- Searches the given unions in order, given how to search one that is unseen. -/
def searchAll (search : Nat → Array Mark → Except Failure (Array Mark)) :
    List UInt16 → Array Mark → Except Failure (Array Mark)
  | [], marks => .ok marks
  | id :: rest, marks =>
    match marks[id.toNat]? with
    | none => .error (.fault (.indexOutOfBounds marks.size id.toNat))
    | some .entered => .error (.refused (.selfContaining id))
    | some .finished => searchAll search rest marks
    | some .unseen =>
      match search id.toNat marks with
      | .error e => .error e
      | .ok marks => searchAll search rest marks

/-- Searches what a union holds, to any depth: at most `depth` more unions are unseen. -/
def search (held : Array (List UInt16)) : (depth : Nat) → (id : Nat) → Array Mark →
    Except Failure (Array Mark)
  | 0, _, marks => .ok marks
  | depth + 1, id, marks =>
    match searchAll (search held depth) (held.getD id []) (marks.setIfInBounds id .entered)
      with
    | .error e => .error e
    | .ok marks => .ok (marks.setIfInBounds id .finished)

/-- Searches every union of a table that is still unseen, in order. -/
def searchFrom (held : Array (List UInt16)) :
    List Nat → Array Mark → Except Failure Unit
  | [], _ => .ok ()
  | id :: rest, marks =>
    if marks.getD id .finished = .unseen then
      match search held held.size id marks with
      | .error e => .error e
      | .ok marks => searchFrom held rest marks
    else searchFrom held rest marks

/-- What every union of a table holds inline. -/
def heldByAll (tables : Tables) : Except Fault (List (List UInt16)) :=
  tables.unions.toList.mapM heldBy

/-- Refuses a table with a union that contains itself inline. -/
def acyclic (tables : Tables) : Except Failure Unit :=
  match heldByAll tables with
  | .error f => .error (.fault f)
  | .ok held =>
    searchFrom held.toArray (List.range held.length) (Array.replicate held.length .unseen)

/-! ## Descriptors -/

/-- Refuses a union whose hint is out of range, or missing. -/
def hint (id : Nat) (u : Union) : Except LoadError Unit :=
  match u.badHint? with
  | some v => .error (.hintOutOfRange (UInt16.ofNat id) v (UInt16.ofNat u.variants.size))
  | none => if u.lacksHint then .error (.hintEmpty (UInt16.ofNat id)) else .ok ()

/-- Refuses the first union in order whose hint is refused. -/
def hints : (id : Nat) → List Union → Except LoadError Unit
  | _, [] => .ok ()
  | id, u :: rest =>
    match hint id u with
    | .error e => .error e
    | .ok () => hints (id + 1) rest

/-- The number of nodes of a range of a descriptor. -/
def rangeAt (tables : Tables) (place : Place) (bs : Bytes) : Except LoadError Nat :=
  match range tables bs 0 0 with
  | .error d => .error (.malformed place d.offset d.flaw)
  | .ok nodes => .ok nodes

/-- Refuses a root range that is not one node. -/
def root (d : Descriptor) : Except LoadError Unit :=
  match rangeAt d.tables .root d.shape with
  | .error e => .error e
  | .ok nodes => if nodes = 1 then .ok () else .error (.malformed .root 0 .rootNotSingle)

/-- Refuses the first variant in order whose fields are refused. -/
def variants (tables : Tables) (id : Nat) :
    (variant : Nat) → List Bytes → Except LoadError Unit
  | _, [] => .ok ()
  | v, fields :: rest =>
    match rangeAt tables (.variant id v) fields with
    | .error e => .error e
    | .ok _ => variants tables id (v + 1) rest

/-- Refuses the first union in order with a variant that is refused. -/
def unions (tables : Tables) : (id : Nat) → List Union → Except LoadError Unit
  | _, [] => .ok ()
  | id, u :: rest =>
    match variants tables id 0 u.variants.toList with
    | .error e => .error e
    | .ok () => unions tables (id + 1) rest

/-- Refuses a descriptor whose ranges or hints are not well formed. -/
def ranges (d : Descriptor) : Except LoadError Unit :=
  match hints 0 d.tables.unions.toList with
  | .error e => .error e
  | .ok () =>
    match root d with
    | .error e => .error e
    | .ok () => unions d.tables 0 d.tables.unions.toList

end ShapeCode.Verify

namespace ShapeCode

/-- Refuses a descriptor that is not well formed. -/
def Descriptor.verify (d : Descriptor) : Except Failure Unit :=
  match Verify.ranges d with
  | .error e => .error (.refused e)
  | .ok () => Verify.acyclic d.tables

end ShapeCode
