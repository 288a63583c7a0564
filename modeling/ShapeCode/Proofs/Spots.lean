import ShapeCode.Walk

set_option autoImplicit false

/-!
# Where a walk looks at nodes

A walk mixes two things: where it finds nodes, which depends on layouts and memory, and
what its visitor does there.  `Walk.spots` and `Scene.inside` are the first alone: the
spots of a range, and the spots stored inline inside a spot.  A spot is visited if it is
reached from the root range by these two (`Scene.Visited`).

For every visitor a walk over a range is the visits of its spots in order
(`range_eq_visitAll`), and the visit of a spot is the visits of the spots inside it, between
`enter` and `leave` (`visitSpot_of_enter`).  The second holds for nodes that store their
contents inline; the contents of a pointer, a vector or a slice lie elsewhere.
-/

namespace ShapeCode

/-- A node where a walk looks at it, and its layout. -/
structure Spot where
  node : Node
  inner : Outline
  cursor : Cursor
  layout : Layout

/-- How many unions a walk may enter inside the spot, if it may enter
`depth` from there on. -/
def Spot.below (x : Spot) (depth : Nat) : Nat :=
  match x.node with
  | .union _ => depth - 1
  | _ => depth

/-- Whether whatever a walk finds inside the node is stored in the node itself. -/
def Node.isInline : Node → Bool
  | .pointer _ _ | .run .vec _ _ | .run .unboxedVec _ _ | .run (.slice _) _ _ => false
  | _ => true

namespace Walk

/-! ## Spots -/

/-- The spots of a range, or of its first node if `single`, for a walk that
starts at a cursor. -/
def spots (t : Tables) :
    (single : Bool) → Outline → Cursor → (aligned : Bool) → Except Fault (List Spot)
  | single, .done, _, _ => if single then .error (.truncated 1 0) else .ok []
  | _, .broken f, _, _ => .error f
  | single, .cons node inner rest, c, aligned =>
    match node.layout t inner with
    | .error f => .error f
    | .ok l =>
      match place aligned l.align c with
      | .error f => .error f
      | .ok c =>
        if single then .ok [⟨node, inner, c, l⟩]
        else
          match spots t false rest (c.advance l.size) true with
          | .error f => .error f
          | .ok later => .ok (⟨node, inner, c, l⟩ :: later)

/-- The spots of elements of the given outline. -/
def elementSpots (t : Tables) (inner : Outline) : List Cursor → Except Fault (List Spot)
  | [] => .ok []
  | c :: rest =>
    match spots t true inner c false with
    | .error f => .error f
    | .ok elem =>
      match elementSpots t inner rest with
      | .error f => .error f
      | .ok later => .ok (elem ++ later)

end Walk

namespace Scene

/-- The spots of the fields of a variant of the union at a cursor. -/
def variantSpots (s : Scene) (id : UInt16) (selected : Nat) (c : Cursor) :
    Except Fault (List Spot) :=
  match s.tables.union id with
  | .error f => .error f
  | .ok u =>
    match u.variant selected with
    | .error f => .error f
    | .ok fields =>
      Walk.spots s.tables false (Outline.ofBytes fields)
        (if u.hasDiscriminant then c.advance Word.size else c) u.hasDiscriminant

/-- The spots stored inline inside a spot. -/
def inside (s : Scene) (x : Spot) : Except Fault (List Spot) :=
  match x.node with
  | .record _ | .resource _ _ => Walk.spots s.tables false x.inner x.cursor false
  | .union id =>
    match s.tables.union id with
    | .error f => .error f
    | .ok u =>
      match s.discriminants u x.cursor with
      | [] => .ok []
      | selected :: _ => s.variantSpots id selected x.cursor
  | .run (.fixedVec count) plain elem =>
    match Span.resolve s.tables s.mem (.fixedVec count) plain elem x.inner x.cursor with
    | .error f => .error f
    | .ok span => Walk.elementSpots s.tables x.inner span.elements
  | .scalar _ | .handle _ | .pointer _ _ | .run _ _ _ => .ok []

/-- The spots that a walk over a range from a cursor on comes to without leaving what
is stored inline. -/
inductive Visited (s : Scene) (o : Outline) (c : Cursor) : Spot → Prop where
  | root {xs : List Spot} {x : Spot} (h : Walk.spots s.tables false o c false = .ok xs)
      (hx : x ∈ xs) : s.Visited o c x
  | inside {x y : Spot} {ys : List Spot} (h : s.Visited o c x) (hys : s.inside x = .ok ys)
      (hy : y ∈ ys) : s.Visited o c y

end Scene

/-! ## Walks as visits of spots -/

namespace Walk

section Visits

variable {σ : Type} (s : Scene) (v : Visitor σ)

/-- Lets a visitor look at a spot, and inside it. -/
def visitSpot (depth : Nat) (x : Spot) (st : σ) : Outcome σ :=
  visit s v (variant s v depth)
    (fun c st => (range s v (variant s v depth) true x.inner c false st).map Prod.fst)
    (fun c st => (range s v (variant s v depth) false x.inner c false st).map Prod.fst)
    x.node x.inner x.cursor st

/-- Lets a visitor look at spots in order. -/
def visitAll (depth : Nat) : List Spot → σ → Outcome σ
  | [], st => .ok st
  | x :: rest, st =>
    match visitSpot s v depth x st with
    | .error h => .error h
    | .ok st => visitAll depth rest st

variable {s v} {depth : Nat}

theorem visitSpot_of_not_attends {x : Spot} {st : σ} (h : v.attends st = false) :
    visitSpot s v depth x st = .ok st := by
  simp [visitSpot, visit, h]

/-- A visitor that stopped attending passes everything by. -/
theorem visitAll_of_not_attends {xs : List Spot} {st : σ} (h : v.attends st = false) :
    visitAll s v depth xs st = .ok st := by
  induction xs with
  | nil => rfl
  | cons x rest ih =>
    simp only [visitAll, visitSpot_of_not_attends h]
    exact ih

theorem visitAll_append {xs ys : List Spot} {st : σ} :
    visitAll s v depth (xs ++ ys) st =
        (visitAll s v depth xs st).bind (visitAll s v depth ys) := by
  induction xs generalizing st with
  | nil => rfl
  | cons x rest ih =>
    simp only [List.cons_append, visitAll]
    cases visitSpot s v depth x st with
    | error h => rfl
    | ok st => exact ih

/-- A walk over a range visits its spots in order. -/
theorem range_eq_visitAll {single : Bool} {o : Outline} {c : Cursor} {aligned : Bool}
    {xs : List Spot} (h : spots s.tables single o c aligned = .ok xs) (st : σ) :
    (range s v (variant s v depth) single o c aligned st).map Prod.fst =
        visitAll s v depth xs st := by
  induction o generalizing single c aligned xs st with
  | done =>
    cases single with
    | true => cases h
    | false =>
      obtain rfl := Except.ok.inj h
      rfl
  | broken f => cases h
  | cons node inner rest ihi ihr =>
    simp only [spots] at h
    split at h
    · cases h
    · rename_i l hl
      split at h
      · cases h
      · rename_i c' hplace
        -- What the walk does at the node is the visit of the first spot.
        have hvisit : ∀ st, visit s v (variant s v depth)
            (fun c st => (range s v (variant s v depth) true inner c false st).map Prod.fst)
            (fun c st =>
              (range s v (variant s v depth) false inner c false st).map Prod.fst)
            node inner c' st = visitSpot s v depth ⟨node, inner, c', l⟩ st :=
              fun _ => rfl
        simp only [range, hl, hplace, hvisit]
        cases single with
        | true =>
          obtain rfl := Except.ok.inj h
          simp only [visitAll]
          cases visitSpot s v depth ⟨node, inner, c', l⟩ st with
          | error h => rfl
          | ok st => rfl
        | false =>
          simp only [Bool.false_eq_true, if_false] at h ⊢
          split at h
          · cases h
          · rename_i later hlater
            obtain rfl := Except.ok.inj h
            simp only [visitAll]
            cases visitSpot s v depth ⟨node, inner, c', l⟩ st with
            | error h => rfl
            | ok st => exact ihr hlater st

/-- A walk over the fields of a variant visits their spots in order. -/
theorem variant_eq_visitAll {id : UInt16} {selected : Nat} {c : Cursor} {xs : List Spot}
    (h : s.variantSpots id selected c = .ok xs) (st : σ) :
    variant s v (depth + 1) id selected c st = visitAll s v depth xs st := by
  unfold Scene.variantSpots at h
  unfold variant
  cases hu : s.tables.union id with
  | error f =>
    rw [hu] at h
    cases h
  | ok u =>
    simp only [hu] at h ⊢
    cases hfields : u.variant selected with
    | error f =>
      rw [hfields] at h
      cases h
    | ok fields =>
      simp only [hfields] at h ⊢
      exact range_eq_visitAll h st

/-- A walk over elements visits their spots in order, and passes the rest by once
the visitor stops. -/
theorem elements_eq_visitAll {span : Span} {inner : Outline} {bound : Nat} {c : Cursor}
    {xs : List Spot} (h : elementSpots s.tables inner (span.elementsFrom bound c) = .ok xs)
    (st : σ) :
    elements v span (fun c st =>
        (range s v (variant s v depth) true inner c false st).map Prod.fst)
      bound c st = visitAll s v depth xs st := by
  induction bound generalizing c xs st with
  | zero =>
    obtain rfl := Except.ok.inj h
    rfl
  | succ bound ih =>
    simp only [Span.elementsFrom] at h
    simp only [elements]
    by_cases hattends : v.attends st = true
    · by_cases helem : span.hasElement c = true
      · rw [if_pos helem] at h
        simp only [elementSpots] at h
        split at h
        · cases h
        · rename_i elem helemSpots
          split at h
          · cases h
          · rename_i later hlater
            obtain rfl := Except.ok.inj h
            simp only [helem, hattends, Bool.and_self, if_true,
              range_eq_visitAll helemSpots st, visitAll_append]
            cases visitAll s v depth elem st with
            | error h => rfl
            | ok st => exact ih hlater st
      · rw [if_neg helem] at h
        obtain rfl := Except.ok.inj h
        simp [helem, visitAll]
    · have hstop : v.attends st = false := Bool.eq_false_iff.2 hattends
      simp only [hstop, Bool.and_false, Bool.false_eq_true, if_false]
      exact (visitAll_of_not_attends hstop).symm

/-- Going inside a node that stores its contents inline visits the spots there. -/
theorem inside_eq_visitAll {x : Spot} {content : Content} {xs : List Spot}
    (hinline : x.node.isInline = true)
    (hcontent : s.content x.node x.inner x.cursor = .ok content) (hxs : s.inside x = .ok xs)
    (hdepth : ∀ id, x.node = .union id → 0 < depth) (st : σ) :
    inside s v (variant s v depth)
      (fun c st => (range s v (variant s v depth) true x.inner c false st).map Prod.fst)
      (fun c st => (range s v (variant s v depth) false x.inner c false st).map Prod.fst)
      x.node x.inner content x.cursor st = visitAll s v (x.below depth) xs st := by
  obtain ⟨node, inner, c, l⟩ := x
  simp only [Scene.inside] at hxs
  cases node with
  | scalar | handle =>
    obtain rfl := Except.ok.inj hxs
    rfl
  | record | resource => exact range_eq_visitAll hxs st
  | pointer => cases hinline
  | union id =>
    obtain ⟨k, rfl⟩ : ∃ k, depth = k + 1 :=
      ⟨depth - 1, by have := hdepth id rfl; omega⟩
    simp only [Scene.content] at hcontent
    cases hu : s.tables.union id with
    | error f =>
      rw [hu] at hcontent
      cases hcontent
    | ok u =>
      simp only [hu] at hcontent hxs
      obtain rfl := Except.ok.inj hcontent
      cases hd : s.discriminants u c with
      | nil =>
        rw [hd] at hxs
        obtain rfl := Except.ok.inj hxs
        rfl
      | cons selected more =>
        simp only [hd] at hxs
        exact variant_eq_visitAll hxs st
  | run form plain elem =>
    cases form with
    | vec | unboxedVec | slice => cases hinline
    | fixedVec count =>
      simp only [Scene.content] at hcontent
      simp only at hxs
      split at hcontent
      · cases hcontent
      · rename_i span hspan
        rw [hspan] at hxs
        obtain rfl := Except.ok.inj hcontent
        exact elements_eq_visitAll hxs st

/-- A visitor that goes inside a node visits the spots there, and leaves. -/
theorem visitSpot_of_enter {x : Spot} {content : Content} {xs : List Spot} {st st' : σ}
    (hattends : v.attends st = true) (hinline : x.node.isInline = true)
    (hcontent : s.content x.node x.inner x.cursor = .ok content) (hxs : s.inside x = .ok xs)
    (hdepth : ∀ id, x.node = .union id → 0 < depth)
    (henter : v.enter x.node x.cursor content st = (st', true)) :
    visitSpot s v depth x st =
        (visitAll s v (x.below depth) xs st').map (v.leave x.node content) := by
  unfold visitSpot visit
  simp only [hattends, if_true, hcontent, henter,
    inside_eq_visitAll hinline hcontent hxs hdepth st']
  cases visitAll s v (x.below depth) xs st' with
  | error h => rfl
  | ok st => rfl

end Visits

end Walk

end ShapeCode
