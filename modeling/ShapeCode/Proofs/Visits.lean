import ShapeCode.Proofs.Acyclic
import ShapeCode.Proofs.Spots

set_option autoImplicit false

/-!
# Walks that come to their end

The spots under a spot are those stored inside it, at any depth (`Scene.Under`).  A walk
goes from a spot to the spots directly inside it, into smaller ranges or into a variant
with less depth left, and that is the induction behind every statement about all of them
(`Walk.visit_induction`).

A visitor is thorough if nothing but losing interest keeps it out of what is stored
inline.  Once its walk has come to an end with the interest still there, every spot
under the visited ones could be gone into (`goes_of_visitSpot`).  The visitor that never
loses interest and records every node is the walk itself: what it records is what is
visited (`mem_inlineVisits_iff`).
-/

namespace ShapeCode

namespace Scene

/-- A spot is stored inside another, directly or deeper, or is the same. -/
def Under (s : Scene) : Spot → Spot → Prop :=
  Relation.ReflTransGen fun x y => ∃ ys, s.inside x = .ok ys ∧ y ∈ ys

/-- Every spot under a spot can be gone into. -/
def Goes (s : Scene) (x : Spot) : Prop := ∀ y, s.Under x y → ∃ ys, s.inside y = .ok ys

variable {s : Scene} {o : Outline} {c : Cursor} {x y : Spot}

theorem visited_iff :
    s.Visited o c y ↔ ∃ xs, Walk.spots s.tables false o c false = .ok xs ∧
      ∃ x ∈ xs, s.Under x y := by
  constructor
  · intro h
    induction h with
    | @root xs x hxs hx => exact ⟨xs, hxs, x, hx, .refl⟩
    | @inside x y ys _ hys hy ih =>
      obtain ⟨xs, hxs, root, hroot, hunder⟩ := ih
      exact ⟨xs, hxs, root, hroot, hunder.tail ⟨ys, hys, hy⟩⟩
  · rintro ⟨xs, hxs, x, hx, hunder⟩
    induction hunder with
    | refl => exact .root hxs hx
    | tail _ hstep ih =>
      obtain ⟨ys, hys, hy⟩ := hstep
      exact .inside ih hys hy

/-- What is under a spot is the spot, or under a spot directly inside it. -/
theorem under_iff :
    s.Under x y ↔
      y = x ∨ ∃ ys, s.inside x = .ok ys ∧ ∃ z ∈ ys, s.Under z y := by
  unfold Under
  rw [Relation.ReflTransGen.cases_head_iff]
  constructor
  · rintro (h | ⟨z, ⟨ys, hys, hz⟩, hunder⟩)
    · exact .inl h.symm
    · exact .inr ⟨ys, hys, z, hz, hunder⟩
  · rintro (h | ⟨ys, hys, z, hz, hunder⟩)
    · exact .inl h.symm
    · exact .inr ⟨z, ⟨ys, hys, hz⟩, hunder⟩

theorem goes_iff : s.Goes x ↔ ∃ ys, s.inside x = .ok ys ∧ ∀ y ∈ ys, s.Goes y := by
  constructor
  · intro h
    obtain ⟨ys, hys⟩ := h x .refl
    refine ⟨ys, hys, fun y hy z hz => h z ?_⟩
    exact under_iff.2 (.inr ⟨ys, hys, y, hy, hz⟩)
  · rintro ⟨ys, hys, hall⟩ z hz
    rcases under_iff.1 hz with rfl | ⟨ys', hys', y, hy, hunder⟩
    · exact ⟨ys, hys⟩
    · obtain rfl := Except.ok.inj (hys'.symm.trans hys)
      exact hall y hy z hunder

/-- Nothing is inside a node whose contents lie elsewhere. -/
theorem inside_of_not_isInline (h : x.node.isInline = false) : s.inside x = .ok [] := by
  obtain ⟨node, inner, c, l⟩ := x
  cases node with
  | scalar | handle | record | resource | union => cases h
  | pointer => rfl
  | run form =>
    cases form with
    | fixedVec => cases h
    | vec | unboxedVec | slice => rfl

end Scene

/-! ## Induction over a walk -/

/-- A range has a node with the given nested range. -/
def Outline.Has : Outline → Node → Outline → Prop
  | .done, _, _ | .broken _, _, _ => False
  | .cons n i rest, node, inner => (n = node ∧ i = inner) ∨ rest.Has node inner

theorem Outline.Has.sizeOf_lt {node : Node} {inner o : Outline} (h : o.Has node inner) :
    sizeOf inner < sizeOf o := by
  induction o with
  | done => exact False.elim h
  | broken f => exact False.elim h
  | cons n i rest _ ih =>
    simp only [Outline.cons.sizeOf_spec]
    rcases h with ⟨-, rfl⟩ | h
    · omega
    · have := ih h
      omega

theorem Outline.Has.stores {node : Node} {inner o : Outline} (h : o.Has node inner)
    {id : UInt16}
    (hid : node = .union id ∨ (node.storesInline = true ∧ inner.Stores id)) :
    o.Stores id := by
  induction o with
  | done => exact False.elim h
  | broken f => exact False.elim h
  | cons n i rest _ ih =>
    rcases h with ⟨rfl, rfl⟩ | h
    · exact hid.elim .inl fun hin => .inr (.inl hin)
    · exact .inr (.inr (ih h))

namespace Walk

variable {s : Scene} {t : Tables}

/-- The spots of a range are at its nodes. -/
theorem has_of_spots {single : Bool} {o : Outline} {c : Cursor} {aligned : Bool}
    {xs : List Spot} (h : spots t single o c aligned = .ok xs) :
    ∀ x ∈ xs, o.Has x.node x.inner := by
  induction o generalizing single c aligned xs with
  | done =>
    cases single with
    | true => cases h
    | false =>
      obtain rfl := Except.ok.inj h
      simp
  | broken f => cases h
  | cons node inner rest _ ih =>
    simp only [spots] at h
    split at h
    · cases h
    · rename_i l hl
      split at h
      · cases h
      · rename_i c' hplace
        cases single with
        | true =>
          obtain rfl := Except.ok.inj h
          simp [Outline.Has]
        | false =>
          simp only [Bool.false_eq_true, if_false] at h
          split at h
          · cases h
          · rename_i later hlater
            obtain rfl := Except.ok.inj h
            rw [List.forall_mem_cons]
            exact ⟨.inl ⟨rfl, rfl⟩, fun x hx => .inr (ih hlater x hx)⟩

/-- The spots of elements are at the nodes of the element range. -/
theorem has_of_elementSpots {inner : Outline} {cs : List Cursor} {xs : List Spot}
    (h : elementSpots t inner cs = .ok xs) : ∀ x ∈ xs, inner.Has x.node x.inner := by
  induction cs generalizing xs with
  | nil =>
    obtain rfl := Except.ok.inj h
    simp
  | cons c rest ih =>
    simp only [elementSpots] at h
    split at h
    · cases h
    · rename_i elem helem
      split at h
      · cases h
      · rename_i later hlater
        obtain rfl := Except.ok.inj h
        rw [List.forall_mem_append]
        exact ⟨has_of_spots helem, ih hlater⟩

end Walk

namespace Scene

variable {s : Scene} {x : Spot} {ys : List Spot}

theorem variantSpots_eq_ok {id : UInt16} {selected : Nat} {c : Cursor}
    (h : s.variantSpots id selected c = .ok ys) :
    ∃ u fields, s.tables.union id = .ok u ∧ u.variant selected = .ok fields ∧
      Walk.spots s.tables false (Outline.ofBytes fields)
        (if u.hasDiscriminant then c.advance Word.size
          else c) u.hasDiscriminant = .ok ys := by
  unfold variantSpots at h
  split at h
  · cases h
  · rename_i u hu
    split at h
    · cases h
    · rename_i fields hfields
      exact ⟨u, fields, hu, hfields, h⟩

/-- What is inside a spot is at the nodes of its nested range, or at those of a variant. -/
theorem has_of_inside (h : s.inside x = .ok ys) :
    (∀ y ∈ ys, x.node.storesInline = true ∧ x.inner.Has y.node y.inner) ∨
      ∃ id u v fields, x.node = .union id ∧ s.tables.union id = .ok u ∧
        u.variant v = .ok fields ∧
        ∀ y ∈ ys, (Outline.ofBytes fields).Has y.node y.inner := by
  obtain ⟨node, inner, c, l⟩ := x
  cases node with
  | scalar | handle | pointer =>
    obtain rfl := Except.ok.inj h
    simp
  | record | resource => exact .inl fun y hy => ⟨rfl, Walk.has_of_spots h y hy⟩
  | union id =>
    simp only [inside] at h
    split at h
    · cases h
    · rename_i u hu
      split at h
      · obtain rfl := Except.ok.inj h
        simp
      · rename_i selected more _
        obtain ⟨u', fields, hu', hfields, hspots⟩ := variantSpots_eq_ok h
        exact .inr ⟨id, u', selected, fields, rfl, hu', hfields,
          Walk.has_of_spots hspots⟩
  | run form =>
    cases form with
    | vec | unboxedVec | slice =>
      obtain rfl := Except.ok.inj h
      simp
    | fixedVec count =>
      simp only [inside] at h
      split at h
      · cases h
      · exact .inl fun y hy => ⟨rfl, Walk.has_of_elementSpots h y hy⟩

end Scene

namespace Walk

variable {s : Scene}

/-- What a walk passes on from the spots inside a spot to the spot holds of every spot.
Inside a union there is less depth left, and otherwise the nested range is smaller. -/
theorem visit_induction {p : Nat → Spot → Prop}
    (step : ∀ depth x,
      (∀ ys, s.inside x = .ok ys → (∀ id, x.node = .union id → 0 < depth) →
        ∀ y ∈ ys, p (x.below depth) y) →
      p depth x)
    (depth : Nat) (x : Spot) : p depth x := by
  induction depth using Nat.strong_induction_on generalizing x with
  | _ depth ihd =>
    generalize hn : sizeOf x.inner = n
    induction n using Nat.strong_induction_on generalizing x with
    | _ n ihn =>
      apply step
      intro ys hys hdepth y hy
      rcases Scene.has_of_inside hys with hin | ⟨id, u, v, fields, hid, -, -, -⟩
      · obtain ⟨hstores, hhas⟩ := hin y hy
        have hbelow : x.below depth = depth := by
          unfold Spot.below
          split
          · rename_i id hid
            rw [hid] at hstores
            cases hstores
          · rfl
        rw [hbelow]
        exact ihn (sizeOf y.inner) (hn ▸ hhas.sizeOf_lt) y rfl
      · have hbelow : x.below depth = depth - 1 := by
          unfold Spot.below
          rw [hid]
        have hpos := hdepth id hid
        rw [hbelow]
        exact ihd (depth - 1) (by omega) y

end Walk

/-! ## Spots of sound ranges -/

/-- The ids of the spot lie inside the tables, and so do those of its nested range. -/
structure Spot.Sound (t : Tables) (x : Spot) : Prop where
  ids : x.node.IdsIn t
  single : x.node.holdsOne = true → x.inner.length = 1
  inner : x.inner.Sound t

theorem Outline.Sound.spot {t : Tables} {o : Outline} (ho : o.Sound t) {x : Spot}
    (hx : o.Has x.node x.inner) : x.Sound t := by
  induction o with
  | done => exact False.elim hx
  | broken f => exact False.elim hx
  | cons node inner rest _ ih =>
    obtain ⟨hids, hsingle, hinner, hrest⟩ := ho
    rcases hx with ⟨rfl, rfl⟩ | hx
    · exact ⟨hids, hsingle, hinner⟩
    · exact ih hrest hx

theorem Spot.Sound.inside {s : Scene} (ht : s.tables.Sound) {x : Spot}
    (hx : x.Sound s.tables) {ys : List Spot} (hys : s.inside x = .ok ys) :
    ∀ y ∈ ys, y.Sound s.tables := by
  intro y hy
  rcases Scene.has_of_inside hys with hin | ⟨id, u, v, fields, -, hu, hfields, hhas⟩
  · exact hx.inner.spot (hin y hy).2
  · exact (ht.of_union hu hfields).spot (hhas y hy)

/-! ## Nested ranges as bytes -/

/-- The nested outline of a node read from bytes is that of its nested bytes. -/
theorem Outline.Has.eq_ofBytes {bs : Bytes} {node : Node} {inner : Outline}
    (h : (ofBytes bs).Has node inner) : inner = ofBytes node.nested := by
  generalize hlen : bs.length = n
  induction n using Nat.strong_induction_on generalizing bs with
  | _ n ih =>
    by_cases hnil : bs = []
    · subst hnil
      rw [ofBytes_nil] at h
      exact False.elim h
    · cases hread : Node.read bs with
      | error f =>
        rw [ofBytes_of_fault hnil hread] at h
        exact False.elim h
      | ok r =>
        rw [ofBytes_of_read hread] at h
        rcases h with ⟨rfl, rfl⟩ | h
        · rfl
        · have hlt := Node.length_read hread
          exact ih r.2.length (by omega) h rfl

theorem Scene.inner_of_visited {s : Scene} {bs : Bytes} {c : Cursor} {x : Spot}
    (h : s.Visited (Outline.ofBytes bs) c x) : x.inner = Outline.ofBytes x.node.nested := by
  induction h with
  | @root xs x hxs hx => exact (Walk.has_of_spots hxs x hx).eq_ofBytes
  | @inside x y ys _ hys hy ih =>
    rcases has_of_inside hys with hin | ⟨id, u, v, fields, -, -, -, hhas⟩
    · have hhas := (hin y hy).2
      rw [ih] at hhas
      exact hhas.eq_ofBytes
    · exact (hhas y hy).eq_ofBytes

/-! ## Thorough visitors -/

/-- Only what makes the visitor lose interest keeps it out of a node that stores its
contents inline. -/
structure Visitor.Thorough {σ : Type} (v : Visitor σ) : Prop where
  enter : ∀ {node : Node} {c : Cursor} {content : Content} {st st' : σ},
    v.attends st = true →
    node.isInline = true →
    v.enter node c content st = (st', false) → v.attends st' = false
  leave : ∀ node content st, v.attends (v.leave node content st) = v.attends st

namespace Walk

variable {σ : Type} {s : Scene} {v : Visitor σ} {depth : Nat}

/-- A walk that gets through a range has spots to visit. -/
theorem spots_of_range {single : Bool} {o : Outline} {c : Cursor} {aligned : Bool}
    {st st' : σ}
    (h : (range s v (variant s v depth) single o c aligned st).map Prod.fst = .ok st') :
    ∃ xs, spots s.tables single o c aligned = .ok xs := by
  induction o generalizing single c aligned st with
  | done =>
    cases single with
    | true => cases h
    | false => exact ⟨[], rfl⟩
  | broken f => cases h
  | cons node inner rest _ ih =>
    simp only [range] at h
    split at h
    · cases h
    · rename_i l hl
      split at h
      · cases h
      · rename_i c' hplace
        simp only [spots, hl, hplace]
        split at h
        · cases h
        · cases single with
          | true => exact ⟨_, rfl⟩
          | false =>
            simp only [Bool.false_eq_true, if_false] at h ⊢
            obtain ⟨later, hlater⟩ := ih h
            rw [hlater]
            exact ⟨_, rfl⟩

/-- So has a walk that gets through the elements of a run and still attends. -/
theorem elementSpots_of_elements {span : Span} {inner : Outline} {bound : Nat} {c : Cursor}
    {st st' : σ}
    (h : elements v span
      (fun c st => (range s v (variant s v depth) true inner c false st).map Prod.fst)
      bound c st = .ok st')
    (hattends : v.attends st' = true) :
    ∃ xs, elementSpots s.tables inner (span.elementsFrom bound c) = .ok xs := by
  induction bound generalizing c st with
  | zero => exact ⟨[], rfl⟩
  | succ bound ih =>
    simp only [elements] at h
    simp only [Span.elementsFrom]
    by_cases helem : span.hasElement c = true
    · rw [if_pos helem]
      by_cases hst : v.attends st = true
      · simp only [helem, hst, Bool.and_self, if_true] at h
        split at h
        · cases h
        · rename_i st₁ hrange
          obtain ⟨elem, helemSpots⟩ := spots_of_range hrange
          obtain ⟨later, hlater⟩ := ih h
          simp only [elementSpots, helemSpots, hlater]
          exact ⟨_, rfl⟩
      · -- The walk would have stopped here, no longer attending.
        have hstop : v.attends st = false := Bool.eq_false_iff.2 hst
        simp only [hstop, Bool.and_false, Bool.false_eq_true, if_false] at h
        obtain rfl := Except.ok.inj h
        exact absurd hattends hst
    · rw [if_neg helem]
      exact ⟨[], rfl⟩

/-- And so has a walk that gets through the inside of a node. -/
theorem inside_of_walk {x : Spot} {content : Content} {st st' : σ}
    (hinline : x.node.isInline = true)
    (hcontent : s.content x.node x.inner x.cursor = .ok content)
    (h : inside s v (variant s v depth) (fun c st => (range s v (variant s v depth) true
      x.inner c false st).map Prod.fst) (fun c st => (range s v (variant s v depth) false
      x.inner c false st).map Prod.fst) x.node x.inner content x.cursor st = .ok st')
    (hattends : v.attends st' = true) : ∃ xs, s.inside x = .ok xs := by
  obtain ⟨node, inner, c, l⟩ := x
  cases node with
  | scalar | handle => exact ⟨[], rfl⟩
  | record | resource => exact spots_of_range h
  | pointer => cases hinline
  | union id =>
    simp only [Scene.content] at hcontent
    split at hcontent
    · cases hcontent
    · rename_i u hu
      obtain rfl := Except.ok.inj hcontent
      simp only [Scene.inside, hu]
      cases hd : s.discriminants u c with
      | nil => exact ⟨[], rfl⟩
      | cons selected more =>
        simp only [inside, hd] at h
        cases depth with
        | zero => cases h
        | succ k =>
          simp only [variant, hu] at h
          split at h
          · cases h
          · rename_i fields hfields
            simp only [Scene.variantSpots, hu, hfields]
            exact spots_of_range h
  | run form plain elem =>
    cases form with
    | vec | unboxedVec | slice => cases hinline
    | fixedVec count =>
      simp only [Scene.content] at hcontent
      split at hcontent
      · cases hcontent
      · rename_i span hspan
        simp only [Scene.inside, hspan]
        obtain rfl := Except.ok.inj hcontent
        exact elementSpots_of_elements h hattends

/-- A walk that gets through the inside of a node visits the spots there, in order. -/
theorem visitAll_of_walk {x : Spot} {content : Content} {xs : List Spot} {st st' : σ}
    (hinline : x.node.isInline = true)
    (hcontent : s.content x.node x.inner x.cursor = .ok content) (hxs : s.inside x = .ok xs)
    (h : inside s v (variant s v depth) (fun c st => (range s v (variant s v depth) true
      x.inner c false st).map Prod.fst) (fun c st => (range s v (variant s v depth) false
      x.inner c false st).map Prod.fst) x.node x.inner content x.cursor st = .ok st') :
    ((∀ id, x.node = .union id → 0 < depth) ∨ xs = []) ∧
      visitAll s v (x.below depth) xs st = .ok st' := by
  by_cases hdepth : ∀ id, x.node = .union id → 0 < depth
  · rw [inside_eq_visitAll hinline hcontent hxs hdepth] at h
    exact ⟨.inl hdepth, h⟩
  · -- Without depth the walk gets through a union only where no lane selects a variant.
    push Not at hdepth
    obtain ⟨id, hid, hzero⟩ := hdepth
    obtain rfl : depth = 0 := by omega
    simp only [hid, Scene.content] at hcontent
    simp only [Scene.inside, hid] at hxs
    split at hcontent
    · cases hcontent
    · rename_i u hu
      obtain rfl := Except.ok.inj hcontent
      rw [hu] at hxs
      cases hd : s.discriminants u x.cursor with
      | nil =>
        simp only [hd] at hxs
        obtain rfl := Except.ok.inj hxs
        simp only [hid, inside, hd] at h
        exact ⟨.inr rfl, h⟩
      | cons selected more =>
        simp only [hid, inside, hd] at h
        cases h

/-- If a thorough visitor still attends after a list of spots, it did so all the way. -/
theorem forall_of_visitAll {p : Spot → Prop} {xs : List Spot} {st st' : σ}
    (h : visitAll s v depth xs st = .ok st') (hattends : v.attends st' = true)
    (hp : ∀ x ∈ xs, ∀ st st', visitSpot s v depth x st = .ok st' →
      v.attends st' = true → v.attends st = true ∧ p x) :
    v.attends st = true ∧ ∀ x ∈ xs, p x := by
  induction xs generalizing st with
  | nil =>
    obtain rfl := Except.ok.inj h
    exact ⟨hattends, by simp⟩
  | cons x rest ih =>
    rw [List.forall_mem_cons] at hp ⊢
    simp only [visitAll] at h
    split at h
    · cases h
    · rename_i st₁ hvisit
      obtain ⟨hst₁, hrest⟩ := ih h hp.2
      obtain ⟨hst, hx⟩ := hp.1 _ _ hvisit hst₁
      exact ⟨hst, hx, hrest⟩

/-- After a thorough visitor's walk that ends with the visitor attending, the visitor
always attended and every spot under the visited one could be gone into. -/
theorem goes_of_visitSpot (hv : v.Thorough) {x : Spot} {st st' : σ}
    (h : visitSpot s v depth x st = .ok st') (hattends : v.attends st' = true) :
    v.attends st = true ∧ s.Goes x := by
  revert st st'
  refine visit_induction (s := s) (p := fun depth x =>
    ∀ {st st' : σ}, visitSpot s v depth x st = .ok st' →
    v.attends st' = true → v.attends st = true ∧ s.Goes x) ?_ depth x
  intro depth x ih st st' h hattends
  have hst : v.attends st = true := by
    cases hst : v.attends st with
    | true => rfl
    | false =>
      rw [visitSpot_of_not_attends hst] at h
      obtain rfl := Except.ok.inj h
      rw [← hst, hattends]
  refine ⟨hst, ?_⟩
  rw [Scene.goes_iff]
  cases hinline : x.node.isInline with
  | false => exact ⟨[], Scene.inside_of_not_isInline hinline, by simp⟩
  | true =>
    simp only [visitSpot, visit, hst, if_true] at h
    split at h
    · cases h
    · rename_i content hcontent
      split at h
      · rename_i st₁ henter
        obtain rfl := Except.ok.inj h
        rw [hv.enter hst hinline henter] at hattends
        cases hattends
      · rename_i st₁ henter
        split at h
        · cases h
        · rename_i st₂ hinside
          obtain rfl := Except.ok.inj h
          rw [hv.leave] at hattends
          obtain ⟨ys, hys⟩ := inside_of_walk hinline hcontent hinside hattends
          obtain ⟨hdepth, hall⟩ := visitAll_of_walk hinline hcontent hys hinside
          refine ⟨ys, hys, ?_⟩
          rcases hdepth with hdepth | rfl
          · exact (forall_of_visitAll hall hattends fun y hy _ _ => ih ys hys hdepth y hy).2
          · simp

end Walk

/-! ## Walks that get through -/

namespace Scene

/-- A walk gets through whatever is stored inline in a range. -/
structure Completes (s : Scene) (o : Outline) (c : Cursor) : Prop where
  root : ∃ xs, Walk.spots s.tables false o c false = .ok xs
  inside : ∀ x, s.Visited o c x → ∃ ys, s.inside x = .ok ys

variable {s : Scene} {o : Outline} {c : Cursor}

theorem Completes.goes (h : s.Completes o c) {x : Spot}
    (hx : s.Visited o c x) : s.Goes x := by
  intro y hy
  apply h.inside y
  obtain ⟨xs, hxs, root, hroot, hunder⟩ := visited_iff.1 hx
  exact visited_iff.2 ⟨xs, hxs, root, hroot, hunder.trans hy⟩

/-- A walk of a thorough visitor that ends with the visitor attending gets through. -/
theorem completes_of_run {σ : Type} {v : Visitor σ} (hv : v.Thorough) {depth : Nat}
    {st st' : σ} (h : Walk.run s v depth o c st = .ok st')
    (hattends : v.attends st' = true) : s.Completes o c := by
  obtain ⟨xs, hxs⟩ := Walk.spots_of_range h
  have hall : Walk.visitAll s v depth xs st = .ok st' :=
    (Walk.range_eq_visitAll hxs st).symm.trans h
  obtain ⟨-, hgoes⟩ :=
    Walk.forall_of_visitAll hall hattends fun x _ _ _ => Walk.goes_of_visitSpot hv
  refine ⟨⟨xs, hxs⟩, fun y hy => ?_⟩
  obtain ⟨ys, hys, x, hx, hunder⟩ := visited_iff.1 hy
  obtain rfl := Except.ok.inj (hys.symm.trans hxs)
  exact hgoes x hx y hunder

end Scene

theorem Walk.visitAll_of_forall {σ : Type} {s : Scene} {v : Visitor σ} {depth : Nat}
    {xs : List Spot} {st : σ} (h : ∀ x ∈ xs, visitSpot s v depth x st = .ok st) :
    visitAll s v depth xs st = .ok st := by
  induction xs with
  | nil => rfl
  | cons x rest ih =>
    rw [List.forall_mem_cons] at h
    simp only [visitAll, h.1]
    exact ih h.2

/-! ## What a walk visits inline -/

namespace Inline

/-- Records nodes and where they stand, newest first, and goes inside those that store
their contents inline. -/
def visitor : Visitor (List (Node × Cursor)) where
  attends _ := true
  enter node c _ seen := ((node, c) :: seen, node.isInline)
  leave _ _ seen := seen

theorem thorough : visitor.Thorough where
  enter := by
    intro node c content st st' _ hinline henter
    have hgoes : node.isInline = false := congrArg Prod.snd henter
    rw [hinline] at hgoes
    cases hgoes
  leave _ _ _ := rfl

end Inline

/-- The nodes that a walk over a range visits without leaving what is stored
inline, newest first. -/
def Scene.inlineVisits (s : Scene) (depth : Nat) (o : Outline) (c : Cursor) :
    Walk.Outcome (List (Node × Cursor)) :=
  Walk.run s Inline.visitor depth o c []

namespace Walk

variable {s : Scene} {depth : Nat}

theorem mem_visitAll {xs : List Spot} {seen seen' : List (Node × Cursor)}
    {p : Spot → Node × Cursor → Prop}
    (h : visitAll s Inline.visitor depth xs seen = .ok seen')
    (hp : ∀ x ∈ xs, ∀ seen seen', visitSpot s Inline.visitor depth x seen =
      .ok seen' → ∀ e, e ∈ seen' ↔ e ∈ seen ∨ p x e)
    (e : Node × Cursor) :
    e ∈ seen' ↔ e ∈ seen ∨ ∃ x ∈ xs, p x e := by
  induction xs generalizing seen with
  | nil =>
    obtain rfl := Except.ok.inj h
    simp
  | cons x rest ih =>
    rw [List.forall_mem_cons] at hp
    simp only [visitAll] at h
    split at h
    · cases h
    · rename_i seen₁ hvisit
      rw [ih h hp.2, hp.1 _ _ hvisit, or_assoc, List.exists_mem_cons_iff]

/-- The visits of a spot record the spots under it. -/
theorem mem_visitSpot {x : Spot} {seen seen' : List (Node × Cursor)}
    (h : visitSpot s Inline.visitor depth x seen = .ok seen') (e : Node × Cursor) :
    e ∈ seen' ↔ e ∈ seen ∨ ∃ y, s.Under x y ∧ (y.node, y.cursor) = e := by
  revert seen seen' e
  refine visit_induction (s := s) (p := fun depth x =>
    ∀ {seen seen' : List (Node × Cursor)},
    visitSpot s Inline.visitor depth x seen = .ok seen' → ∀ e : Node × Cursor,
      e ∈ seen' ↔
      e ∈ seen ∨ ∃ y, s.Under x y ∧ (y.node, y.cursor) = e) ?_ depth x
  intro depth x ih seen seen' h e
  -- The node itself is recorded first, and what is under it afterwards.
  have hself : ∀ ys, s.inside x = .ok ys →
      ((∃ y, s.Under x y ∧ (y.node, y.cursor) = e) ↔
      e = (x.node, x.cursor) ∨ ∃ y ∈ ys, ∃ z, s.Under y z ∧
      (z.node, z.cursor) = e) := by
    intro ys hys
    constructor
    · rintro ⟨y, hunder, rfl⟩
      rcases Scene.under_iff.1 hunder with rfl | ⟨ys', hys', z, hz, hunder⟩
      · exact .inl rfl
      · obtain rfl := Except.ok.inj (hys'.symm.trans hys)
        exact .inr ⟨z, hz, y, hunder, rfl⟩
    · rintro (rfl | ⟨y, hy, z, hunder, rfl⟩)
      · exact ⟨x, .refl, rfl⟩
      · exact ⟨z, Scene.under_iff.2 (.inr ⟨ys, hys, y, hy, hunder⟩), rfl⟩
  simp only [visitSpot, visit, Inline.visitor, if_true] at h
  split at h
  · cases h
  · rename_i content hcontent
    cases hinline : x.node.isInline with
    | false =>
      simp only [hinline] at h
      obtain rfl := Except.ok.inj h
      rw [hself [] (Scene.inside_of_not_isInline hinline)]
      simp [or_comm]
    | true =>
      simp only [hinline] at h
      split at h
      · cases h
      · rename_i seen₁ hinside
        obtain rfl := Except.ok.inj h
        obtain ⟨ys, hys⟩ := inside_of_walk hinline hcontent hinside rfl
        obtain ⟨hdepth, hall⟩ := visitAll_of_walk hinline hcontent hys hinside
        rw [hself ys hys]
        rcases hdepth with hdepth | rfl
        · rw [mem_visitAll hall fun y hy _ _ => ih ys hys hdepth y hy,
            List.mem_cons, or_assoc, or_left_comm]
        · obtain rfl := Except.ok.inj hall
          simp [or_comm]

/-- What a walk visits inline are the visited spots. -/
theorem mem_inlineVisits_iff {o : Outline} {c : Cursor} {seen : List (Node × Cursor)}
    (h : s.inlineVisits depth o c = .ok seen) (node : Node) (cursor : Cursor) :
    (node, cursor) ∈ seen ↔
      ∃ x, s.Visited o c x ∧ x.node = node ∧ x.cursor = cursor := by
  obtain ⟨xs, hxs⟩ := spots_of_range h
  have hall : visitAll s Inline.visitor depth xs [] = .ok seen :=
    (range_eq_visitAll hxs []).symm.trans h
  rw [mem_visitAll hall fun x _ _ _ hvisit => mem_visitSpot hvisit]
  constructor
  · rintro (hnil | ⟨x, hx, y, hunder, he⟩)
    · cases hnil
    · obtain ⟨rfl, rfl⟩ := Prod.mk.inj he
      exact ⟨y, Scene.visited_iff.2 ⟨xs, hxs, x, hx, hunder⟩, rfl, rfl⟩
  · rintro ⟨y, hvisited, rfl, rfl⟩
    obtain ⟨ys, hys, x, hx, hunder⟩ := Scene.visited_iff.1 hvisited
    obtain rfl := Except.ok.inj (hys.symm.trans hxs)
    exact .inr ⟨x, hx, y, hunder, rfl⟩

end Walk

end ShapeCode
