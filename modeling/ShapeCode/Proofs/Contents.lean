import ShapeCode.Proofs.ProperLayout
import ShapeCode.Proofs.Visits

set_option autoImplicit false

/-!
# What is inside a value, wherever it is stored

`Scene.inside` is what a spot stores inline.  `Scene.contents` follows pointers as well,
and finds the elements of every run; behind a null pointer is nothing.  For a visitor
that does not follow null pointers, a walk gets through a spot that it goes into if and
only if the spot has contents and the walk gets through these in order
(`Walk.visitSpot_eq_ok_iff`).

The element range of a run holds one node, so whether there are spots for the elements
of a run is a question about their layout and not about each of them
(`elementSpots_of_spacing`).
-/

namespace ShapeCode

namespace Scene

/-- The spots that a walk comes to inside a spot. -/
def contents (s : Scene) (x : Spot) : Except Fault (List Spot) :=
  match x.node with
  | .run form plain elem =>
    match Span.resolve s.tables s.mem form plain elem x.inner x.cursor with
    | .error f => .error f
    | .ok span => Walk.elementSpots s.tables x.inner span.elements
  | .pointer form _ =>
    if (x.cursor.map s.mem.word).contains 0 then .ok []
    else
      match s.target form x.inner x.cursor with
      | .error f => .error f
      | .ok target => Walk.spots s.tables true x.inner target false
  | .scalar _ | .handle _ | .record _ | .resource _ _ | .union _ => s.inside x

variable {s : Scene} {x y : Spot} {ys : List Spot}

theorem content_union_eq_ok_iff {id : UInt16} {inner : Outline} {c : Cursor}
    {found : Content} :
    s.content (.union id) inner c = .ok found ↔
      ∃ u, s.tables.union id = .ok u ∧ found = .union u (s.discriminants u c) := by
  simp only [content]
  cases s.tables.union id with
  | error f => simp
  | ok u => simp [eq_comm]

theorem content_run_eq_ok_iff {form : RunForm} {plain : Bool} {elem : Bytes}
    {inner : Outline} {c : Cursor} {found : Content} :
    s.content (.run form plain elem) inner c = .ok found ↔
      ∃ span, Span.resolve s.tables s.mem form plain elem inner c = .ok span ∧
        found = .run span := by
  simp only [content]
  cases Span.resolve s.tables s.mem form plain elem inner c with
  | error f => simp
  | ok span => simp [eq_comm]

/-- The contents of a spot are at the nodes of its nested range, or at
those of a variant. -/
theorem has_of_contents (h : s.contents x = .ok ys) (hy : y ∈ ys) :
    ((∀ id, x.node ≠ .union id) ∧ x.inner.Has y.node y.inner) ∨
      ∃ id u v fields, x.node = .union id ∧ s.tables.union id = .ok u ∧
        u.variant v = .ok fields ∧
        (Outline.ofBytes fields).Has y.node y.inner := by
  obtain ⟨node, inner, c, l⟩ := x
  cases node with
  | scalar | handle =>
    obtain rfl := Except.ok.inj h
    cases hy
  | record | resource => exact .inl ⟨by simp, Walk.has_of_spots h y hy⟩
  | union id =>
    simp only [contents, inside] at h
    split at h
    · cases h
    · split at h
      · obtain rfl := Except.ok.inj h
        cases hy
      · rename_i selected more _
        obtain ⟨u, fields, hu, hfields, hspots⟩ := variantSpots_eq_ok h
        exact .inr ⟨id, u, selected, fields, rfl, hu, hfields,
          Walk.has_of_spots hspots y hy⟩
  | run form =>
    simp only [contents] at h
    split at h
    · cases h
    · exact .inl ⟨by simp, Walk.has_of_elementSpots h y hy⟩
  | pointer form =>
    simp only [contents] at h
    split at h
    · obtain rfl := Except.ok.inj h
      cases hy
    · split at h
      · cases h
      · exact .inl ⟨by simp, Walk.has_of_spots h y hy⟩

/-- What holds of a spot as soon as it holds of its contents holds of every spot.
Inside a union there is less depth left, and otherwise the nested range is smaller. -/
theorem contents_induction {p : Nat → Spot → Prop}
    (step : ∀ depth x,
      (∀ ys, s.contents x = .ok ys → (∀ id, x.node = .union id → 0 < depth) →
        ∀ y ∈ ys, p (x.below depth) y) →
      p depth x)
    (depth : Nat) (x : Spot) : p depth x := by
  induction depth using Nat.strong_induction_on generalizing x with
  | _ depth ihd =>
    generalize hn : sizeOf x.inner = n
    induction n using Nat.strong_induction_on generalizing x with
    | _ n ihn =>
      apply step
      intro ys hys hdepth y hy
      rcases has_of_contents hys hy
        with ⟨hunion, hhas⟩ | ⟨id, u, v, fields, hid, -, -, -⟩
      · have hbelow : x.below depth = depth := by
          unfold Spot.below
          split
          · rename_i id hid
            exact absurd hid (hunion id)
          · rfl
        rw [hbelow]
        exact ihn (sizeOf y.inner) (hn ▸ hhas.sizeOf_lt) y rfl
      · have hbelow : x.below depth = depth - 1 := by
          unfold Spot.below
          rw [hid]
        have hpos := hdepth id hid
        rw [hbelow]
        exact ihd (depth - 1) (by omega) y

end Scene

theorem Spot.Sound.contents {s : Scene} (ht : s.tables.Sound) {x : Spot}
    (hx : x.Sound s.tables) {ys : List Spot} (hys : s.contents x = .ok ys) :
    ∀ y ∈ ys, y.Sound s.tables := by
  intro y hy
  rcases Scene.has_of_contents hys hy
    with ⟨-, hhas⟩ | ⟨id, u, v, fields, -, hu, hfields, hhas⟩
  · exact hx.inner.spot hhas
  · exact (ht.of_union hu hfields).spot hhas

/-! ## Elements -/

/-- Elements that are spaced have a layout, and there is one spot for each. -/
theorem Tables.Verified.elementSpots_of_spacing {t : Tables} (ht : t.Verified)
    {inner : Outline} (ho : inner.Sound t) (hone : inner.length = 1) {spacing : Spacing}
    (h : inner.spacing t = .ok spacing) :
    ∃ node elem l, inner = .cons node elem .done ∧
      ∀ cs, Walk.elementSpots t inner cs =
        .ok (cs.map fun c => ⟨node, elem, c, l⟩) := by
  obtain ⟨node, elem, rfl⟩ := ho.eq_single hone
  obtain ⟨whole, hwhole⟩ : ∃ l, Outline.layout t (.cons node elem .done) = .ok l := by
    unfold Outline.spacing at h
    split at h
    · cases h
    · rename_i l hl
      exact ⟨l, hl⟩
  rw [ht.layout_eq ho] at hwhole
  obtain ⟨l, -, hl, -, -⟩ := Tables.rangeLayout_cons_eq_ok hwhole
  rw [← ht.node_layout_eq ho.1 ho.2.2.1] at hl
  refine ⟨node, elem, l, rfl, fun cs => ?_⟩
  induction cs with
  | nil => rfl
  | cons c rest ih =>
    simp only [Walk.elementSpots, ih, Walk.spots, hl, Walk.place, Bool.false_eq_true,
      if_false, if_true, List.map_cons, List.singleton_append]

/-! ## Walks through contents -/

/-- The visitor does not follow null pointers. -/
def Visitor.PassesNull {σ : Type} (v : Visitor σ) : Prop :=
  ∀ form bytes c cells st st',
    v.enter (.pointer form bytes) c (.pointer cells) st = (st', true) →
    cells.contains 0 = false

namespace Walk

variable {σ : Type} {s : Scene} {v : Visitor σ} {depth : Nat} {st st' : σ}

/-- A walk gets through a range if and only if it has spots and the walk
gets through them. -/
theorem range_eq_ok_iff {single : Bool} {o : Outline} {c : Cursor} {aligned : Bool} :
    (range s v (variant s v depth) single o c aligned st).map Prod.fst = .ok st' ↔
      ∃ xs, spots s.tables single o c aligned = .ok xs ∧
        visitAll s v depth xs st = .ok st' := by
  constructor
  · intro h
    obtain ⟨xs, hxs⟩ := spots_of_range h
    exact ⟨xs, hxs, (range_eq_visitAll hxs st).symm.trans h⟩
  · rintro ⟨xs, hxs, hall⟩
    exact (range_eq_visitAll hxs st).trans hall

theorem variant_eq_ok_iff {id : UInt16} {selected : Nat} {c : Cursor} :
    variant s v depth id selected c st = .ok st' ↔
      0 < depth ∧ ∃ xs, s.variantSpots id selected c = .ok xs ∧
      visitAll s v (depth - 1) xs st = .ok st' := by
  cases depth with
  | zero => simp [variant]
  | succ k =>
    constructor
    · intro h
      have h' := h
      unfold variant at h'
      split at h'
      · cases h'
      · rename_i u hu
        split at h'
        · cases h'
        · rename_i fields hfields
          obtain ⟨xs, hxs, -⟩ := range_eq_ok_iff.1 h'
          have hspots : s.variantSpots id selected c = .ok xs := by
            simp only [Scene.variantSpots, hu, hfields, hxs]
          exact ⟨Nat.succ_pos k, xs, hspots,
            (variant_eq_visitAll hspots st).symm.trans h⟩
    · rintro ⟨-, xs, hxs, hall⟩
      exact (variant_eq_visitAll hxs st).trans hall

/-- A walk gets through the inside of a spot, if it is not a null pointer, if and only
if the spot has contents and the walk gets through them. -/
theorem inside_eq_ok_iff (ht : s.tables.Verified) {x : Spot} (hx : x.Sound s.tables)
    (hcursor : x.cursor ≠ []) {content : Content}
    (hcontent : s.content x.node x.inner x.cursor = .ok content)
    (hnull : ∀ form bytes, x.node = .pointer form bytes →
      (x.cursor.map s.mem.word).contains 0 = false) :
    inside s v (variant s v depth)
        (fun c st => (range s v (variant s v depth) true x.inner c false st).map Prod.fst)
        (fun c st => (range s v (variant s v depth) false x.inner c false st).map Prod.fst)
        x.node x.inner content x.cursor st = .ok st' ↔
      (∀ id, x.node = .union id → 0 < depth) ∧
        ∃ xs, s.contents x = .ok xs ∧ visitAll s v (x.below depth) xs st = .ok st' := by
  obtain ⟨node, inner, c, l⟩ := x
  cases node with
  | scalar | handle => simp [inside, Scene.contents, Scene.inside, visitAll]
  | record | resource =>
    simp only [inside, range_eq_ok_iff, Scene.contents, Scene.inside, Spot.below,
      reduceCtorEq, false_implies, implies_true, true_and]
  | union id =>
    obtain ⟨u, hu, rfl⟩ := Scene.content_union_eq_ok_iff.1 hcontent
    obtain ⟨selected, more, hselected⟩ :
        ∃ selected more, s.discriminants u c = selected :: more := by
      cases c with
      | nil => exact absurd rfl hcursor
      | cons a rest =>
        unfold Scene.discriminants
        split
        · exact ⟨_, _, rfl⟩
        · exact ⟨_, _, rfl⟩
    have hpos : (∀ id', Node.union id = .union id' → 0 < depth) ↔ 0 < depth :=
      ⟨fun h => h id rfl, fun h _ _ => h⟩
    simp only [inside, hselected, variant_eq_ok_iff, Scene.contents,
      Scene.inside, hu, Spot.below, hpos]
  | run form plain elem =>
    obtain ⟨span, hspan, rfl⟩ := Scene.content_run_eq_ok_iff.1 hcontent
    have hspacing : ∃ spacing, inner.spacing s.tables = .ok spacing := by
      unfold Span.resolve at hspan
      split at hspan
      · cases hspan
      · exact ⟨_, by assumption⟩
    obtain ⟨spacing, hspacing⟩ := hspacing
    obtain ⟨node, elem, l, -, hspots⟩ :=
      ht.elementSpots_of_spacing hx.inner (hx.single rfl) hspacing
    have helements : elementSpots s.tables inner span.elements = .ok _ :=
      hspots span.elements
    simp only [inside, Scene.contents, hspan, Spot.below, reduceCtorEq,
      false_implies, implies_true, true_and]
    rw [elements_eq_visitAll helements st, helements]
    simp
  | pointer form bytes =>
    have hcells := hnull form bytes rfl
    simp only at hcells
    simp only [inside, Scene.contents, hcells, Spot.below, reduceCtorEq, false_implies,
      implies_true, true_and, Bool.false_eq_true, if_false]
    cases s.target form inner c with
    | error f => simp
    | ok target => exact range_eq_ok_iff

/-- A visitor that passes null pointers by gets through a spot if and only if it can
look at it and, unless that is enough, gets through its contents. -/
theorem visitSpot_eq_ok_iff (ht : s.tables.Verified) (hv : v.PassesNull) {x : Spot}
    (hx : x.Sound s.tables) (hcursor : x.cursor ≠ []) (hattends : v.attends st = true) :
    visitSpot s v depth x st = .ok st' ↔
      ∃ content, s.content x.node x.inner x.cursor = .ok content ∧
        (v.enter x.node x.cursor content st = (st', false) ∨
          ∃ before, v.enter x.node x.cursor content st = (before, true) ∧
            (∀ id, x.node = .union id → 0 < depth) ∧
              ∃ xs after, s.contents x = .ok xs ∧
              visitAll s v (x.below depth) xs before = .ok after ∧
              st' = v.leave x.node content after) := by
  unfold visitSpot visit
  rw [if_pos hattends]
  cases hcontent : s.content x.node x.inner x.cursor with
  | error f => simp
  | ok content =>
    simp only [Except.ok.injEq, exists_eq_left']
    rcases henter : v.enter x.node x.cursor content st with ⟨before, goes⟩
    cases goes with
    | false => simp
    | true =>
      have hnull : ∀ form bytes, x.node = .pointer form bytes →
          (x.cursor.map s.mem.word).contains 0 = false := by
        intro form bytes hnode
        rw [hnode] at hcontent henter
        obtain rfl := Except.ok.inj hcontent
        exact hv form bytes _ _ _ _ henter
      constructor
      · intro h
        simp only at h
        split at h
        · cases h
        · rename_i after hafter
          obtain ⟨hdepth, xs, hxs, hall⟩ :=
            (inside_eq_ok_iff ht hx hcursor hcontent hnull).1 hafter
          exact .inr ⟨before, rfl, hdepth, xs, after, hxs, hall, (Except.ok.inj h).symm⟩
      · rintro (h | ⟨_, hbefore, hdepth, xs, after, hxs, hall, rfl⟩)
        · cases h
        · obtain ⟨rfl, -⟩ := Prod.mk.inj hbefore
          have hafter :=
            (inside_eq_ok_iff ht hx hcursor hcontent hnull).2 ⟨hdepth, xs, hxs, hall⟩
          simp only [hafter]

end Walk

end ShapeCode
