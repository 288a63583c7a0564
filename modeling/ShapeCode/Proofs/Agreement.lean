import ShapeCode.Proofs.Lanes

set_option autoImplicit false

/-!
# Walks that cannot tell two memories apart

A walk depends on memory through what it finds at the spots it visits.  If two memories
give the same contents there, and two visitors do the same with them, the walks come to
the same end, faults and depth included (`Scene.run_congr`).

The spots are those of a walk with one lane.  The walks compared may have more lanes,
each a fixed distance from the first (`Cursor.spread`): they go where the first lane
goes, unless another lane leaves the machine word, and then both do.
-/

namespace ShapeCode

/-! ## Walks that visit the same -/

namespace Walk

section Congr

variable {σ : Type} {t : Tables} {m m' : Memory} {v v' : Visitor σ}
  {distances : List Nat} {depth : Nat}

/-- Two walks over a range come to the same end if they do at each of its spots. -/
theorem range_congr (ht : t.Verified) (hd : ∀ n ∈ distances, 8 ∣ n) {single : Bool}
    {o : Outline} (ho : o.Sound t) {a : Nat} {aligned : Bool} {xs : List Spot}
    (hxs : spots t single o [a] aligned = .ok xs)
    (hvisit : ∀ x ∈ xs, ∀ st, visitSpot ⟨t, m⟩ v depth (x.spread distances) st =
      visitSpot ⟨t, m'⟩ v' depth (x.spread distances) st)
    (st : σ) :
    (range ⟨t, m⟩ v (variant ⟨t, m⟩ v depth) single o
        (Cursor.spread distances a) aligned st).map Prod.fst =
      (range ⟨t, m'⟩ v' (variant ⟨t, m'⟩ v' depth) single o
        (Cursor.spread distances a) aligned st).map Prod.fst := by
  induction o generalizing single a aligned xs st with
  | done => rfl
  | broken f => rfl
  | cons node inner rest _ ih =>
    obtain ⟨hids, -, hinner, hrest⟩ := ho
    simp only [spots] at hxs
    split at hxs
    · cases hxs
    · rename_i l hl
      split at hxs
      · cases hxs
      · rename_i c hplace
        obtain ⟨b, rfl⟩ := place_single hplace
        rw [ht.node_layout_eq hids hinner] at hl
        have halign := (ht.nodeLayout_proper hids hinner hl).isAlign
        simp only [range, ht.node_layout_eq hids hinner, hl]
        cases hc : place aligned l.align (Cursor.spread distances a) with
        | error f => rfl
        | ok c =>
          obtain rfl := Cursor.place_spread halign hd hplace hc
          -- What the walks do at the node are the visits of the first spot.
          have hfirst : ∀ (m : Memory) (v : Visitor σ),
              visit ⟨t, m⟩ v (variant ⟨t, m⟩ v depth)
              (fun c st => (range ⟨t, m⟩ v (variant ⟨t, m⟩ v depth) true inner
                c false st).map Prod.fst)
              (fun c st => (range ⟨t, m⟩ v (variant ⟨t, m⟩ v depth) false inner
                c false st).map Prod.fst)
              node inner (Cursor.spread distances b) st =
                visitSpot ⟨t, m⟩ v depth
                  (Spot.spread distances ⟨node, inner, [b], l⟩) st := fun _ _ => rfl
          simp only [hfirst, Cursor.advance_spread]
          cases single with
          | true =>
            obtain rfl := Except.ok.inj hxs
            rw [List.forall_mem_singleton] at hvisit
            rw [hvisit st]
            cases visitSpot ⟨t, m'⟩ v' depth
              (Spot.spread distances ⟨node, inner, [b], l⟩) st with
            | error h => rfl
            | ok st => rfl
          | false =>
            simp only [Bool.false_eq_true, if_false] at hxs ⊢
            split at hxs
            · cases hxs
            · rename_i later hlater
              obtain rfl := Except.ok.inj hxs
              rw [List.forall_mem_cons] at hvisit
              rw [hvisit.1 st]
              cases visitSpot ⟨t, m'⟩ v' depth
                (Spot.spread distances ⟨node, inner, [b], l⟩) st with
              | error h => rfl
              | ok st => exact ih hrest hlater hvisit.2 st

/-- Two walks over the elements of a run come to the same end if they do at each spot,
wherever they stop. -/
theorem elements_congr (ht : t.Verified) (hd : ∀ n ∈ distances, 8 ∣ n)
    (hattends : v.attends = v'.attends) {inner : Outline} (hinner : inner.Sound t)
    {span first : Span} {bound a e : Nat} {xs : List Spot}
    (hxs : elementSpots t inner (first.elementsFrom bound [a]) = .ok xs)
    (hfirst : first.stop = [e]) (hstop : span.stop = Cursor.spread distances e)
    (hstride : first.stride = span.stride)
    (hvisit : ∀ x ∈ xs, ∀ st, visitSpot ⟨t, m⟩ v depth (x.spread distances) st =
      visitSpot ⟨t, m'⟩ v' depth (x.spread distances) st)
    (st : σ) :
    elements v span
        (fun c st => (range ⟨t, m⟩ v (variant ⟨t, m⟩ v depth) true inner
          c false st).map Prod.fst)
        bound (Cursor.spread distances a) st =
      elements v' span
        (fun c st => (range ⟨t, m'⟩ v' (variant ⟨t, m'⟩ v' depth) true inner
          c false st).map Prod.fst)
        bound (Cursor.spread distances a) st := by
  induction bound generalizing a xs st with
  | zero => rfl
  | succ bound ih =>
    simp only [elements, hattends]
    by_cases hgo : (span.hasElement (Cursor.spread distances a) && v'.attends st) = true
    · -- An element in every lane is one in the first.
      have helem : first.hasElement [a] = true := by
        rw [Bool.and_eq_true] at hgo
        have hhas := hgo.1
        simp only [Span.hasElement, hstop, Bool.and_eq_true] at hhas
        simp only [Span.hasElement, hfirst, hstride, Bool.and_eq_true]
        exact ⟨hhas.1, Cursor.fits_of_spread hhas.2⟩
      simp only [Span.elementsFrom, helem, if_true, elementSpots] at hxs
      split at hxs
      · cases hxs
      · rename_i elem helemSpots
        split at hxs
        · cases hxs
        · rename_i later hlater
          obtain rfl := Except.ok.inj hxs
          rw [List.forall_mem_append] at hvisit
          simp only [if_pos hgo,
            range_congr ht hd hinner helemSpots hvisit.1 st, Cursor.advance_spread]
          cases (range ⟨t, m'⟩ v' (variant ⟨t, m'⟩ v' depth) true inner
              (Cursor.spread distances a) false st).map
              Prod.fst with
          | error h => rfl
          | ok st =>
            have hnext :
                Cursor.advance [a] first.stride = [Word.wrap (a + span.stride)] := by
              rw [hstride]
              rfl
            rw [hnext] at hlater
            exact ih hlater hvisit.2 st
    · rw [if_neg hgo, if_neg hgo]

/-- Two walks over a variant come to the same end if they do at each of its spots. -/
theorem variant_congr (ht : t.Verified) (hd : ∀ n ∈ distances, 8 ∣ n) {m₀ : Memory}
    {id : UInt16} {selected a : Nat} {xs : List Spot}
    (hxs : (Scene.mk t m₀).variantSpots id selected [a] = .ok xs)
    (hvisit : 0 < depth →
      ∀ x ∈ xs, ∀ st, visitSpot ⟨t, m⟩ v (depth - 1) (x.spread distances) st =
      visitSpot ⟨t, m'⟩ v' (depth - 1) (x.spread distances) st)
    (st : σ) :
    variant ⟨t, m⟩ v depth id selected (Cursor.spread distances a) st =
      variant ⟨t, m'⟩ v' depth id selected (Cursor.spread distances a) st := by
  obtain ⟨u, fields, hu, hfields, hspots⟩ := Scene.variantSpots_eq_ok hxs
  have hsound := ht.sound.of_union hu hfields
  cases depth with
  | zero => rfl
  | succ depth =>
    have hvisit' := hvisit (Nat.succ_pos depth)
    simp only at hu
    simp only [variant, hu, hfields]
    cases hd' : u.hasDiscriminant with
    | true =>
      simp only [hd', if_true] at hspots ⊢
      rw [Cursor.advance_spread]
      exact range_congr ht hd hsound hspots hvisit' st
    | false =>
      simp only [hd', Bool.false_eq_true, if_false] at hspots ⊢
      exact range_congr ht hd hsound hspots hvisit' st

/-- At the spot two visitors find and do the same in two memories, and there a union
selects in its first lane what it selects in the memory that the spot was found in. -/
structure Alike (s : Scene) (m m' : Memory) (v v' : Visitor σ) (distances : List Nat)
    (x : Spot) : Prop where
  cursor : ∃ a, x.cursor = [a]
  inline : x.node.isInline = true
  content : (Scene.mk s.tables m).content x.node x.inner (x.spread distances).cursor =
    (Scene.mk s.tables m').content x.node x.inner (x.spread distances).cursor
  selects : Scene.SelectsSame s.tables s.mem m distances x
  enter : ∀ content, (Scene.mk s.tables m).content x.node x.inner
    (x.spread distances).cursor = .ok content →
    v.enter x.node (x.spread distances).cursor content =
      v'.enter x.node (x.spread distances).cursor content

variable {s : Scene}

/-- Two walks inside a node come to the same end if they do at each of the spots there. -/
theorem inside_congr (ht : s.tables.Verified) (hd : ∀ n ∈ distances, 8 ∣ n)
    (hattends : v.attends = v'.attends) {x : Spot} (hsound : x.Sound s.tables)
    (hx : Alike s m m' v v' distances x) {ys : List Spot} (hys : s.inside x = .ok ys)
    (hvisit : (∀ id, x.node = .union id → 0 < depth) → ∀ y ∈ ys, ∀ st,
      visitSpot ⟨s.tables, m⟩ v (x.below depth) (y.spread distances) st =
        visitSpot ⟨s.tables, m'⟩ v' (x.below depth) (y.spread distances) st)
    {content : Content}
    (hcontent : (Scene.mk s.tables m).content x.node x.inner
      (x.spread distances).cursor = .ok content)
    (st : σ) :
    inside ⟨s.tables, m⟩ v (variant ⟨s.tables, m⟩ v depth)
        (fun c st => (range ⟨s.tables, m⟩ v (variant ⟨s.tables, m⟩ v depth) true
          (x.spread distances).inner c false st).map Prod.fst)
        (fun c st => (range ⟨s.tables, m⟩ v (variant ⟨s.tables, m⟩ v depth) false
          (x.spread distances).inner c false st).map Prod.fst)
        (x.spread distances).node (x.spread distances).inner content
          (x.spread distances).cursor st =
      inside ⟨s.tables, m'⟩ v' (variant ⟨s.tables, m'⟩ v' depth)
        (fun c st => (range ⟨s.tables, m'⟩ v' (variant ⟨s.tables, m'⟩ v' depth) true
          (x.spread distances).inner c false st).map Prod.fst)
        (fun c st => (range ⟨s.tables, m'⟩ v' (variant ⟨s.tables, m'⟩ v' depth) false
          (x.spread distances).inner c false st).map Prod.fst)
        (x.spread distances).node (x.spread distances).inner content
          (x.spread distances).cursor st := by
  obtain ⟨⟨a, hcursor⟩, hinline, -, hselects, -⟩ := hx
  obtain ⟨-, hone, hinner⟩ := hsound
  obtain ⟨node, inner, c, l⟩ := x
  simp only at hcursor hone hinner
  subst hcursor
  dsimp only [Spot.spread, List.headD_cons] at hcontent ⊢
  cases node with
  | scalar | handle => rfl
  | record | resource =>
    have hspots : spots s.tables false inner [a] false = .ok ys := hys
    exact range_congr ht hd hinner hspots (hvisit fun _ hid => by cases hid) st
  | pointer => cases hinline
  | union id =>
    simp only [Scene.content] at hcontent
    simp only [Scene.inside] at hys
    split at hcontent
    · cases hcontent
    · rename_i u hu
      obtain rfl := Except.ok.inj hcontent
      simp only [hu] at hys
      cases hdiscriminants :
        (Scene.mk s.tables m).discriminants u (Cursor.spread distances a) with
      | nil => rfl
      | cons selected more =>
        obtain ⟨more', hmore⟩ := hselects.eq_cons rfl hu hdiscriminants
        simp only [hmore] at hys
        exact variant_congr ht hd hys (fun hdepth => hvisit fun _ _ => hdepth) st
  | run form plain elem =>
    cases form with
    | vec | unboxedVec | slice => cases hinline
    | fixedVec count =>
      simp only [Scene.content] at hcontent
      simp only [Scene.inside] at hys
      split at hcontent
      · cases hcontent
      · rename_i span hspan
        obtain rfl := Except.ok.inj hcontent
        split at hys
        · cases hys
        · rename_i first hfirst
          obtain ⟨spacing, hspacing, rfl⟩ := Span.resolve_fixedVec_eq_ok hspan
          obtain ⟨spacing', hspacing', rfl⟩ := Span.resolve_fixedVec_eq_ok hfirst
          obtain rfl := Except.ok.inj (hspacing.symm.trans hspacing')
          simp only [inside]
          refine @elements_congr σ s.tables m m' v v' distances depth ht
            hd hattends inner hinner
            ⟨.fixedVec count, plain, elem, spacing.stride, Cursor.spread distances a,
              (Cursor.spread distances a).advance (count.toNat * spacing.stride)⟩
            _ _ _ _ _ hys rfl Cursor.advance_spread rfl ?_ st
          exact hvisit fun _ hid => by cases hid

/-- Two walks come to the same end at a spot if all that is under it is alike. -/
theorem visitSpot_congr (ht : s.tables.Verified) (hd : ∀ n ∈ distances, 8 ∣ n)
    (hattends : v.attends = v'.attends) (hleave : v.leave = v'.leave) {x : Spot}
    (hsound : x.Sound s.tables) (hgoes : s.Goes x)
    (halike : ∀ y, s.Under x y → Alike s m m' v v' distances y) (st : σ) :
    visitSpot ⟨s.tables, m⟩ v depth (x.spread distances) st =
      visitSpot ⟨s.tables, m'⟩ v' depth (x.spread distances) st := by
  revert hsound hgoes halike st
  refine visit_induction (s := s) (p := fun depth x => x.Sound s.tables → s.Goes x →
    (∀ y, s.Under x y → Alike s m m' v v' distances y) → ∀ st,
      visitSpot ⟨s.tables, m⟩ v depth (x.spread distances) st =
        visitSpot ⟨s.tables, m'⟩ v' depth (x.spread distances) st) ?_ depth x
  intro depth x ih hsound hgoes halike st
  have hx := halike x .refl
  obtain ⟨ys, hys, hgoesAll⟩ := Scene.goes_iff.1 hgoes
  have hvisit : (∀ id, x.node = .union id → 0 < depth) → ∀ y ∈ ys, ∀ st,
      visitSpot ⟨s.tables, m⟩ v (x.below depth) (y.spread distances) st =
        visitSpot ⟨s.tables, m'⟩ v' (x.below depth) (y.spread distances) st := by
    intro hdepth y hy
    refine ih ys hys hdepth y hy (hsound.inside ht.sound hys y hy)
      (hgoesAll y hy) fun z hz => halike z ?_
    exact Scene.under_iff.2 (.inr ⟨ys, hys, y, hy, hz⟩)
  have hcontent :
      (Scene.mk s.tables m).content (x.spread distances).node (x.spread distances).inner
      (x.spread distances).cursor = (Scene.mk s.tables m').content (x.spread distances).node
        (x.spread distances).inner (x.spread distances).cursor := hx.content
  simp only [visitSpot, visit, hattends, hleave]
  split
  · rw [hcontent]
    cases hfound :
        (Scene.mk s.tables m').content (x.spread distances).node (x.spread distances).inner
        (x.spread distances).cursor with
    | error f => rfl
    | ok content =>
      have hfound' := hcontent.trans hfound
      have henter : v.enter (x.spread distances).node (x.spread distances).cursor content =
          v'.enter (x.spread distances).node (x.spread distances).cursor content :=
            hx.enter content hfound'
      have hinside := inside_congr ht hd hattends hsound hx hys hvisit hfound'
      simp only [henter]
      split
      · rfl
      · rename_i st' _
        rw [hinside st']
  · rfl

end Congr

end Walk

/-- Walks over a range come to the same end if all that is visited is alike. -/
theorem Scene.run_congr {σ : Type} {s : Scene} {o : Outline} {m m' : Memory}
    {v v' : Visitor σ} {distances : List Nat} {depth a : Nat} (ht : s.tables.Verified)
    (ho : o.Sound s.tables) (hcompletes : s.Completes o [a])
    (hd : ∀ n ∈ distances, 8 ∣ n)
    (halike : ∀ x, s.Visited o [a] x → Walk.Alike s m m' v v' distances x)
    (hattends : v.attends = v'.attends) (hleave : v.leave = v'.leave) (st : σ) :
    Walk.run ⟨s.tables, m⟩ v depth o (Cursor.spread distances a) st =
      Walk.run ⟨s.tables, m'⟩ v' depth o (Cursor.spread distances a) st := by
  obtain ⟨xs, hxs⟩ := hcompletes.root
  refine Walk.range_congr ht hd ho hxs (fun x hx st => ?_) st
  have hvisited : s.Visited o [a] x := .root hxs hx
  apply Walk.visitSpot_congr ht hd hattends hleave (ho.spot (Walk.has_of_spots hxs x hx))
    (hcompletes.goes hvisited)
  intro y hy
  exact halike y (Scene.visited_iff.2 ⟨xs, hxs, x, hx, hy⟩)

end ShapeCode
