import ShapeCode.Proofs.Standing

set_option autoImplicit false

/-!
# The first discriminant that selects no variant

A walk comes to a spot before it comes to what is inside it, and to that before it comes
to the spots that follow.  This is the order of the fields, and `Scene.First` is the
first spot in it that has a property.

The search for a discriminant that names no variant goes on until it meets one.  Over a
value that stands it comes to an end, and what it has found is the first in that order
(`Walk.visitSpot_finds`).
-/

namespace ShapeCode

namespace Scene

/-! ## The order of a walk -/

/-- The first spot with the property, among the given ones and what is under them. -/
inductive First (s : Scene) (p : Spot → Prop) : List Spot → Spot → Prop where
  | here {x : Spot} {rest : List Spot} (hx : p x) : s.First p (x :: rest) x
  | inside {x y : Spot} {rest ys : List Spot} (hx : ¬ p x) (hys : s.inside x = .ok ys)
      (hy : s.First p ys y) : s.First p (x :: rest) y
  | later {x y : Spot} {rest : List Spot} (hx : ∀ z, s.Under x z → ¬ p z)
      (hy : s.First p rest y) : s.First p (x :: rest) y

variable {s s' : Scene} {p p' : Spot → Prop} {o : Outline} {c : Cursor}
  {x y z : Spot} {xs : List Spot}

/-- The first spot with a property has it, and is under one of the given ones. -/
theorem First.exists_under (h : s.First p xs y) : p y ∧ ∃ x ∈ xs, s.Under x y := by
  induction h with
  | here hx => exact ⟨hx, _, List.mem_cons_self, .refl⟩
  | inside _ hys _ ih =>
    obtain ⟨hp, z, hz, hunder⟩ := ih
    exact ⟨hp, _, List.mem_cons_self, under_iff.2 (.inr ⟨_, hys, z, hz, hunder⟩)⟩
  | later _ _ ih =>
    obtain ⟨hp, z, hz, hunder⟩ := ih
    exact ⟨hp, z, List.mem_cons_of_mem _ hz, hunder⟩

theorem First.unique (h : s.First p xs y) (h' : s.First p xs z) : y = z := by
  induction h with
  | here hx =>
    cases h' with
    | here => rfl
    | inside hx' => exact absurd hx hx'
    | later hx' => exact absurd hx (hx' _ .refl)
  | inside hx hys hy ih =>
    obtain ⟨hp, w, hw, hunder⟩ := hy.exists_under
    cases h' with
    | here hx' => exact absurd hx' hx
    | inside _ hys' hz =>
      obtain rfl := Except.ok.inj (hys.symm.trans hys')
      exact ih hz
    | later hx' => exact absurd hp (hx' _ (under_iff.2 (.inr ⟨_, hys, w, hw, hunder⟩)))
  | later hx hy ih =>
    cases h' with
    | here hx' => exact absurd hx' (hx _ .refl)
    | inside _ hys hz =>
      obtain ⟨hp, w, hw, hunder⟩ := hz.exists_under
      exact absurd hp (hx _ (under_iff.2 (.inr ⟨_, hys, w, hw, hunder⟩)))
    | later _ hz => exact ih hz

/-! ## Scenes that look the same -/

/-- Where whatever is visited has the same inside, the same is under it. -/
theorem Under.congr (hsame : ∀ x, s.Visited o c x → s.inside x = s'.inside x)
    (hx : s.Visited o c x) (h : s'.Under x z) : s.Visited o c z ∧ s.Under x z := by
  induction h with
  | refl => exact ⟨hx, .refl⟩
  | tail _ hstep ih =>
    obtain ⟨ys, hys, hy⟩ := hstep
    rw [← hsame _ ih.1] at hys
    exact ⟨.inside ih.1 hys hy, ih.2.tail ⟨ys, hys, hy⟩⟩

theorem Visited.congr (htables : s.tables = s'.tables)
    (hsame : ∀ x, s.Visited o c x → s.inside x = s'.inside x)
    (h : s'.Visited o c z) : s.Visited o c z := by
  obtain ⟨xs, hxs, x, hx, hunder⟩ := visited_iff.1 h
  rw [← htables] at hxs
  exact (Under.congr hsame (.root hxs hx) hunder).1

theorem First.congr (hsame : ∀ x, s.Visited o c x → s.inside x = s'.inside x)
    (hp : ∀ x, s.Visited o c x → (p x ↔ p' x)) (hxs : ∀ x ∈ xs, s.Visited o c x)
    (h : s.First p xs y) : s'.First p' xs y := by
  induction h with
  | here hx => exact .here ((hp _ (hxs _ List.mem_cons_self)).1 hx)
  | @inside x y rest ys hx hys hy ih =>
    have hvisited := hxs x List.mem_cons_self
    refine .inside (fun hx' => hx ((hp x hvisited).2 hx'))
      ((hsame x hvisited).symm.trans hys) (ih fun z hz => ?_)
    exact .inside hvisited hys hz
  | @later x y rest hx hy ih =>
    have hvisited := hxs x List.mem_cons_self
    refine .later (fun z hz hz' => ?_) (ih fun z hz => hxs z (List.mem_cons_of_mem x hz))
    obtain ⟨hzvisited, hunder⟩ := Under.congr hsame hvisited hz
    exact hx z hunder ((hp z hzvisited).2 hz')

/-! ## The search -/

/-- The spot is a union whose discriminant selects no variant. -/
def Misselects (s : Scene) (x : Spot) : Prop :=
  ∃ v, s.Selects x v ∧ ¬ x.HasVariant s.tables v

/-- What is reported of a spot: its union, the discriminant there, and how many
variants there are. -/
def Reports (s : Scene) (x : Spot) (bad : Image.BadVariant) : Prop :=
  x.node = .union bad.union ∧ ∃ u, s.tables.union bad.union = .ok u ∧
    s.discriminants u x.cursor = [bad.discriminant] ∧ bad.count = u.variants.size

/-- What a search through spots in order has found: nothing, as nothing is there, or the
first there is. -/
def Finds (s : Scene) (xs : List Spot) : Option Image.BadVariant → Prop
  | none => ∀ x ∈ xs, ∀ y, s.Under x y → ¬ s.Misselects y
  | some bad => ∃ y, s.First s.Misselects xs y ∧ s.Reports y bad

theorem Finds.cons_none {found : Option Image.BadVariant} (hx : s.Finds [x] none)
    (h : s.Finds xs found) : s.Finds (x :: xs) found := by
  have hfree : ∀ y, s.Under x y → ¬ s.Misselects y := hx x List.mem_cons_self
  cases found with
  | none => exact List.forall_mem_cons.2 ⟨hfree, h⟩
  | some bad =>
    obtain ⟨y, hfirst, hreports⟩ := h
    exact ⟨y, .later hfree hfirst, hreports⟩

theorem Finds.cons_some {bad : Image.BadVariant} (hx : s.Finds [x] (some bad)) :
    s.Finds (x :: xs) (some bad) := by
  obtain ⟨y, hfirst, hreports⟩ := hx
  refine ⟨y, ?_, hreports⟩
  cases hfirst with
  | here hx => exact .here hx
  | inside hx hys hy => exact .inside hx hys hy
  | later _ hy => cases hy

/-- What is found inside a spot that selects a variant is found at the spot. -/
theorem Finds.of_inside {found : Option Image.BadVariant} {ys : List Spot}
    (hx : ¬ s.Misselects x) (hys : s.inside x = .ok ys) (h : s.Finds ys found) :
    s.Finds [x] found := by
  cases found with
  | none =>
    refine List.forall_mem_singleton.2 fun y hy => ?_
    rcases under_iff.1 hy with rfl | ⟨ys', hys', z, hz, hunder⟩
    · exact hx
    · obtain rfl := Except.ok.inj (hys'.symm.trans hys)
      exact h z hz y hunder
  | some bad =>
    obtain ⟨y, hfirst, hreports⟩ := h
    exact ⟨y, .inside hx hys hfirst, hreports⟩

end Scene

namespace Walk

variable {s : Scene} {depth : Nat}

/-- A search through spots one after another finds what is found first. -/
theorem visitAll_finds {xs : List Spot}
    (h : ∀ x ∈ xs, ∃ found, visitSpot s Image.visitor depth x none = .ok found ∧
      s.Finds [x] found) :
    ∃ found, visitAll s Image.visitor depth xs none = .ok found ∧ s.Finds xs found := by
  induction xs with
  | nil => exact ⟨none, rfl, fun x hx => by cases hx⟩
  | cons x rest ih =>
    rw [List.forall_mem_cons] at h
    obtain ⟨⟨found, hvisit, hfinds⟩, hrest⟩ := h
    cases found with
    | none =>
      obtain ⟨found, hall, hfound⟩ := ih hrest
      exact ⟨found, by simp only [visitAll, hvisit, hall], hfinds.cons_none hfound⟩
    | some bad =>
      have hpass : visitAll s Image.visitor depth rest (some bad) = .ok (some bad) :=
        visitAll_of_not_attends rfl
      exact ⟨some bad, by simp only [visitAll, hvisit, hpass], hfinds.cons_some⟩

/-- At a discriminant that selects no variant the search stops. -/
theorem visitSpot_of_not_hasVariant (depth : Nat) {x : Spot} {b selected : Nat}
    (hcursor : x.cursor = [b]) (hselects : s.Selects x selected)
    (hnone : ¬ x.HasVariant s.tables selected) :
    ∃ bad, visitSpot s Image.visitor depth x none = .ok (some bad) ∧
      s.Reports x bad := by
  obtain ⟨id, u, hid, hu, hout⟩ := Spot.not_hasVariant_iff.1 hnone
  obtain ⟨more, hmore⟩ := hselects id u hid hu
  have hone : s.discriminants u x.cursor = [selected] := by
    have hlength : (s.discriminants u x.cursor).length = 1 := by
      rw [hcursor]
      unfold Scene.discriminants
      split <;> rfl
    rw [hmore] at hlength ⊢
    obtain rfl := List.length_eq_zero_iff.1 (Nat.succ.inj hlength)
    rfl
  have hcontent : s.content x.node x.inner x.cursor = .ok (.union u [selected]) := by
    simp only [hid, Scene.content, hu, hone]
  refine ⟨⟨id, selected, u.variants.size⟩, ?_, hid, u, hu, hone, rfl⟩
  rw [hid] at hcontent
  simp only [visitSpot, visit, Image.visitor, Option.isNone_none, if_true, hid, hcontent,
    Image.enter, if_pos hout]

/-- Over a value that stands the search comes to an end, and finds the first
discriminant that selects no variant. -/
theorem visitSpot_finds {t : Tables} {m : Memory} (ht : t.Verified) (hhints : t.HintsWidest)
    (hmeasured : t.VariantsMeasured) {x : Spot} (hx : x.Stands t)
    (hcursor : ∃ b, x.cursor = [b])
    (hinline : ∀ y, (Scene.mk t m).Under x y → y.node.isInline = true)
    (hnests : x.Nests t depth) :
    ∃ found, visitSpot ⟨t, m⟩ Image.visitor depth x none = .ok found ∧
      (Scene.mk t m).Finds [x] found := by
  revert hx hcursor hinline hnests
  refine visit_induction (s := Scene.mk t m) (p := fun depth x => x.Stands t →
    (∃ b, x.cursor = [b]) →
    (∀ y, (Scene.mk t m).Under x y → y.node.isInline = true) → x.Nests t depth →
      ∃ found, visitSpot ⟨t, m⟩ Image.visitor depth x none = .ok found ∧
        (Scene.mk t m).Finds [x] found)
    ?_ depth x
  intro depth x ih hx hcursor hinline hnests
  obtain ⟨selected, hselects⟩ := (Scene.mk t m).exists_selects hx.lane
  by_cases hv : x.HasVariant t selected
  · obtain ⟨ys, hys, hall⟩ := ht.inside_of_stands hhints hmeasured hx hselects hv
    obtain ⟨content, hcontent, henter⟩ :=
      Scene.enter_of_inside hcursor (hinline x .refl) hys
    have hdepth := hnests.depth_pos
    have hself : ¬ (Scene.mk t m).Misselects x := by
      rintro ⟨v, hv', hnone⟩
      exact hnone (Scene.hasVariant_of_inside hv' hys)
    obtain ⟨b, hb⟩ := hcursor
    obtain ⟨found, hvisit, hfinds⟩ := visitAll_finds fun y hy =>
      ih ys hys hdepth y hy (hall y hy) (Scene.cursor_of_inside hb hys y hy)
        (fun z hz => hinline z (Scene.under_iff.2 (.inr ⟨ys, hys, y, hy, hz⟩)))
          (hnests.inside hys y hy)
    refine ⟨found, ?_, hfinds.of_inside hself hys⟩
    rw [visitSpot_of_enter rfl (hinline x .refl) hcontent hys hdepth henter, hvisit]
    rfl
  · obtain ⟨b, hb⟩ := hcursor
    obtain ⟨bad, hvisit, hreports⟩ := visitSpot_of_not_hasVariant depth hb hselects hv
    exact ⟨some bad, hvisit, x, .here ⟨selected, hselects, hv⟩, hreports⟩

end Walk

end ShapeCode
