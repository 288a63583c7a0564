import ShapeCode.Proofs.ImageSafety
import ShapeCode.Proofs.Slots

set_option autoImplicit false

/-!
# Walks over values that stand come to an end

Inside a spot whose value may stand where it does, in every lane, are spots of the same
kind, unless a discriminant selects no variant (`inside_of_stands`).  Unions nest no
deeper than their table is long, so a walk that may enter so many of them and passes by
what lies elsewhere comes to its end, whatever its visitor does, or stops at such a
discriminant (`visitSpot_stops`).
-/

namespace ShapeCode

namespace Scene

/-- The first lane selects variant `v`, if the spot is a union. -/
def Selects (s : Scene) (x : Spot) (v : Nat) : Prop :=
  ∀ id u, x.node = .union id → s.tables.union id = .ok u →
    ∃ more, s.discriminants u x.cursor = v :: more

theorem exists_selects (s : Scene) {x : Spot} (hlane : x.cursor ≠ []) :
    ∃ v, s.Selects x v := by
  obtain ⟨a, rest, hcursor⟩ := List.exists_cons_of_ne_nil hlane
  by_cases hunion : ∃ id u, x.node = .union id ∧ s.tables.union id = .ok u
  · obtain ⟨id, u, hid, hu⟩ := hunion
    refine ⟨(s.discriminants u x.cursor).headD 0, fun id' u' hid' hu' => ?_⟩
    obtain rfl := Node.union.inj (hid.symm.trans hid')
    obtain rfl := Except.ok.inj (hu.symm.trans hu')
    rw [hcursor]
    unfold discriminants
    split
    · exact ⟨_, rfl⟩
    · exact ⟨_, rfl⟩
  · exact ⟨0, fun id u hid hu => absurd ⟨id, u, hid, hu⟩ hunion⟩

end Scene

/-- There is a variant `v`, if the spot is a union. -/
def Spot.HasVariant (t : Tables) (x : Spot) (v : Nat) : Prop :=
  ∀ id u, x.node = .union id → t.union id = .ok u → v < u.variants.size

theorem Spot.not_hasVariant_iff {t : Tables} {x : Spot} {v : Nat} :
    ¬ x.HasVariant t v ↔
      ∃ id u, x.node = .union id ∧ t.union id = .ok u ∧ u.variants.size ≤ v := by
  simp only [HasVariant, not_forall, Nat.not_lt, exists_prop]

/-- A walk that got inside a spot selected an existing variant. -/
theorem Scene.hasVariant_of_inside {s : Scene} {x : Spot} {v : Nat} (hv : s.Selects x v)
    {ys : List Spot} (hys : s.inside x = .ok ys) : x.HasVariant s.tables v := by
  intro id u hid hu
  obtain ⟨more, hmore⟩ := hv id u hid hu
  simp only [inside, hid, hu, hmore] at hys
  obtain ⟨u', fields, hu', hfields, -⟩ := variantSpots_eq_ok hys
  obtain rfl := Except.ok.inj (hu.symm.trans hu')
  exact Union.lt_of_variant hfields

namespace Tables.Verified

variable {t : Tables} (ht : t.Verified)

include ht

/-! ## Inside a spot -/

/-- What is inside a spot does not depend on where its value stands and on what memory
holds, but for the variant that is selected. -/
theorem inside_slots (hhints : t.HintsWidest) (hmeasured : t.VariantsMeasured) {x : Spot}
    (hsound : x.Sound t) (hlayout : t.nodeLayout x.node x.inner = .ok x.layout) {v : Nat}
    (hv : x.HasVariant t v) :
    ∃ slots : List Slot, (∀ s ∈ slots, s.PartOf t x.layout) ∧ ∀ m c, c ≠ [] →
      (∀ a ∈ c, x.layout.Stands a) →
      (Scene.mk t m).Selects { x with cursor := c } v →
        (Scene.mk t m).inside { x with cursor := c } =
          .ok (slots.map fun s => s.spot c) := by
  obtain ⟨node, inner, c₀, l⟩ := x
  obtain ⟨hids, hone, hinner⟩ := hsound
  simp only at hids hone hinner hlayout
  cases node with
  | scalar | handle | pointer => exact ⟨[], by simp, fun _ _ _ _ _ => rfl⟩
  | record | resource =>
    obtain ⟨slots, hparts, hspots⟩ :=
      ht.range_slots false hinner Layout.isAlign_empty hlayout (.inr rfl)
    refine ⟨slots, hparts, fun m c _ hlanes _ => ?_⟩
    simpa only [Scene.inside, Layout.empty, Nat.add_zero, List.map_id'] using
      hspots c hlanes
  | union id =>
    have hu := Tables.union_of_lt hids
    obtain ⟨slots, hparts, hspots⟩ :=
      ht.variant_slots hhints hmeasured hu hlayout (hv id _ rfl hu)
    refine ⟨slots, hparts, fun m c _ hlanes hselects => ?_⟩
    obtain ⟨more, hmore⟩ := hselects id _ rfl hu
    simp only [Scene.inside, hu, hmore]
    exact hspots m c hlanes
  | run form plain elem =>
    cases form with
    | vec | unboxedVec | slice => exact ⟨[], by simp, fun _ _ _ _ _ => rfl⟩
    | fixedVec count =>
      obtain ⟨stride, -, hresolve, slots, hparts, hspots⟩ :=
        ht.fixedVec_slots hinner (hone rfl) hlayout
      refine ⟨slots, hparts, fun m c hc hlanes _ => ?_⟩
      simp only [Scene.inside, hresolve m c hlanes]
      exact hspots c hc hlanes

variable {m : Memory} {x : Spot}

/-- Inside a spot whose value may stand where it does stand the spots there, if the
selected variant exists. -/
theorem inside_of_stands (hhints : t.HintsWidest) (hmeasured : t.VariantsMeasured)
    (hx : x.Stands t) {v : Nat} (hselects : (Scene.mk t m).Selects x v)
    (hv : x.HasVariant t v) :
    ∃ ys, (Scene.mk t m).inside x = .ok ys ∧ ∀ y ∈ ys, y.Stands t := by
  obtain ⟨slots, hparts, hspots⟩ :=
    ht.inside_slots hhints hmeasured hx.sound hx.layout hv
  refine ⟨_, hspots m x.cursor hx.lane hx.lanes hselects, ?_⟩
  rw [List.forall_mem_map]
  intro s hs
  exact (hparts s hs).spot hx.lane hx.lanes

/-- Whatever is inside a spot whose value may stand where it does stands. -/
theorem stands_of_inside (hhints : t.HintsWidest) (hmeasured : t.VariantsMeasured)
    (hx : x.Stands t) {ys : List Spot} (hys : (Scene.mk t m).inside x = .ok ys) :
    ∀ y ∈ ys, y.Stands t := by
  obtain ⟨v, hselects⟩ := (Scene.mk t m).exists_selects hx.lane
  obtain ⟨ys', hys', hall⟩ :=
    ht.inside_of_stands hhints hmeasured hx hselects
      (Scene.hasVariant_of_inside hselects hys)
  obtain rfl := Except.ok.inj (hys'.symm.trans hys)
  exact hall

/-- A value that may stand where it does has spots, and these stand. -/
theorem root_stands {o : Outline} {l : Layout} {c : Cursor} (ho : o.Sound t)
    (hl : t.rangeLayout o .empty = .ok l) (hc : c ≠ [])
    (hlanes : ∀ a ∈ c, l.Stands a) :
    ∃ xs, Walk.spots t false o c false = .ok xs ∧ ∀ x ∈ xs, x.Stands t := by
  obtain ⟨slots, hparts, hspots⟩ :=
    ht.range_slots false ho Layout.isAlign_empty hl (.inr rfl)
  have hspots' := hspots c hlanes
  simp only [Layout.empty, Nat.add_zero, List.map_id'] at hspots'
  refine ⟨_, hspots', ?_⟩
  rw [List.forall_mem_map]
  intro s hs
  exact (hparts s hs).spot hc hlanes

/-- Whatever a walk visits in a value that may stand where it does stands. -/
theorem visited_stands (hhints : t.HintsWidest) (hmeasured : t.VariantsMeasured)
    {o : Outline} {l : Layout} {c : Cursor} (ho : o.Sound t)
    (hl : t.rangeLayout o .empty = .ok l) (hc : c ≠ []) (hlanes : ∀ a ∈ c, l.Stands a)
    (hx : (Scene.mk t m).Visited o c x) : x.Stands t := by
  induction hx with
  | @root xs x hxs hmem =>
    obtain ⟨xs', hxs', hall⟩ := ht.root_stands ho hl hc hlanes
    obtain rfl := Except.ok.inj (hxs'.symm.trans hxs)
    exact hall x hmem
  | @inside x y ys _ hys hmem ih => exact ht.stands_of_inside hhints hmeasured ih hys y hmem

end Tables.Verified

/-! ## The end of a walk -/

/-- What is found at a spot that stands and stores its contents inline. -/
theorem Tables.Verified.content_of_stands {t : Tables} (ht : t.Verified) {m : Memory}
    {x : Spot} (hx : x.Stands t) (hinline : x.node.isInline = true) :
    ∃ content, (Scene.mk t m).content x.node x.inner x.cursor = .ok content := by
  obtain ⟨node, inner, c, l⟩ := x
  obtain ⟨⟨hids, hone, hinner⟩, hlayout, -, hlanes⟩ := hx
  simp only at hids hone hinner hlayout hlanes
  cases node with
  | scalar | handle | record | resource => exact ⟨.plain, rfl⟩
  | pointer => cases hinline
  | union id => exact ⟨_, by simp only [Scene.content, Tables.union_of_lt hids]; rfl⟩
  | run form plain elem =>
    cases form with
    | vec | unboxedVec | slice => cases hinline
    | fixedVec count =>
      obtain ⟨stride, -, hresolve, -⟩ := ht.fixedVec_slots hinner (hone rfl) hlayout
      exact ⟨_, by simp only [Scene.content, hresolve m c hlanes]; rfl⟩

namespace Scene

/-- A walk over the spot stops because a discriminant under it selects no variant. -/
def Stops (s : Scene) (x : Spot) (h : Halt) : Prop :=
  ∃ y v count, s.Under x y ∧ s.Selects y v ∧ ¬ y.HasVariant s.tables v ∧
    h = .fault (.unknownVariant v count)

theorem Stops.of_inside {s : Scene} {x y : Spot} {ys : List Spot} {h : Halt}
    (hstops : s.Stops y h) (hys : s.inside x = .ok ys) (hy : y ∈ ys) : s.Stops x h := by
  obtain ⟨z, v, count, hunder, hrest⟩ := hstops
  exact ⟨z, v, count, under_iff.2 (.inr ⟨ys, hys, y, hy, hunder⟩), hrest⟩

end Scene

namespace Walk

variable {σ : Type} {s : Scene} {v : Visitor σ} {depth : Nat}

/-- What stops the visits of spots in order stops the visit of one of them. -/
theorem exists_of_visitAll {xs : List Spot} {st : σ} {h : Halt}
    (herror : visitAll s v depth xs st = .error h) :
    ∃ x ∈ xs, ∃ st, visitSpot s v depth x st = .error h := by
  induction xs generalizing st with
  | nil => cases herror
  | cons x rest ih =>
    simp only [visitAll] at herror
    split at herror
    · rename_i hfirst
      obtain rfl := Except.error.inj herror
      exact ⟨x, List.mem_cons_self, st, hfirst⟩
    · obtain ⟨y, hy, hst⟩ := ih herror
      exact ⟨y, List.mem_cons_of_mem x hy, hst⟩

/-- Without the selected variant there is no way into a union. -/
theorem inside_of_not_hasVariant (v : Visitor σ) (depth : Nat) {x : Spot}
    {content : Content} {selected : Nat} {id : UInt16} {u : Union}
    (hcontent : s.content x.node x.inner x.cursor = .ok content)
    (hselects : s.Selects x selected) (hid : x.node = .union id)
    (hu : s.tables.union id = .ok u) (hout : u.variants.size ≤ selected) (st : σ) :
    inside s v (variant s v depth)
      (fun c st => (range s v (variant s v depth) true x.inner c false st).map Prod.fst)
      (fun c st => (range s v (variant s v depth) false x.inner c false st).map Prod.fst)
      x.node x.inner content x.cursor st =
        .error (if depth = 0 then .tooDeep
          else .fault (.unknownVariant selected u.variants.size)) := by
  obtain ⟨more, hmore⟩ := hselects id u hid hu
  simp only [hid, Scene.content, hu, hmore] at hcontent
  obtain rfl := Except.ok.inj hcontent
  have hfault : u.variant selected = .error (.unknownVariant selected u.variants.size) := by
    simp [Union.variant, Array.getElem?_eq_none hout]
  cases depth with
  | zero => simp only [hid, inside, variant, if_true]
  | succ depth =>
    simp only [hid, inside, variant, hu, hfault, if_neg (Nat.succ_ne_zero depth)]

/-- If the contents of the spot lie elsewhere, they can be found, and the visitor
does not go there. -/
def PassesBy (s : Scene) (v : Visitor σ) (x : Spot) : Prop :=
  x.node.isInline = false →
    ∃ content, s.content x.node x.inner x.cursor = .ok content ∧
      ∀ st, (v.enter x.node x.cursor content st).2 = false

theorem PassesBy.of_isInline {x : Spot} (h : x.node.isInline = true) : PassesBy s v x :=
  fun helsewhere => absurd (h.symm.trans helsewhere) (by decide)

theorem PassesBy.visitSpot_eq_ok {x : Spot} (h : PassesBy s v x)
    (helsewhere : x.node.isInline = false) (st : σ) :
    ∃ st', visitSpot s v depth x st = .ok st' := by
  obtain ⟨content, hcontent, hskips⟩ := h helsewhere
  simp only [visitSpot, visit, hcontent]
  split
  · have hskip := hskips st
    split
    · exact ⟨_, rfl⟩
    · rename_i henter
      rw [henter] at hskip
      cases hskip
  · exact ⟨st, rfl⟩

/-- Where unions nest less deep than a walk may go, nothing keeps it from the end of a
value that stands but a discriminant that selects no variant. -/
theorem visitSpot_stops {t : Tables} {m : Memory} (ht : t.Verified) (hhints : t.HintsWidest)
    (hmeasured : t.VariantsMeasured) {x : Spot} (hx : x.Stands t)
    (hpasses : ∀ y, (Scene.mk t m).Under x y → PassesBy ⟨t, m⟩ v y)
    (hnests : x.Nests t depth) {st : σ} {h : Halt}
    (herror : visitSpot ⟨t, m⟩ v depth x st = .error h) : (Scene.mk t m).Stops x h := by
  revert hx hpasses hnests st
  refine visit_induction (s := Scene.mk t m) (p := fun depth x => x.Stands t →
    (∀ y, (Scene.mk t m).Under x y → PassesBy ⟨t, m⟩ v y) → x.Nests t depth →
      ∀ {st : σ}, visitSpot ⟨t, m⟩ v depth x st = .error h →
        (Scene.mk t m).Stops x h) ?_ depth x
  intro depth x ih hx hpasses hnests st herror
  have hinline : x.node.isInline = true := by
    by_contra helsewhere
    obtain ⟨st', hst'⟩ :=
      (hpasses x .refl).visitSpot_eq_ok (Bool.eq_false_iff.2 helsewhere) st
    rw [herror] at hst'
    cases hst'
  obtain ⟨content, hcontent⟩ := ht.content_of_stands (m := m) hx hinline
  obtain ⟨selected, hselects⟩ := (Scene.mk t m).exists_selects hx.lane
  have hdepth := hnests.depth_pos
  unfold visitSpot visit at herror
  split at herror
  · simp only [hcontent] at herror
    split at herror
    · cases herror
    · split at herror
      · rename_i hgo
        obtain rfl := Except.error.inj herror
        by_cases hv : x.HasVariant t selected
        · -- The way inside is open, so one of the spots there stops the walk.
          obtain ⟨ys, hys, hall⟩ := ht.inside_of_stands hhints hmeasured hx hselects hv
          rw [inside_eq_visitAll hinline hcontent hys hdepth] at hgo
          obtain ⟨y, hy, st', hvisit⟩ := exists_of_visitAll hgo
          have hstops : (Scene.mk t m).Stops y _ :=
            ih ys hys hdepth y hy (hall y hy)
              (fun z hz => hpasses z (Scene.under_iff.2 (.inr ⟨ys, hys, y, hy, hz⟩)))
              (hnests.inside hys y hy) hvisit
          exact hstops.of_inside hys hy
        · obtain ⟨id, u, hid, hu, hout⟩ := Spot.not_hasVariant_iff.1 hv
          rw [inside_of_not_hasVariant v depth hcontent hselects hid hu hout,
            if_neg (Nat.ne_of_gt (hdepth id hid))] at hgo
          exact ⟨x, selected, _, .refl, hselects, hv, (Except.error.inj hgo).symm⟩
      · cases herror
  · cases herror

end Walk

namespace Image

variable {l : Layout} {first : Bytes}

/-- An image that is held at either address may stand there. -/
theorem stands_address (halign : Word.IsAlign l.align)
    (hroom : address + l.size + 16 ≤ Word.limit) : l.Stands address :=
  ⟨hroom, fun _ => align_dvd_address halign⟩

theorem stands_secondAddress (halign : Word.IsAlign l.align)
    (hroom : secondAddress first + l.size + 16 ≤ Word.limit) :
    l.Stands (secondAddress first) :=
  ⟨hroom, fun _ => Nat.dvd_mul_left_of_dvd (align_dvd_address halign) _⟩

end Image

/-- A walk over a value that may stand where it does ends, or a discriminant that it
visits selects no variant. -/
theorem Walk.run_stops {σ : Type} {t : Tables} {m : Memory} {v : Visitor σ}
    (ht : t.Verified) (hhints : t.HintsWidest) (hmeasured : t.VariantsMeasured)
    {o : Outline} {l : Layout} {c : Cursor} (ho : o.Sound t)
    (hl : t.rangeLayout o .empty = .ok l) (hc : c ≠ []) (hlanes : ∀ a ∈ c, l.Stands a)
    (hpasses : ∀ x, (Scene.mk t m).Visited o c x → PassesBy ⟨t, m⟩ v x)
    {depth : Nat} (hdepth : t.unions.size ≤ depth) {st : σ} {h : Halt}
    (herror : run ⟨t, m⟩ v depth o c st = .error h) :
    ∃ x selected count, (Scene.mk t m).Visited o c x ∧
      (Scene.mk t m).Selects x selected ∧
      ¬ x.HasVariant t selected ∧ h = .fault (.unknownVariant selected count) := by
  obtain ⟨xs, hxs, hall⟩ := ht.root_stands ho hl hc hlanes
  have hrun : visitAll ⟨t, m⟩ v depth xs st = .error h :=
    (range_eq_visitAll hxs st).symm.trans herror
  obtain ⟨x, hx, st', hvisit⟩ := exists_of_visitAll hrun
  obtain ⟨y, selected, count, hunder, hrest⟩ :=
    visitSpot_stops ht hhints hmeasured (hall x hx)
      (fun y hy => hpasses y (Scene.visited_iff.2 ⟨xs, hxs, x, hx, hy⟩))
      (ht.spot_nests ho (has_of_spots hxs x hx) hdepth) hvisit
  exact ⟨y, selected, count, Scene.visited_iff.2 ⟨xs, hxs, x, hx, hunder⟩, hrest⟩

end ShapeCode
