import Mathlib.Data.List.Forall2
import ShapeCode.Proofs.Contents
import ShapeCode.Proofs.InlinePlaces

set_option autoImplicit false

/-!
# A flat value is its bytes

Two addresses hold copies of a value if the same bytes stand there, as many as the value
is measured to take (`Copy`).  Every part of a value is copied with it
(`Slot.PartOf.copy`), so what a walk finds at a spot of one copy it finds at the same
spot of the other, in every lane, and goes inside alike.  Two visitors that do the same
with copies (`Visitor.SameOnCopies`), such as those that write and order values,
therefore come to the same end (`run_copied`): with the same answer, or at the same
discriminant that selects no variant.

The copies stand in memories of their own and at addresses of their own.  What else
the memories hold does not matter, nor does how many unions the walks may enter, as
long as there are enough.
-/

namespace ShapeCode

/-! ## Copies of bytes -/

/-- The memories hold the same bytes of a value of the layout at two addresses
where it may stand. -/
structure Copy (l : Layout) (m m' : Memory) (a a' : Nat) : Prop where
  left : l.Stands a
  right : l.Stands a'
  same : ∀ i < l.size, m.byteAt (a + i) = m'.byteAt (a' + i)

namespace Copy

variable {l : Layout} {m m' : Memory} {a a' n : Nat}

theorem byteAt_wrap (h : Copy l m m' a a') {i : Nat} (hi : i < l.size) :
    m.byteAt (Word.wrap (a + i)) = m'.byteAt (Word.wrap (a' + i)) := by
  have hleft := h.left.room
  have hright := h.right.room
  rw [Word.wrap_of_lt (by omega), Word.wrap_of_lt (by omega)]
  exact h.same i hi

theorem bytes_eq (h : Copy l m m' a a') (hn : n ≤ l.size) : m.bytes a n = m'.bytes a' n :=
  Memory.bytes_congr fun _ hi => h.byteAt_wrap (Nat.lt_of_lt_of_le hi hn)

theorem number_eq (h : Copy l m m' a a') (hn : n ≤ l.size) :
    m.number n a = m'.number n a' :=
  Memory.number_congr fun _ hi => h.byteAt_wrap (Nat.lt_of_lt_of_le hi hn)

/-- The first of two lists of lanes that are copied one by one may all be where they are. -/
theorem left_of_lanes {c c' : Cursor} (h : List.Forall₂ (Copy l m m') c c') :
    ∀ a ∈ c, l.Stands a := by
  intro a ha
  obtain ⟨i, hi, rfl⟩ := List.getElem_of_mem ha
  exact (h.get hi (by rw [← h.length_eq]; exact hi)).left

theorem right_of_lanes {c c' : Cursor} (h : List.Forall₂ (Copy l m m') c c') :
    ∀ a' ∈ c', l.Stands a' := by
  intro a' ha'
  obtain ⟨i, hi, rfl⟩ := List.getElem_of_mem ha'
  exact (h.get (by rw [h.length_eq]; exact hi) hi).right

end Copy

/-- A part of a value is copied with the value. -/
theorem Slot.PartOf.copy {t : Tables} {l : Layout} {s : Slot} (h : s.PartOf t l)
    {m m' : Memory} {a a' : Nat} (hcopy : Copy l m m' a a') :
    Copy s.layout m m' (s.place a) (s.place a') where
  left := h.stands a hcopy.left
  right := h.stands a' hcopy.right
  same := by
    intro i hi
    obtain ⟨j, hj, hplace⟩ := h.bytes i hi
    rw [hplace a hcopy.left, hplace a' hcopy.right]
    exact hcopy.same j hj

/-! ## Copies of spots -/

/-- Every lane of the spot is copied to a lane of the cursor. -/
structure Spot.Copied (t : Tables) (m m' : Memory) (x : Spot) (c : Cursor) : Prop where
  stands : x.Stands t
  lanes : List.Forall₂ (Copy x.layout m m') x.cursor c

namespace Spot.Copied

variable {t : Tables} {m m' : Memory} {x : Spot} {c : Cursor}

theorem lane (h : x.Copied t m m' c) : c ≠ [] := by
  have hlength := h.lanes.length_eq
  have hpos := List.length_pos_iff.2 h.stands.lane
  exact List.length_pos_iff.1 (by omega)

theorem stands_copy (h : x.Copied t m m' c) : Spot.Stands t { x with cursor := c } where
  sound := ⟨h.stands.sound.ids, h.stands.sound.single, h.stands.sound.inner⟩
  layout := h.stands.layout
  lane := h.lane
  lanes := Copy.right_of_lanes h.lanes

theorem head (h : x.Copied t m m' c) :
    Copy x.layout m m' (x.cursor.headD 0) (c.headD 0) := by
  obtain ⟨a, rest, hcursor⟩ := List.exists_cons_of_ne_nil h.stands.lane
  have hlanes := h.lanes
  rw [hcursor] at hlanes ⊢
  cases hlanes with
  | cons hfirst _ => exact hfirst

/-- What is computed lane by lane from the bytes of the value is the same. -/
theorem map_eq {α : Type} {f g : Nat → α} (h : x.Copied t m m' c)
    (hfg : ∀ a a', Copy x.layout m m' a a' → f a = g a') :
    x.cursor.map f = c.map g := by
  obtain ⟨-, hlanes⟩ := h
  generalize x.cursor = lanes at hlanes
  induction hlanes with
  | nil => rfl
  | cons hfirst _ ih => rw [List.map_cons, List.map_cons, hfg _ _ hfirst, ih]

/-- A union has the same discriminants in the copy. -/
theorem discriminants_eq (ht : t.Verified) (hhints : t.HintsWidest) (h : x.Copied t m m' c)
    {id : UInt16} {u : Union} (hid : x.node = .union id) (hu : t.union id = .ok u) :
    (Scene.mk t m).discriminants u x.cursor = (Scene.mk t m').discriminants u c := by
  unfold Scene.discriminants
  split
  · rename_i hd
    have hlayout := h.stands.layout
    rw [hid] at hlayout
    have hhead := ht.unionHead_le_union hhints hu hlayout
    simp only [Measure.unionHead, hd, if_true, Placement.discriminant] at hhead
    exact h.map_eq fun _ _ hcopy => hcopy.number_eq hhead
  · exact h.map_eq fun _ _ _ => rfl

theorem selects (ht : t.Verified) (hhints : t.HintsWidest) (h : x.Copied t m m' c) {v : Nat}
    (hv : (Scene.mk t m).Selects x v) :
    (Scene.mk t m').Selects { x with cursor := c } v := by
  intro id u hid hu
  obtain ⟨more, hmore⟩ := hv id u hid hu
  exact ⟨more, (h.discriminants_eq ht hhints hid hu).symm.trans hmore⟩

end Spot.Copied

/-- The slots of a copied value are copied with it. -/
theorem Slot.PartOf.copied {t : Tables} {m m' : Memory} {l : Layout} {s : Slot}
    (h : s.PartOf t l) {c c' : Cursor} (hc : c ≠ [])
    (hlanes : List.Forall₂ (Copy l m m') c c') :
    (s.spot c).Copied t m m' (c'.map s.place) where
  stands := h.spot hc (Copy.left_of_lanes hlanes)
  lanes := by
    simp only [Slot.spot, List.forall₂_map_left_iff, List.forall₂_map_right_iff]
    exact hlanes.imp fun a a' hcopy => h.copy hcopy

/-! ## Walks over copies -/

/-- The visitors do the same at a spot and at its copy. -/
structure Visitor.SameOnCopies {σ : Type} (t : Tables) (m m' : Memory)
    (v v' : Visitor σ) : Prop where
  attends : v.attends = v'.attends
  enter : ∀ {x : Spot} {c : Cursor} {content content' : Content}, x.Copied t m m' c →
    x.node.isFlat = true →
    (Scene.mk t m).content x.node x.inner x.cursor = .ok content →
      (Scene.mk t m').content x.node x.inner c = .ok content' →
        v.enter x.node x.cursor content = v'.enter x.node c content'
  leave : ∀ {x : Spot} {c : Cursor} {content content' : Content}, x.Copied t m m' c →
    x.node.isFlat = true →
    (Scene.mk t m).content x.node x.inner x.cursor = .ok content →
      (Scene.mk t m').content x.node x.inner c = .ok content' →
        v.leave x.node content = v'.leave x.node content'

namespace Walk

variable {σ : Type} {t : Tables} {m m' : Memory} {v v' : Visitor σ}

theorem visitAll_copied {slots : List Slot} {c c' : Cursor} {depth depth' : Nat}
    (h : ∀ s ∈ slots, ∀ st, visitSpot ⟨t, m⟩ v depth (s.spot c) st =
      visitSpot ⟨t, m'⟩ v' depth' (s.spot c') st)
    (st : σ) : visitAll ⟨t, m⟩ v depth (slots.map fun s => s.spot c) st =
      visitAll ⟨t, m'⟩ v' depth' (slots.map fun s => s.spot c') st := by
  induction slots generalizing st with
  | nil => rfl
  | cons s rest ih =>
    rw [List.forall_mem_cons] at h
    simp only [List.map_cons, visitAll, h.1 st]
    cases visitSpot ⟨t, m'⟩ v' depth' (s.spot c') st with
    | error h => rfl
    | ok st => exact ih h.2 st

variable (ht : t.Verified) (hhints : t.HintsWidest) (hmeasured : t.VariantsMeasured)

include ht hhints hmeasured

/-- A walk comes to the same end at a spot and at its copy, if it may
enter enough unions. -/
theorem visitSpot_copied (hsame : Visitor.SameOnCopies t m m' v v') {x : Spot} {c : Cursor}
    (hx : x.Copied t m m' c)
    (hflat : ∀ y, (Scene.mk t m).Under x y → y.node.isFlat = true) {depth depth' : Nat}
    (hnests : x.Nests t depth) (hnests' : x.Nests t depth') (st : σ) :
    visitSpot ⟨t, m⟩ v depth x st =
        visitSpot ⟨t, m'⟩ v' depth' { x with cursor := c } st := by
  revert hx hflat hnests hnests' st c depth'
  refine visit_induction (s := Scene.mk t m) (p := fun depth x =>
    ∀ {c : Cursor}, x.Copied t m m' c →
    (∀ y, (Scene.mk t m).Under x y → y.node.isFlat = true) →
      ∀ {depth' : Nat}, x.Nests t depth → x.Nests t depth' →
      ∀ st : σ, visitSpot ⟨t, m⟩ v depth x st =
        visitSpot ⟨t, m'⟩ v' depth' { x with cursor := c } st) ?_ depth x
  intro depth x ih c hx hflat depth' hnests hnests' st
  have hxflat := hflat x .refl
  have hinline := Node.isInline_of_isFlat hxflat
  obtain ⟨content, hcontent⟩ := ht.content_of_stands (m := m) hx.stands hinline
  obtain ⟨content', hcontent'⟩ := ht.content_of_stands (m := m') hx.stands_copy hinline
  obtain ⟨selected, hselects⟩ := (Scene.mk t m).exists_selects hx.stands.lane
  have hselects' := hx.selects ht hhints hselects
  -- Both walks go inside to the same slots, or stop at the same discriminant.
  have hinside : ∀ st, inside ⟨t, m⟩ v (variant ⟨t, m⟩ v depth)
      (fun c st => (range ⟨t, m⟩ v (variant ⟨t, m⟩ v depth) true x.inner
        c false st).map Prod.fst)
      (fun c st => (range ⟨t, m⟩ v (variant ⟨t, m⟩ v depth) false x.inner
        c false st).map Prod.fst)
      x.node x.inner content x.cursor st =
        inside ⟨t, m'⟩ v' (variant ⟨t, m'⟩ v' depth')
          (fun c st => (range ⟨t, m'⟩ v' (variant ⟨t, m'⟩ v' depth') true x.inner
            c false st).map Prod.fst)
          (fun c st => (range ⟨t, m'⟩ v' (variant ⟨t, m'⟩ v' depth') false x.inner
            c false st).map Prod.fst)
          x.node x.inner content' c st := by
    intro st
    by_cases hv : x.HasVariant t selected
    · obtain ⟨slots, hparts, hspots⟩ :=
        ht.inside_slots hhints hmeasured hx.stands.sound hx.stands.layout hv
      have hys := hspots m x.cursor hx.stands.lane hx.stands.lanes hselects
      have hys' := hspots m' c hx.lane hx.stands_copy.lanes hselects'
      rw [inside_eq_visitAll hinline hcontent hys hnests.depth_pos st, inside_eq_visitAll
        (x := { x with cursor := c }) hinline hcontent' hys' hnests'.depth_pos st]
      refine visitAll_copied (fun s hs st => ?_) st
      have hmem : s.spot x.cursor ∈ slots.map fun s => s.spot x.cursor :=
        List.mem_map.2 ⟨s, hs, rfl⟩
      exact ih _ hys hnests.depth_pos _ hmem ((hparts s hs).copied hx.stands.lane hx.lanes)
        (fun z hz => hflat z (Scene.under_iff.2 (.inr ⟨_, hys, _, hmem, hz⟩)))
          (hnests.inside hys _ hmem)
        (hnests'.inside hys _ hmem) st
    · obtain ⟨id, u, hid, hu, hout⟩ := Spot.not_hasVariant_iff.1 hv
      have hstop := inside_of_not_hasVariant v depth hcontent hselects hid hu hout st
      have hstop' :=
        inside_of_not_hasVariant (x := { x with cursor := c }) v' depth' hcontent'
          hselects' hid hu hout st
      rw [if_neg (Nat.ne_of_gt (hnests.depth_pos id hid))] at hstop
      rw [if_neg (Nat.ne_of_gt (hnests'.depth_pos id hid))] at hstop'
      exact hstop.trans hstop'.symm
  simp only [visitSpot, visit, hsame.attends, hcontent, hcontent',
    hsame.enter hx hxflat hcontent hcontent', hsame.leave hx hxflat hcontent hcontent',
    hinside]

/-- A walk comes to the same end over a value and over its copy, if it may
enter enough unions. -/
theorem run_copied (hsame : Visitor.SameOnCopies t m m' v v') {o : Outline} {l : Layout}
    {c c' : Cursor} (ho : o.Sound t) (hl : t.rangeLayout o .empty = .ok l) (hc : c ≠ [])
    (hlanes : List.Forall₂ (Copy l m m') c c')
    (hflat : ∀ x, (Scene.mk t m).Visited o c x → x.node.isFlat = true)
    {depth depth' : Nat} (hdepth : t.unions.size ≤ depth)
    (hdepth' : t.unions.size ≤ depth') (st : σ) :
    run ⟨t, m⟩ v depth o c st = run ⟨t, m'⟩ v' depth' o c' st := by
  obtain ⟨slots, hparts, hspots⟩ :=
    ht.range_slots false ho Layout.isAlign_empty hl (.inr rfl)
  simp only [Layout.empty, Nat.add_zero, List.map_id'] at hspots
  have hxs := hspots c (Copy.left_of_lanes hlanes)
  have hxs' := hspots c' (Copy.right_of_lanes hlanes)
  have hvisit : ∀ s ∈ slots, ∀ st, visitSpot ⟨t, m⟩ v depth (s.spot c) st =
      visitSpot ⟨t, m'⟩ v' depth' (s.spot c') st := by
    intro s hs
    have hmem : s.spot c ∈ slots.map fun s => s.spot c := List.mem_map.2 ⟨s, hs, rfl⟩
    have hhas := has_of_spots hxs _ hmem
    exact visitSpot_copied ht hhints hmeasured hsame ((hparts s hs).copied hc hlanes)
      (fun y hy => hflat y (Scene.visited_iff.2 ⟨_, hxs, _, hmem, hy⟩))
        (ht.spot_nests ho hhas hdepth)
      (ht.spot_nests ho hhas hdepth')
  calc run ⟨t, m⟩ v depth o c st =
      visitAll ⟨t, m⟩ v depth (slots.map fun s => s.spot c) st :=
        range_eq_visitAll hxs st
    _ = visitAll ⟨t, m'⟩ v' depth' (slots.map fun s => s.spot c') st :=
      visitAll_copied hvisit st
    _ = run ⟨t, m'⟩ v' depth' o c' st := (range_eq_visitAll hxs' st).symm

end Walk

/-! ## Writing and ordering copies -/

/-- The elements of a fixed vector are the bytes that it is measured to take,
from each lane on. -/
theorem Tables.Verified.span_of_content {t : Tables} (ht : t.Verified) {m : Memory}
    {form : RunForm} {plain : Bool} {elem : Bytes} {inner : Outline} {c : Cursor}
    {l : Layout} (hx : Spot.Stands t ⟨.run form plain elem, inner, c, l⟩)
    (hinline : Node.isInline (.run form plain elem) = true) {content : Content}
    (hcontent : (Scene.mk t m).content (.run form plain elem) inner c = .ok content) :
    ∃ stride, content = .run ⟨form, plain, elem, stride, c, c.map (· + l.size)⟩ := by
  cases form with
  | vec | unboxedVec | slice => cases hinline
  | fixedVec count =>
    obtain ⟨stride, -, hresolve, -⟩ :=
      ht.fixedVec_slots hx.sound.inner (hx.sound.single rfl) hx.layout
    obtain ⟨span, hspan, rfl⟩ := Scene.content_run_eq_ok_iff.1 hcontent
    obtain rfl := Except.ok.inj ((hresolve m c hx.lanes).symm.trans hspan)
    exact ⟨stride, rfl⟩

theorem Cursor.distance_add (c : Cursor) (n : Nat) :
    c.distance (c.map (· + n)) = c.map fun _ => n := by
  rw [distance, List.zipWith_map_right, List.zipWith_self]
  simp

/-- The bytes of a run that stops `n` bytes behind each lane. -/
theorem ValueText.spanBytes_eq {m : Memory} {form : RunForm} {plain : Bool} {elem : Bytes}
    {stride n : Nat} {c : Cursor} (hc : c ≠ []) :
    spanBytes m ⟨form, plain, elem, stride, c, c.map (· + n)⟩ =
        m.bytes (c.headD 0) n := by
  obtain ⟨a, rest, rfl⟩ := List.exists_cons_of_ne_nil hc
  rw [spanBytes, Cursor.distance_add]
  rfl

section Visitors

variable {t : Tables} {m m' : Memory}

/-- Copies are written alike. -/
theorem ValueText.sameOnCopies (ht : t.Verified) (hhints : t.HintsWidest) :
    Visitor.SameOnCopies t m m' (visitor m) (visitor m') where
  attends := rfl
  leave _ _ _ _ := rfl
  enter := by
    rintro ⟨node, inner, lanes, l⟩ c content content' hx hflat hcontent hcontent'
    funext p
    simp only at hflat hcontent hcontent' ⊢
    have hlayout := hx.stands.layout
    cases node with
    | scalar s =>
      obtain rfl : s.layout = l := Except.ok.inj hlayout
      have hnumber : s.number m (lanes.headD 0) = s.number m' (c.headD 0) :=
        hx.head.number_eq (Nat.le_refl _)
      simp only [visitor, enter, hnumber]
    | handle | pointer => cases hflat
    | record | resource => rfl
    | union id =>
      obtain ⟨u, hu, rfl⟩ := Scene.content_union_eq_ok_iff.1 hcontent
      obtain ⟨u', hu', rfl⟩ := Scene.content_union_eq_ok_iff.1 hcontent'
      obtain rfl := Except.ok.inj (hu.symm.trans hu')
      have hdiscriminants := hx.discriminants_eq ht hhints rfl hu
      simp only at hdiscriminants
      rw [hdiscriminants]
      rfl
    | run form plain elem =>
      obtain ⟨stride, rfl⟩ := ht.span_of_content hx.stands hflat hcontent
      obtain ⟨stride', rfl⟩ := ht.span_of_content hx.stands_copy hflat hcontent'
      have hbytes : m.bytes (lanes.headD 0) l.size = m'.bytes (c.headD 0) l.size :=
        hx.head.bytes_eq (Nat.le_refl _)
      have hlane : lanes ≠ [] := hx.stands.lane
      simp only [visitor, enter, Span.isBytes, spanBytes_eq hlane,
        spanBytes_eq hx.lane, hbytes]

theorem ValueOrder.scalars_eq {s : Scalar} {c c' : Cursor}
    (h : List.Forall₂ (Copy s.layout m m') c c') : scalars m s c = scalars m' s c' := by
  have hnumber : ∀ {a a' : Nat}, Copy s.layout m m' a a' →
      s.number m a = s.number m' a' :=
    fun hcopy => hcopy.number_eq (Nat.le_refl _)
  match h with
  | .nil | .cons _ .nil => rfl
  | .cons hfirst (.cons hsecond .nil) =>
    simp only [scalars, hnumber hfirst, hnumber hsecond]
  | .cons _ (.cons _ (.cons _ _)) => rfl

/-- Copies are ordered alike. -/
theorem ValueOrder.sameOnCopies (ht : t.Verified) (hhints : t.HintsWidest) :
    Visitor.SameOnCopies t m m' (visitor m) (visitor m') where
  attends := rfl
  leave := by
    rintro ⟨node, inner, lanes, l⟩ c content content' hx hflat hcontent hcontent'
    simp only at hflat hcontent hcontent'
    cases node with
    | scalar | record | resource =>
      obtain rfl := Except.ok.inj hcontent
      obtain rfl := Except.ok.inj hcontent'
      rfl
    | handle | pointer => cases hflat
    | union id =>
      obtain ⟨u, -, rfl⟩ := Scene.content_union_eq_ok_iff.1 hcontent
      obtain ⟨u', -, rfl⟩ := Scene.content_union_eq_ok_iff.1 hcontent'
      rfl
    | run form plain elem =>
      obtain ⟨stride, rfl⟩ := ht.span_of_content hx.stands hflat hcontent
      obtain ⟨stride', rfl⟩ := ht.span_of_content hx.stands_copy hflat hcontent'
      have hlengths : (lanes.map fun _ => l.size) = c.map fun _ => l.size :=
        hx.map_eq fun _ _ _ => rfl
      funext sofar
      simp only [visitor, leave, Cursor.distance_add, hlengths]
  enter := by
    rintro ⟨node, inner, lanes, l⟩ c content content' hx hflat hcontent hcontent'
    funext sofar
    simp only at hflat hcontent hcontent' ⊢
    have hlayout := hx.stands.layout
    cases node with
    | scalar s =>
      obtain rfl : s.layout = l := Except.ok.inj hlayout
      have hscalars : scalars m s lanes = scalars m' s c := scalars_eq hx.lanes
      simp only [visitor, enter, hscalars]
    | handle | pointer => cases hflat
    | record | resource => rfl
    | union id =>
      obtain ⟨u, hu, rfl⟩ := Scene.content_union_eq_ok_iff.1 hcontent
      obtain ⟨u', hu', rfl⟩ := Scene.content_union_eq_ok_iff.1 hcontent'
      obtain rfl := Except.ok.inj (hu.symm.trans hu')
      have hdiscriminants := hx.discriminants_eq ht hhints rfl hu
      simp only at hdiscriminants
      rw [hdiscriminants]
      rfl
    | run form plain elem =>
      obtain ⟨stride, rfl⟩ := ht.span_of_content hx.stands hflat hcontent
      obtain ⟨stride', rfl⟩ := ht.span_of_content hx.stands_copy hflat hcontent'
      rfl

end Visitors

/-! ## Flat values -/

namespace Descriptor

variable {d : Descriptor} {l : Layout} {m m' : Memory} {p p' q q' : Nat}

section Copied

variable (hv : d.Verified) (hflat : d.outline.isFlat d.tables = .ok true)
  (hl : d.outline.layout d.tables = .ok l)
  (hmeasured : d.tables.VariantsMeasured) (hhints : d.tables.HintsWidest)

include hv hflat hl hmeasured hhints

/-- A copy of a flat value has the same text. -/
theorem render_copied (hp : Copy l m m' p p') {depth depth' : Nat}
    (hdepth : d.tables.unions.size ≤ depth) (hdepth' : d.tables.unions.size ≤ depth') :
    (Scene.mk d.tables m).render depth d.outline p =
        (Scene.mk d.tables m').render depth' d.outline p' := by
  have hrun :=
    Walk.run_copied hv.tables hhints hmeasured (ValueText.sameOnCopies hv.tables hhints)
      hv.root (hv.rangeLayout_root hl) (List.cons_ne_nil p []) (.cons hp .nil)
      (fun x hx => Outline.visited_isFlat hv.tables.sound hv.root hflat hx)
      hdepth hdepth' Phrase.empty
  exact congrArg (Except.map Phrase.text) hrun

/-- Copies of two flat values are in the same order. -/
theorem compare_copied (hp : Copy l m m' p p') (hq : Copy l m m' q q') {depth depth' : Nat}
    (hdepth : d.tables.unions.size ≤ depth) (hdepth' : d.tables.unions.size ≤ depth') :
    (Scene.mk d.tables m).compare depth d.outline p q =
        (Scene.mk d.tables m').compare depth' d.outline p' q' :=
  Walk.run_copied hv.tables hhints hmeasured
    (ValueOrder.sameOnCopies hv.tables hhints) hv.root
    (hv.rangeLayout_root hl) (List.cons_ne_nil p [q]) (.cons hp (.cons hq .nil))
    (fun _ hx => Outline.visited_isFlat hv.tables.sound hv.root hflat hx) hdepth hdepth' .eq

/-- Nothing keeps a walk from the end of a flat value but a discriminant that
selects no variant. -/
theorem flat_stops {σ : Type} {v : Visitor σ} {c : Cursor} (hc : c ≠ [])
    (hlanes : ∀ a ∈ c, l.Stands a) {depth : Nat}
    (hdepth : d.tables.unions.size ≤ depth) {st : σ} {h : Halt}
    (herror : Walk.run ⟨d.tables, m⟩ v depth d.outline c st = .error h) :
    ∃ selected count, h = .fault (.unknownVariant selected count) := by
  obtain ⟨-, selected, count, -, -, -, heq⟩ :=
    Walk.run_stops hv.tables hhints hmeasured hv.root (hv.rangeLayout_root hl) hc hlanes
      (fun x hx => .of_isInline (Node.isInline_of_isFlat
        (Outline.visited_isFlat hv.tables.sound hv.root hflat hx))) hdepth herror
  exact ⟨selected, count, heq⟩

end Copied

/-- A flat value is its bytes.  Wherever the bytes of a value stand, in whatever memory,
its text is the same; and so is the order of two values.  The only other outcome, of
both or of neither, is that a discriminant in the bytes selects no variant.  More unions
than the table holds are never entered inside one another. -/
theorem flat_eq_of_bytes (hverify : d.verify = .ok ())
    (hflat : d.outline.isFlat d.tables = .ok true) (hl : d.outline.layout d.tables = .ok l)
    (hmeasured : d.tables.VariantsMeasured) (hhints : d.tables.HintsWidest)
    (hp : Copy l m m' p p') {depth depth' : Nat} (hdepth : d.tables.unions.size ≤ depth)
    (hdepth' : d.tables.unions.size ≤ depth') :
    (Scene.mk d.tables m).render depth d.outline p =
        (Scene.mk d.tables m').render depth' d.outline p' ∧
    (∀ h, (Scene.mk d.tables m).render depth d.outline p = .error h →
      ∃ selected count, h = .fault (.unknownVariant selected count)) ∧
    ∀ q q', Copy l m m' q q' →
      (Scene.mk d.tables m).compare depth d.outline p q =
        (Scene.mk d.tables m').compare depth' d.outline p' q' ∧
      ∀ h, (Scene.mk d.tables m).compare depth d.outline p q = .error h →
        ∃ selected count, h = .fault (.unknownVariant selected count) := by
  have hv := verified_of_verify hverify
  refine ⟨render_copied hv hflat hl hmeasured hhints hp hdepth hdepth',
    fun h herror => ?_, fun q q' hq => ⟨?_, ?_⟩⟩
  · unfold Scene.render at herror
    cases hrun :
      Walk.run ⟨d.tables, m⟩ (ValueText.visitor m) depth d.outline [p] .empty with
    | error h' =>
      rw [hrun] at herror
      obtain rfl := Except.error.inj herror
      exact flat_stops hv hflat hl hmeasured hhints
        (List.cons_ne_nil p []) (by simpa using hp.left) hdepth hrun
    | ok phrase =>
      rw [hrun] at herror
      cases herror
  · exact compare_copied hv hflat hl hmeasured hhints hp hq hdepth hdepth'
  · intro h herror
    exact flat_stops hv hflat hl hmeasured hhints
      (List.cons_ne_nil p [q]) (by simp [hp.left, hq.left]) hdepth herror

/-- The bytes of a packet of the second variant. -/
def packetBytes : Array UInt8 :=
  #[7, 0, 0, 0, 0, 0, 0, 0, 1, 0, 0, 0, 0, 0, 0, 0, 5, 0, 0, 0, 1, 0, 2, 0]

theorem flat_eq_of_bytes_packet :
    (Scene.mk packet.tables (Memory.zero.write 16 packetBytes)).render 1 packet.outline 16 =
      (Scene.mk packet.tables (Memory.write ⟨fun _ => 255⟩ 64 packetBytes)).render 3
        packet.outline 64 ∧
    (Scene.mk packet.tables (Memory.zero.write 16 packetBytes)).render 1 packet.outline 16 =
      .ok "(7, (5, [1, 2]))" := by
  have hverify : packet.verify = .ok () := by decide +kernel
  have hflat : packet.outline.isFlat packet.tables = .ok true := by decide +kernel
  have hl : packet.outline.layout packet.tables = .ok ⟨24, 8⟩ := by decide +kernel
  have hcopy : Copy ⟨24, 8⟩ (Memory.zero.write 16 packetBytes)
      (Memory.write ⟨fun _ => 255⟩ 64 packetBytes) 16 64 :=
    ⟨⟨by decide, by decide⟩, ⟨by decide, by decide⟩, by decide +kernel⟩
  have hdepth : packet.tables.unions.size ≤ 1 := by decide
  have hdepth' : packet.tables.unions.size ≤ 3 := by decide
  refine
    ⟨(flat_eq_of_bytes hverify hflat hl packet_variantsMeasured packet_hintsWidest hcopy
      hdepth hdepth').1, ?_⟩
  decide +kernel

end Descriptor

/-! ## Images with trailing bytes -/

namespace Image

variable {outside outside' : Memory} {image image' : Bytes} {l : Layout}

/-- Where images start alike, memories that hold them from two addresses
on hold the same. -/
theorem byteAt_write_of_take {m m' : Memory} {a a' n : Nat} (hn : n ≤ image.length)
    (hn' : n ≤ image'.length) (htake : image.take n = image'.take n) {i : Nat}
    (hi : i < n) :
    (m.write a image.toArray).byteAt (a + i) =
        (m'.write a' image'.toArray).byteAt (a' + i) := by
  have hsome := congrArg (fun bs => bs[i]?) htake
  rw [Memory.byteAt_write_of_mem (by simpa using Nat.lt_of_lt_of_le hi hn),
    Memory.byteAt_write_of_mem (by simpa using Nat.lt_of_lt_of_le hi hn')]
  simpa [List.getElem?_take, hi, Nat.lt_of_lt_of_le hi hn,
    Nat.lt_of_lt_of_le hi hn'] using hsome

/-- Two images that start alike hold copies of one value. -/
theorem copy_hold (halign : Word.IsAlign l.align)
    (hroom : address + l.size + 16 ≤ Word.limit) (hlong : l.size ≤ image.length)
    (hlong' : l.size ≤ image'.length) (htake : image.take l.size = image'.take l.size) :
    Copy l (hold outside image) (hold outside' image') address address where
  left := stands_address halign hroom
  right := stands_address halign hroom
  same _ hi := byteAt_write_of_take hlong hlong' htake hi

end Image

namespace Descriptor

/-- Trailing bytes of an image do not matter: its text is that of any image that starts
with the same value. -/
theorem renderImage_of_take {d : Descriptor} {l : Layout} (hv : d.Verified)
    (hflat : d.outline.isFlat d.tables = .ok true) (hl : d.outline.layout d.tables = .ok l)
    (hmeasured : d.tables.VariantsMeasured) (hhints : d.tables.HintsWidest)
    {image image' : Bytes} (hroom : Image.address + l.size + 16 ≤ Word.limit)
    (hlong : l.size ≤ image.length) (hlong' : l.size ≤ image'.length)
    (htake : image.take l.size = image'.take l.size) (outside outside' : Memory) :
    d.renderImage outside image = d.renderImage outside' image' := by
  exact render_copied hv hflat hl hmeasured hhints
    (Image.copy_hold (hv.isAlign_root hl) hroom hlong hlong' htake)
    (Image.unions_le_depth d.tables image) (Image.unions_le_depth d.tables image')

end Descriptor

end ShapeCode
