import ShapeCode.Command.Run
import ShapeCode.Proofs.BinaryRoundTrip
import ShapeCode.Proofs.UnboundedLayout
import ShapeCode.Proofs.Visits

set_option autoImplicit false

/-!
# Room for layouts

Nothing bounds the size of a type when a descriptor is loaded, and fixed vectors inside
one another multiply, so that what was loaded need not be measurable.  Whether it is can
be said with natural numbers alone.  A layout is computed row by row: the range itself,
what is stored inline in it, and each hinted variant of the unions in it
(`Outline.LaysOut`).  A row fits if the place where its fields end leaves room for its
alignment, and that is all (`Outline.layout_iff_fits`): every other sum and every
product that is checked on the way stays below the one of the row that it belongs to.
-/

namespace ShapeCode

/-! ## Rows -/

/-- The ranges that are laid out to lay out `o`, each with what stands before its fields. -/
inductive Outline.LaysOut (t : Tables) (o : Outline) :
    (before : Layout) → (row : Outline) → Prop where
  | whole : o.LaysOut t .empty o
  | nested {before : Layout} {row : Outline} {node : Node} {inner : Outline}
      (h : o.LaysOut t before row) (hnode : row.Has node inner)
      (hin : node.storesInline = true) : o.LaysOut t .empty inner
  | variant {before : Layout} {row : Outline} {id : UInt16} {inner : Outline} {u : Union}
      {v : UInt16} {fields : Bytes} (h : o.LaysOut t before row)
      (hnode : row.Has (.union id) inner) (hu : t.union id = .ok u) (hv : v ∈ u.hint)
      (hfields : u.variant v.toNat = .ok fields) :
      o.LaysOut t (Measure.unionHead u) (Outline.ofBytes fields)

/-- Where the fields of a row end, before the total is rounded up. -/
def Unbounded.fieldsEnd (t : Tables) (before : Layout) (row : Outline) : Layout :=
  (fields (unionLayout t) row).foldl place before

/-- The layout, rounded up to its alignment, stays in the word. -/
def Layout.HasRoom (l : Layout) : Prop := l.size + l.align < Word.limit

/-- Behind the fields of each row there is room for its alignment. -/
def Outline.Fits (t : Tables) (o : Outline) : Prop :=
  ∀ before row, o.LaysOut t before row → (Unbounded.fieldsEnd t before row).HasRoom

theorem Outline.Sound.of_has {t : Tables} {o inner : Outline} {node : Node} (ho : o.Sound t)
    (h : o.Has node inner) : node.IdsIn t ∧ inner.Sound t :=
  have hspot := ho.spot (x := ⟨node, inner, [], .empty⟩) h
  ⟨hspot.ids, hspot.inner⟩

theorem Outline.LaysOut.sound {t : Tables} (ht : t.Sound) {o row : Outline}
    {before : Layout} (ho : o.Sound t) (h : o.LaysOut t before row) :
    row.Sound t ∧ Word.IsAlign before.align := by
  induction h with
  | whole => exact ⟨ho, Layout.isAlign_empty⟩
  | nested _ hnode _ ih => exact ⟨(ih.1.of_has hnode).2, Layout.isAlign_empty⟩
  | variant _ _ hu _ hfields =>
    exact ⟨ht.of_union hu hfields, Measure.isAlign_unionHead _⟩

/-! ## Ends of rows -/

namespace Unbounded

variable {union : UInt16 → Layout}

/-- Placing a field leaves nothing before its end. -/
theorem le_place {l field : Layout} (h : 0 < field.align) :
    (l.size ≤ (place l field).size ∧ l.align ≤ (place l field).align) ∧
      field.size ≤ (place l field).size ∧ field.align ≤ (place l field).align := by
  have hround : l.size ≤ Word.roundUp l.size field.align := Word.le_roundUp_of_pos h
  simp only [place]
  omega

theorem le_foldl_place {fs : List Layout} {l : Layout} (h : ∀ f ∈ fs, 0 < f.align) :
    l.size ≤ (fs.foldl place l).size ∧ l.align ≤ (fs.foldl place l).align := by
  induction fs generalizing l with
  | nil => exact ⟨Nat.le_refl _, Nat.le_refl _⟩
  | cons f rest ih =>
    rw [List.forall_mem_cons] at h
    have hplace := (le_place (l := l) h.1).1
    have hrest := ih (l := place l f) h.2
    exact ⟨hplace.1.trans hrest.1, hplace.2.trans hrest.2⟩

theorem le_foldl_place_of_mem {fs : List Layout} {l f : Layout}
    (h : ∀ f ∈ fs, 0 < f.align) (hf : f ∈ fs) :
    f.size ≤ (fs.foldl place l).size ∧ f.align ≤ (fs.foldl place l).align := by
  induction fs generalizing l with
  | nil => cases hf
  | cons g rest ih =>
    rw [List.forall_mem_cons] at h
    rcases List.mem_cons.1 hf with rfl | hf
    · have hplace := (le_place (l := l) h.1).2
      have hrest := le_foldl_place (l := place l f) h.2
      exact ⟨hplace.1.trans hrest.1, hplace.2.trans hrest.2⟩
    · exact ih h.2 hf

/-- Fields placed further back end further back. -/
theorem foldl_place_mono {fs : List Layout} {l l' : Layout} (hsize : l.size ≤ l'.size)
    (halign : l.align ≤ l'.align) :
    (fs.foldl place l).size ≤ (fs.foldl place l').size ∧
      (fs.foldl place l).align ≤ (fs.foldl place l').align := by
  induction fs generalizing l l' with
  | nil => exact ⟨hsize, halign⟩
  | cons f rest ih =>
    exact ih (Nat.add_le_add_right (Word.roundUp_mono hsize) _) (max_le_max_right _ halign)

theorem widest_align_pos {sofar : Layout} {ls : List Layout} (h : 0 < sofar.align) :
    0 < (widest sofar ls).align := by
  induction ls generalizing sofar with
  | nil => exact h
  | cons l rest ih =>
    have hmax : 0 < max sofar.align l.align := lt_max_of_lt_left h
    exact @ih ⟨max sofar.size l.size, max sofar.align l.align⟩ hmax

theorem unionAt_align_pos (t : Tables) (depth : Nat) (id : UInt16) :
    0 < (unionAt t depth id).align := by
  cases depth with
  | zero => exact Nat.one_pos
  | succ depth =>
    simp only [unionAt, unionStep]
    split
    · exact Nat.one_pos
    · exact widest_align_pos Nat.one_pos

theorem fields_align_pos (hunion : ∀ id, 0 < (union id).align) (o : Outline) :
    ∀ f ∈ fields union o, 0 < f.align := by
  induction o with
  | done | broken =>
    intro f hf
    cases hf
  | cons node inner rest ihi ihr =>
    have hnested : 0 < (record ⟨0, 1⟩ (fields union inner)).align :=
      (le_foldl_place (l := ⟨0, 1⟩) ihi).2
    refine List.forall_mem_cons.2 ⟨?_, ihr⟩
    cases node with
    | scalar s => cases s <;> exact Nat.zero_lt_succ _
    | record | resource => exact hnested
    | union id => exact hunion id
    | pointer | handle => exact Nat.zero_lt_succ _
    | run form =>
      cases form with
      | fixedVec count => exact hnested
      | vec | unboxedVec | slice => exact Nat.zero_lt_succ _

theorem mem_fields {o inner : Outline} {node : Node} (h : o.Has node inner) :
    nodeLayout union (record ⟨0, 1⟩ (fields union inner)) node ∈ fields union o := by
  induction o with
  | done | broken => exact False.elim h
  | cons n i rest _ ih =>
    rcases h with ⟨rfl, rfl⟩ | h
    · exact .head _
    · exact .tail _ (ih h)

/-- No field of a row needs more room than the whole row. -/
theorem hasRoom_of_has {t : Tables} {before : Layout} {row inner : Outline} {node : Node}
    (h : row.Has node inner) (hroom : (fieldsEnd t before row).HasRoom) :
    (nodeLayout (unionLayout t) (layout t inner) node).HasRoom := by
  have hpos : ∀ f ∈ fields (unionLayout t) row, 0 < f.align :=
    fields_align_pos (unionAt_align_pos t _) row
  have hle := le_foldl_place_of_mem (l := before) hpos (mem_fields h)
  unfold Layout.HasRoom fieldsEnd at *
  unfold layout
  omega

end Unbounded

/-! ## Rows laid out in the word -/

namespace Tables

variable {t : Tables} {row inner : Outline} {node : Node} {before l : Layout}

theorem nodeLayout_eq (h : t.nodeLayout node inner = .ok l) :
    l = Unbounded.nodeLayout (Unbounded.unionLayout t) (Unbounded.layout t inner) node :=
  Unbounded.storageLayout_eq (fun _ _ => Unbounded.unionAt_eq)
    (fun _ => Unbounded.layout_eq) h

/-- What has a layout has one of each of its nodes. -/
theorem nodeLayout_of_rangeLayout (h : t.rangeLayout row before = .ok l)
    (hnode : row.Has node inner) :
    ∃ own, t.nodeLayout node inner = .ok own := by
  induction row generalizing before with
  | done | broken => exact False.elim hnode
  | cons n i rest _ ih =>
    obtain ⟨own, sofar, hown, -, hl⟩ := rangeLayout_cons_eq_ok h
    rcases hnode with ⟨rfl, rfl⟩ | hnode
    · exact ⟨own, hown⟩
    · exact ih hl hnode

/-- A node that has a layout has one of what it stores inline. -/
theorem rangeLayout_of_nodeLayout (hin : node.storesInline = true)
    (h : t.nodeLayout node inner = .ok l) :
    ∃ nested, t.rangeLayout inner .empty = .ok nested := by
  unfold nodeLayout at h
  cases node with
  | record | resource => exact ⟨l, h⟩
  | run form =>
    cases form with
    | fixedVec count =>
      simp only [Node.storage, Plain.storageLayout] at h
      split at h
      · cases h
      · rename_i elem helem
        exact ⟨elem, helem⟩
    | vec | unboxedVec | slice => cases hin
  | scalar | pointer | handle | union => cases hin

theorem variant_of_variants {u : Union} {vs : List UInt16} {sofar most : Layout}
    (h : Plain.variants t.unionLayout u vs sofar = .ok most) {v : UInt16} (hv : v ∈ vs) :
    ∃ l, Plain.variant t.unionLayout u v.toNat = .ok l := by
  induction vs generalizing sofar with
  | nil => cases hv
  | cons w rest ih =>
    simp only [Plain.variants] at h
    split at h
    · cases h
    · rename_i l hl
      rcases List.mem_cons.1 hv with rfl | hv
      · exact ⟨l, hl⟩
      · exact ih h hv

theorem variants_of_variant {u : Union} {vs : List UInt16} {sofar : Layout}
    (h : ∀ v ∈ vs, ∃ l, Plain.variant t.unionLayout u v.toNat = .ok l) :
    ∃ most, Plain.variants t.unionLayout u vs sofar = .ok most := by
  induction vs generalizing sofar with
  | nil => exact ⟨sofar, rfl⟩
  | cons v rest ih =>
    rw [List.forall_mem_cons] at h
    obtain ⟨l, hl⟩ := h.1
    simp only [Plain.variants, hl]
    exact ih h.2

/-- A node has a layout if there is room behind it and what it stores inline has one. -/
theorem nodeLayout_of_hasRoom
    (hroom : (Unbounded.nodeLayout (Unbounded.unionLayout t)
      (Unbounded.layout t inner) node).HasRoom)
    (hinner : node.storesInline = true → ∃ l, t.rangeLayout inner .empty = .ok l)
    (hunion : ∀ id, node = .union id → ∃ l, t.unionLayout id = .ok l) :
    ∃ own, t.nodeLayout node inner = .ok own := by
  cases node with
  | scalar | pointer | handle => exact ⟨_, rfl⟩
  | record | resource => exact hinner rfl
  | union id => exact hunion id rfl
  | run form =>
    cases form with
    | vec | unboxedVec | slice => exact ⟨_, rfl⟩
    | fixedVec count =>
      obtain ⟨elem, helem⟩ := hinner rfl
      obtain rfl := Unbounded.layout_eq helem
      have hsize : count.toNat * (Unbounded.layout t inner).size < Word.limit :=
        Nat.lt_of_add_right_lt hroom
      simp only [nodeLayout, Node.storage, Plain.storageLayout, helem]
      exact ⟨_, Layout.copies_eq_ok_iff.2 ⟨hsize, rfl⟩⟩

namespace Verified

variable (ht : t.Verified)

include ht

/-- Behind the fields of a row that has a layout there is room. -/
theorem hasRoom_of_rangeLayout (hrow : row.Sound t) (hbefore : Word.IsAlign before.align)
    (h : t.rangeLayout row before = .ok l) :
    (Unbounded.fieldsEnd t before row).HasRoom := by
  induction row generalizing before with
  | done => exact ((Layout.padded_eq_ok_iff hbefore).1 h).1
  | broken f => exact False.elim hrow
  | cons node inner rest _ ih =>
    obtain ⟨hids, -, hinner, hrest⟩ := hrow
    obtain ⟨own, sofar, hown, hsofar, hl⟩ := rangeLayout_cons_eq_ok h
    have halign := (ht.nodeLayout_proper hids hinner hown).isAlign
    have hend := ih hrest (Layout.append_isAlign hbefore halign hsofar) hl
    obtain rfl := Unbounded.append_eq_place hsofar
    obtain rfl := nodeLayout_eq hown
    exact hend

/-- A row whose nodes have layouts has one, if there is room behind its fields. -/
theorem rangeLayout_of_hasRoom (hrow : row.Sound t) (hbefore : Word.IsAlign before.align)
    (hroom : (Unbounded.fieldsEnd t before row).HasRoom)
    (hnodes : ∀ node inner, row.Has node inner →
      ∃ own, t.nodeLayout node inner = .ok own) :
    ∃ l, t.rangeLayout row before = .ok l := by
  induction row generalizing before with
  | done => exact ⟨_, (Layout.padded_eq_ok_iff hbefore).2 ⟨hroom, rfl⟩⟩
  | broken f => exact False.elim hrow
  | cons node inner rest _ ih =>
    obtain ⟨hids, -, hinner, hrest⟩ := hrow
    obtain ⟨own, hown⟩ := hnodes node inner (.inl ⟨rfl, rfl⟩)
    have halign := (ht.nodeLayout_proper hids hinner hown).isAlign
    have hends : Unbounded.fieldsEnd t before (.cons node inner rest) =
        Unbounded.fieldsEnd t (Unbounded.place before own) rest := by
      rw [nodeLayout_eq hown]
      rfl
    rw [hends] at hroom
    -- What is checked when the node is appended is at most what is checked at the
    -- end of the row.
    have hplace := Unbounded.le_place (l := before) halign.pos
    have hle : (Unbounded.place before own).size ≤
        (Unbounded.fieldsEnd t (Unbounded.place before own) rest).size ∧
        (Unbounded.place before own).align ≤
          (Unbounded.fieldsEnd t (Unbounded.place before own) rest).align :=
      Unbounded.le_foldl_place
        (Unbounded.fields_align_pos (Unbounded.unionAt_align_pos t _) rest)
    have happend : before.append own = .ok (Unbounded.place before own) := by
      refine (Layout.append_eq_ok_iff halign).2 ⟨?_, ?_, rfl⟩
      · unfold Layout.HasRoom at hroom
        omega
      · have hsize : (Unbounded.place before own).size < Word.limit := by
          unfold Layout.HasRoom at hroom
          omega
        exact hsize
    obtain ⟨l, hl⟩ :=
      ih hrest (hbefore.max halign) hroom fun n i h => hnodes n i (.inr h)
    exact ⟨l, by simp only [rangeLayout_cons, hown, happend, hl]⟩

/-- What follows the first node of a row that has a layout has one by itself. -/
theorem rangeLayout_rest {rest : Outline} (hrow : (Outline.cons node inner rest).Sound t)
    (h : t.rangeLayout (.cons node inner rest) .empty = .ok l) :
    ∃ l', t.rangeLayout rest .empty = .ok l' := by
  have hroom := ht.hasRoom_of_rangeLayout hrow Layout.isAlign_empty h
  obtain ⟨own, sofar, hown, hsofar, -⟩ := rangeLayout_cons_eq_ok h
  have halign := (ht.nodeLayout_proper hrow.1 hrow.2.2.1 hown).isAlign
  obtain rfl := Unbounded.append_eq_place hsofar
  obtain rfl := nodeLayout_eq hown
  have hplace := (Unbounded.le_place (l := Layout.empty) halign.pos).1
  have hle : (Unbounded.fieldsEnd t .empty rest).size ≤
      (Unbounded.fieldsEnd t .empty (.cons node inner rest)).size ∧
      (Unbounded.fieldsEnd t .empty rest).align ≤
        (Unbounded.fieldsEnd t .empty (.cons node inner rest)).align :=
    Unbounded.foldl_place_mono hplace.1 hplace.2
  refine ht.rangeLayout_of_hasRoom hrow.2.2.2 Layout.isAlign_empty ?_ fun _ _ hnode =>
    nodeLayout_of_rangeLayout h (.inr hnode)
  unfold Layout.HasRoom at *
  omega

/-- A union whose hinted variants have layouts has one, if there is room behind it. -/
theorem unionLayout_of_hasRoom {id : UInt16} {u : Union} (hu : t.union id = .ok u)
    (hroom : (Unbounded.unionLayout t id).HasRoom)
    (hvariants : ∀ v ∈ u.hint, ∃ l, Plain.variant t.unionLayout u v.toNat = .ok l) :
    ∃ l, t.unionLayout id = .ok l := by
  have hmem := Tables.mem_of_union hu
  obtain ⟨most, hmost⟩ :
      ∃ most, Plain.variants t.unionLayout u u.hint .empty = .ok most :=
    variants_of_variant hvariants
  have hwidest : most =
      Unbounded.widest ⟨0, 1⟩
        (u.hint.map (Unbounded.variantLayout (Unbounded.unionLayout t) u)) :=
    Unbounded.variants_eq (fun _ _ => Unbounded.unionAt_eq) hmost
  have halign : Word.IsAlign most.align := by
    refine (Plain.variants_good (ht.sound.hint_lt u hmem) Layout.isAlign_empty fun v hv =>
      ?_).of_ok hmost
    exact Plain.variant_good hv (ht.sound.variant_sound u hmem) fun fields hf id' hid' =>
      ht.unionLayout_good ((ht.sound.variant_sound u hmem fields hf).lt_of_stores hid')
  rw [Unbounded.unionLayout_eq ht hu, Unbounded.unionStep, ← hwidest] at hroom
  have hdiscriminant : u.hasDiscriminant = false ↔ u.variants.size ≤ 1 := by
    simp [Union.hasDiscriminant]
  rw [ht.unionLayout_eq (Tables.lt_of_union hu)]
  simp only [Plain.unionStep, hu, hmost, Measure.unionLayout, hdiscriminant]
  split
  · exact ⟨_, rfl⟩
  · rename_i hnonzero
    simp only [hnonzero, if_false, Layout.HasRoom] at hroom
    have hsum : most.size + most.align < Word.limit := by
      have := Word.le_roundUp (n := most.size) halign
      omega
    have hup := Word.alignUp_eq_ok_iff.2 ⟨halign.isPowerOfTwo, hsum, rfl⟩
    simp only [hup]
    exact ⟨_, rfl⟩

end Verified

end Tables

/-! ## Every row -/

namespace Outline

variable {t : Tables} {o row : Outline} {before : Layout}

/-- If the range has a layout, so has each row. -/
theorem LaysOut.rangeLayout (ht : t.Verified) {l : Layout}
    (h : t.rangeLayout o .empty = .ok l) (hrow : o.LaysOut t before row) :
    ∃ l, t.rangeLayout row before = .ok l := by
  induction hrow with
  | whole => exact ⟨l, h⟩
  | nested _ hnode hin ih =>
    obtain ⟨l, hl⟩ := ih
    obtain ⟨own, hown⟩ := Tables.nodeLayout_of_rangeLayout hl hnode
    exact Tables.rangeLayout_of_nodeLayout hin hown
  | @variant _ _ id _ _ _ _ _ hnode hu hv hfields ih =>
    obtain ⟨l, hl⟩ := ih
    obtain ⟨own, hown⟩ := Tables.nodeLayout_of_rangeLayout hl hnode
    have hunion : Plain.unionStep t t.unionLayout id = .ok own :=
      (ht.unionLayout_eq (Tables.lt_of_union hu)).symm.trans hown
    simp only [Plain.unionStep, hu] at hunion
    split at hunion
    · cases hunion
    · rename_i most hmost
      obtain ⟨l, hl⟩ := Tables.variant_of_variants hmost hv
      simp only [Plain.variant, hfields] at hl
      exact ⟨l, hl⟩

/-- A value of the union stands in some row. -/
def LaysUnion (t : Tables) (o : Outline) (id : UInt16) : Prop :=
  ∃ before row inner, o.LaysOut t before row ∧ row.Has (.union id) inner

variable (ht : t.Verified) (ho : o.Sound t) (hfits : o.Fits t)

include ht ho hfits

/-- If every row fits, a row has a layout as soon as the unions stored in it have. -/
theorem rangeLayout_of_unions (hrow : o.LaysOut t before row)
    (hunions : ∀ id, row.Stores id → o.LaysUnion t id →
      ∃ l, t.unionLayout id = .ok l) :
    ∃ l, t.rangeLayout row before = .ok l := by
  induction hsize : sizeOf row using Nat.strong_induction_on generalizing before row with
  | _ _ ih =>
    subst hsize
    obtain ⟨hsound, hbefore⟩ := hrow.sound ht.sound ho
    have hroom := hfits before row hrow
    refine ht.rangeLayout_of_hasRoom hsound hbefore hroom fun node inner hnode => ?_
    apply Tables.nodeLayout_of_hasRoom (Unbounded.hasRoom_of_has hnode hroom)
    · intro hin
      refine ih _ hnode.sizeOf_lt (hrow.nested hnode hin) (fun id hid => ?_) rfl
      exact hunions id (hnode.stores (.inr ⟨hin, hid⟩))
    · rintro id rfl
      exact hunions id (hnode.stores (.inl rfl)) ⟨before, row, inner, hrow, hnode⟩

/-- If every row fits, the unions in the rows have layouts: each of them by
those inside it. -/
theorem LaysUnion.unionLayout {id : UInt16} (hid : o.LaysUnion t id) :
    ∃ l, t.unionLayout id = .ok l := by
  induction hindex : id.toNat using ht.acyclic.induction generalizing id with
  | _ _ ih =>
    subst hindex
    obtain ⟨before, row, inner, hrow, hnode⟩ := hid
    have hlt : id.toNat < t.unions.size := ((hrow.sound ht.sound ho).1.of_has hnode).1
    have hu := Tables.union_of_lt hlt
    refine ht.unionLayout_of_hasRoom hu
      (Unbounded.hasRoom_of_has hnode (hfits before row hrow)) fun v hv => ?_
    have hfields := Union.variant_of_lt (ht.sound.hint_lt _ (Tables.mem_of_union hu) v hv)
    simp only [Plain.variant, hfields]
    refine rangeLayout_of_unions ht ho hfits (hrow.variant hnode hu hv hfields)
      fun id' hid' hlaid => ?_
    exact ih _ (Tables.inside_of_stores hu hfields hid') hlaid rfl

omit hfits

/-- A sound range has a layout exactly if every row fits. -/
theorem layout_iff_fits : o.layout t = .ok (Unbounded.layout t o) ↔ o.Fits t := by
  rw [ht.layout_eq ho]
  constructor
  · intro h before row hrow
    obtain ⟨hsound, hbefore⟩ := hrow.sound ht.sound ho
    obtain ⟨l, hl⟩ := hrow.rangeLayout ht h
    exact ht.hasRoom_of_rangeLayout hsound hbefore hl
  · intro hfits
    obtain ⟨l, hl⟩ :=
      rangeLayout_of_unions ht ho hfits .whole fun id _ hid => hid.unionLayout ht ho hfits
    obtain rfl := Unbounded.layout_eq hl
    exact hl

end Outline

/-! ## One node -/

namespace Layout

variable {l l' : Layout}

theorem Proper.empty_append_iff (h : l.Proper) :
    empty.append l = .ok l' ↔
      l.align < Word.limit ∧ l.size < Word.limit ∧ l' = l := by
  have hstart : Word.roundUp 0 l.align = 0 := Word.roundUp_of_dvd h.isAlign (Nat.dvd_zero _)
  have halign : max 1 l.align = l.align := max_eq_right h.isAlign.pos
  simp only [append_eq_ok_iff h.isAlign, empty, hstart, halign, Nat.zero_add]

theorem Proper.padded_iff (h : l.Proper) : l.padded = .ok l' ↔ l.HasRoom ∧ l' = l := by
  rw [padded_eq_ok_iff h.isAlign, Word.roundUp_of_dvd h.isAlign h.dvd]
  rfl

end Layout

namespace Tables.Verified

variable {t : Tables} (ht : t.Verified) {node : Node} {inner : Outline} {l : Layout}

include ht

/-- A range of one node has the layout of the node, if there is room to round it up. -/
theorem layout_single_iff (h : (Outline.cons node inner .done).Sound t) :
    (Outline.cons node inner .done).layout t = .ok l ↔
      node.layout t inner = .ok l ∧ l.HasRoom := by
  have hproper : ∀ own, t.nodeLayout node inner = .ok own → own.Proper := fun _ =>
    ht.nodeLayout_proper h.1 h.2.2.1
  rw [ht.layout_eq h, ht.node_layout_eq h.1 h.2.2.1]
  constructor
  · intro hl
    obtain ⟨own, sofar, hown, hsofar, hpadded⟩ := rangeLayout_cons_eq_ok hl
    obtain ⟨-, -, rfl⟩ := (hproper own hown).empty_append_iff.1 hsofar
    obtain ⟨hroom, rfl⟩ := (hproper _ hown).padded_iff.1 hpadded
    exact ⟨hown, hroom⟩
  · rintro ⟨hown, hroom⟩
    have happend : Layout.empty.append l = .ok l := by
      refine (hproper l hown).empty_append_iff.2 ?_
      unfold Layout.HasRoom at hroom
      exact ⟨by omega, by omega, rfl⟩
    simp only [rangeLayout_cons, hown, happend, rangeLayout_done,
      (hproper l hown).padded_iff.2 ⟨hroom, rfl⟩]

/-- The layout measured of a union node is the plain layout of the union. -/
theorem union_layout_eq {id : UInt16} (hid : id.toNat < t.unions.size) :
    Node.layout t (.union id) .done = t.unionLayout id := by
  have hids : (Node.union id).IdsIn t := hid
  have hinner : Outline.done.Sound t := trivial
  exact ht.node_layout_eq hids hinner

end Tables.Verified

/-! ## Loaded descriptors -/

namespace Descriptor

variable {d : Descriptor}

/-- A part whose rows fit has the layout of unbounded arithmetic; measuring any
other overflows. -/
theorem Part.measured (h : d.Verified) {o : Outline} (ho : d.Part o) :
    (o.Fits d.tables → o.layout d.tables = .ok (Unbounded.layout d.tables o)) ∧
      (¬ o.Fits d.tables → ∃ f : Fault, f.Overflow ∧ o.layout d.tables = .error f) :=
        by
  have hsound := ho.sound h
  have hiff := Outline.layout_iff_fits h.tables hsound
  refine ⟨hiff.2, fun hfits => ?_⟩
  rcases (h.tables.layout_good hsound).cases with ⟨f, hf, hover⟩ | ⟨l, hl, -⟩
  · exact ⟨f, hover, hf⟩
  · obtain rfl := Unbounded.layout_eq ((h.tables.layout_eq hsound).symm.trans hl)
    exact absurd (hiff.1 hl) hfits

/-- What can fail by the overflow of a part only does not fail if the rows
of all parts fit. -/
theorem OnlyOverflows.eq_ok {α : Type} {r : Except Fault α} (h : d.Verified)
    (hr : d.OnlyOverflows r) (hfits : ∀ o, d.Part o → o.Fits d.tables) :
    ∃ x, r = .ok x := by
  rcases hr.cases with ⟨f, -, -, o, ho, hf⟩ | ⟨x, hx, -⟩
  · cases hf.symm.trans ((ho.measured h).1 (hfits o ho))
  · exact ⟨x, hx⟩

/-- Every part of a loaded descriptor is measured if its rows fit, and overflows otherwise;
the command that measures the root prints its layout or ends in the overflow.  If the rows
of all parts fit, it is judged whether the type is flat, and the descriptor is listed. -/
theorem loaded_measured_iff_fits {file : Bytes} (h : ofBytes file = .ok d) :
    (∀ o, d.Part o →
      (o.Fits d.tables → o.layout d.tables = .ok (Unbounded.layout d.tables o)) ∧
        (¬ o.Fits d.tables →
          ∃ f : Fault, f.Overflow ∧ o.layout d.tables = .error f)) ∧
    (∀ read path terminal, read path = .ok file →
      (d.outline.Fits d.tables → (Command.size path).run read terminal =
        .success ((Unbounded.layout d.tables d.outline).text ++ "\n")) ∧
        (¬ d.outline.Fits d.tables →
          ∃ f : Fault, f.Overflow ∧
            (Command.size path).run read terminal = .crash f.message)) ∧
    ((∀ o, d.Part o → o.Fits d.tables) →
      (∃ flat, d.outline.isFlat d.tables = .ok flat) ∧
      ∀ read path color terminal, read path = .ok file →
        ∃ text, (Command.dump path color).run read terminal = .success text) := by
  have hv := verified_of_verify (ofBytes_eq_ok_iff.1 h).1
  have hload : ∀ read path, read path = .ok file → load read path = .ok d := by
    intro read path hread
    simp only [load, hread, h]
  refine ⟨fun o ho => ho.measured hv, ?_, ?_⟩
  · intro read path terminal hread
    obtain ⟨hmeasured, hoverflows⟩ := Part.root.measured hv
    simp only [Command.run, Command.withDescriptor, hload read path hread, outline]
    constructor
    · intro hfits
      rw [hmeasured hfits]
      rfl
    · intro hfits
      obtain ⟨f, hover, hf⟩ := hoverflows hfits
      rw [hf]
      exact ⟨f, hover, rfl⟩
  · intro hfits
    refine ⟨(isFlat_onlyOverflows hv .root).eq_ok hv hfits,
      fun read path color terminal hread => ?_⟩
    obtain ⟨text, htext⟩ :=
      (listing_onlyOverflows hv (Palette.ofBool (color.enabled terminal))).eq_ok hv hfits
    simp only [Command.run, Command.withDescriptor, hload read path hread, htext]
    exact ⟨text, rfl⟩

theorem loaded_measured_iff_fits_sharing : ∃ file, ofBytes file = .ok sharing ∧
    sharing.outline.Fits sharing.tables ∧
    (Command.size "sharing").run (fun _ => .ok file) false =
      .success "size=48 align=8\n" := by
  have hfile : ∃ file, sharing.toBytes = .ok file ∧ ofBytes file = .ok sharing := by
    refine ⟨_, rfl, ?_⟩
    decide +kernel
  obtain ⟨file, -, hload⟩ := hfile
  obtain ⟨hmeasured, hsize, -⟩ := loaded_measured_iff_fits hload
  have hlayout : sharing.outline.layout sharing.tables = .ok ⟨48, 8⟩ := by
    decide +kernel
  have hfits : sharing.outline.Fits sharing.tables := by
    by_contra hfits
    obtain ⟨f, -, hf⟩ := (hmeasured _ .root).2 hfits
    cases hlayout.symm.trans hf
  have hideal : Unbounded.layout sharing.tables sharing.outline = ⟨48, 8⟩ :=
    Except.ok.inj (((hmeasured _ .root).1 hfits).symm.trans hlayout)
  have hprints := (hsize (fun _ => .ok file) "sharing" false rfl).1 hfits
  rw [hideal] at hprints
  exact ⟨file, hload, hfits, hprints⟩

/-- The bytes of a fixed vector of plain elements. -/
def block (count : UInt16) (elem : Bytes) : Bytes :=
  Emit.runHead (.fixedVec count) true ++ Bytes.ofNat 2 elem.length ++ elem

/-- No element of a type whose values would take more than the word counts. -/
def vast : Descriptor :=
  ⟨block 0 (block 65535 (block 65535 (block 65535 (block 65535 (Emit.scalar .u16))))),
    ⟨#[], #[]⟩⟩

/-- What is loaded need not be measurable. -/
theorem loaded_unmeasured :
    ∃ file, vast.toBytes = .ok file ∧ ofBytes file = .ok vast ∧
    vast.outline.layout vast.tables = .error .mulOverflow ∧
    (Command.size "vast").run (fun _ => .ok file) false =
        .crash "attempt to multiply with overflow" := by
  have hfile : ∃ file, vast.toBytes = .ok file ∧ ofBytes file = .ok vast ∧
      (Command.size "vast").run (fun _ => .ok file) false =
        .crash "attempt to multiply with overflow" := by
    refine ⟨_, rfl, ?_, ?_⟩ <;> decide +kernel
  obtain ⟨file, hwrite, hload, hcrash⟩ := hfile
  exact ⟨file, hwrite, hload, by decide +kernel, hcrash⟩

end Descriptor

end ShapeCode
