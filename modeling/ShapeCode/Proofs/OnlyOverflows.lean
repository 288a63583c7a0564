import ShapeCode.Flat
import ShapeCode.Listing
import ShapeCode.Proofs.ProperLayout

set_option autoImplicit false

/-!
# Verified descriptors fail by overflow only

Measuring a verified descriptor, judging whether it is flat, writing it, listing it and
touring it come to an end, and the only fault any of them can end in is an overflow in
the layout of one of its parts (`Descriptor.LayoutOverflow`).  A part is a range that
such an operation may come across: the root, a variant, a node that names a union, or a
nested range of another part.  Every part is sound, so a recursion on outlines needs to
know of its outline only that it is a part.

Judging flatness recurses through unions to a bounded depth.  What keeps it inside the
bound is that each union is entered once: the number of unions not met yet
(`Flat.State.Unmet`) goes down with the depth.
-/

namespace ShapeCode

/-! ## Parts of a descriptor -/

/-- The ranges that operations on a descriptor come across. -/
inductive Descriptor.Part (d : Descriptor) : Outline → Prop where
  | root : d.Part (Outline.ofBytes d.shape)
  | variant {u : Union} {fields : Bytes} (hu : u ∈ d.tables.unions)
      (hf : fields ∈ u.variants) : d.Part (Outline.ofBytes fields)
  | union {id : UInt16} (hid : id.toNat < d.tables.unions.size) :
      d.Part (.cons (.union id) .done .done)
  | inner {node : Node} {inner rest : Outline} (h : d.Part (.cons node inner rest)) :
      d.Part inner
  | rest {node : Node} {inner rest : Outline} (h : d.Part (.cons node inner rest)) :
      d.Part rest

/-- The fault is an overflow in the layout of a part of the descriptor. -/
def Descriptor.LayoutOverflow (d : Descriptor) (f : Fault) : Prop :=
  f.Overflow ∧ ∃ o, d.Part o ∧ o.layout d.tables = .error f

/-- The computation gives a result, unless the layout of a part of the
descriptor overflows. -/
abbrev Descriptor.OnlyOverflows {α : Type} (d : Descriptor) (r : Except Fault α) : Prop :=
  Yields d.LayoutOverflow (fun _ => True) r

namespace Descriptor

variable {d : Descriptor} {o inner rest : Outline} {node : Node}

theorem Part.sound (h : d.Verified) (ho : d.Part o) : o.Sound d.tables := by
  induction ho with
  | root => exact h.root
  | variant hu hf => exact h.tables.sound.variant_sound _ hu _ hf
  | union hid => exact ⟨hid, (fun hone => by cases hone), trivial, trivial⟩
  | inner _ ih => exact ih.2.2.1
  | rest _ ih => exact ih.2.2.2

theorem Part.layout (h : d.Verified) (ho : d.Part o) :
    d.OnlyOverflows (o.layout d.tables) := by
  refine (h.tables.layout_good (ho.sound h)).mono ?_ fun _ _ _ => trivial
  intro f hf hover
  exact ⟨hover, o, ho, hf⟩

theorem Part.spacing (h : d.Verified) (ho : d.Part o) :
    d.OnlyOverflows (o.spacing d.tables) := by
  refine (h.tables.spacing_yields (ho.sound h)).mono ?_ fun _ _ _ => trivial
  rintro f - ⟨hover, hf⟩
  exact ⟨hover, o, ho, hf⟩

/-- A nested range that stands for one value is not empty. -/
theorem Part.inner_ne_done (h : d.Verified) (ho : d.Part (.cons node inner rest))
    (hone : node.holdsOne = true) : inner ≠ .done := by
  rintro rfl
  cases (ho.sound h).2.1 hone

theorem Part.ne_broken (h : d.Verified) (ho : d.Part o) (f : Fault) : o ≠ .broken f := by
  rintro rfl
  exact ho.sound h

theorem Part.union_lt (h : d.Verified) {id : UInt16}
    (ho : d.Part (.cons (.union id) inner rest)) : id.toNat < d.tables.unions.size :=
  (ho.sound h).1

theorem Part.resource_lt (h : d.Verified) {id : UInt16} {fields : Bytes}
    (ho : d.Part (.cons (.resource id fields) inner rest)) :
    id.toNat < d.tables.resources.size :=
  (ho.sound h).1

end Descriptor

/-! ## Tours and texts -/

namespace Tour

theorem visits_onlyOverflows {d : Descriptor} (h : d.Verified) {o : Outline} (ho : d.Part o)
    {single : Bool} (hone : single = true → o ≠ .done) {seen : List Node} :
    d.OnlyOverflows (visits d.tables single o seen) := by
  induction o generalizing single seen with
  | done =>
    cases single with
    | true => exact absurd rfl (hone rfl)
    | false => trivial
  | broken f => exact absurd rfl (ho.ne_broken h f)
  | cons node inner rest ihi ihr =>
    have hfields : ∀ seen, d.OnlyOverflows (visits d.tables false inner seen) := by
      intro seen
      exact ihi ho.inner (by simp)
    have hvalue : node.holdsOne = true →
        ∀ seen, d.OnlyOverflows (visits d.tables true inner seen) := by
      intro hholds seen
      exact ihi ho.inner fun _ => ho.inner_ne_done h hholds
    have hrest : ∀ seen, d.OnlyOverflows
        (if single then .ok seen else visits d.tables false rest seen) := by
      intro seen
      cases single with
      | true => trivial
      | false => exact ihr ho.rest (by simp)
    cases node with
    | scalar | handle => exact hrest _
    | record | resource =>
      simp only [visits]
      exact (hfields _).elim (fun f hf => hf) fun seen _ => hrest seen
    | union id =>
      simp only [visits, Tables.union_of_lt (ho.union_lt h)]
      exact hrest _
    | run form plain elem =>
      simp only [visits]
      refine (ho.inner.spacing h).elim (fun f hf => hf) ?_
      intro spacing _
      simp only
      exact (hvalue rfl _).elim (fun f hf => hf) fun seen _ => hrest seen
    | pointer =>
      simp only [visits]
      exact (hvalue rfl _).elim (fun f hf => hf) fun seen _ => hrest seen

end Tour

namespace ShapeText

theorem close_onlyOverflows {d : Descriptor} {s : String} {r : Except Fault Phrase}
    (h : d.OnlyOverflows r) : d.OnlyOverflows (close s r) := by
  cases r with
  | error f => exact h
  | ok p => trivial

theorem range_onlyOverflows {d : Descriptor} (h : d.Verified) {o : Outline} (ho : d.Part o)
    {single : Bool} (hone : single = true → o ≠ .done) {p : Phrase} :
    d.OnlyOverflows (range d.tables single o p) := by
  induction o generalizing single p with
  | done =>
    cases single with
    | true => exact absurd rfl (hone rfl)
    | false => trivial
  | broken f => exact absurd rfl (ho.ne_broken h f)
  | cons node inner rest ihi ihr =>
    have hfields : ∀ p, d.OnlyOverflows (range d.tables false inner p) := by
      intro p
      exact ihi ho.inner (by simp)
    have hvalue : node.holdsOne = true →
        ∀ p, d.OnlyOverflows (range d.tables true inner p) := by
      intro hholds p
      exact ihi ho.inner fun _ => ho.inner_ne_done h hholds
    have hrest : ∀ p,
        d.OnlyOverflows (if single then .ok p else range d.tables false rest p) := by
      intro p
      cases single with
      | true => trivial
      | false => exact ihr ho.rest (by simp)
    cases node with
    | scalar | handle | union => exact hrest _
    | record =>
      simp only [range]
      exact (close_onlyOverflows (hfields _)).elim (fun f hf => hf) fun p _ => hrest p
    | run form plain elem =>
      simp only [range]
      refine (ho.inner.spacing h).elim (fun f hf => hf) ?_
      intro spacing _
      simp only
      exact (close_onlyOverflows (hvalue rfl _)).elim (fun f hf => hf) fun p _ => hrest p
    | pointer =>
      simp only [range]
      exact (close_onlyOverflows (hvalue rfl _)).elim (fun f hf => hf) fun p _ => hrest p
    | resource id fields =>
      simp only [range, Tables.resource_of_lt (ho.resource_lt h)]
      by_cases hempty : fields.isEmpty = true
      · simp only [hempty, if_true]
        exact hrest _
      · simp only [hempty]
        exact (close_onlyOverflows (hfields _)).elim (fun f hf => hf) fun p _ => hrest p

end ShapeText

/-! ## Flatness -/

namespace Flat

/-- At most `depth` of the unions are not met yet. -/
structure State.Unmet (t : Tables) (depth : Nat) (s : State) : Prop where
  size_eq : s.met.size = t.unions.size
  count_le : s.met.count false ≤ depth

variable {t : Tables} {depth : Nat} {s : State} {id : UInt16}

theorem State.unmet_start (t : Tables) : (State.start t).Unmet t t.unions.size := by
  constructor
  · simp [start]
  · simp [start]

theorem State.Unmet.spoil (h : s.Unmet t depth) : s.spoil.Unmet t depth :=
  ⟨h.size_eq, h.count_le⟩

theorem State.Unmet.succ (h : s.Unmet t depth) : s.Unmet t (depth + 1) :=
  ⟨h.size_eq, Nat.le_succ_of_le h.count_le⟩

/-- A union that is not met is counted. -/
theorem State.Unmet.getElem_met (h : s.Unmet t depth) (hid : id.toNat < t.unions.size)
    (hmet : s.hasMet id = false) : s.met[id.toNat]? = some false := by
  have hlt : id.toNat < s.met.size := by rwa [h.size_eq]
  unfold hasMet at hmet
  rw [Array.getD_eq_getD_getElem?, Array.getElem?_eq_getElem hlt] at hmet
  rw [Array.getElem?_eq_getElem hlt]
  exact congrArg some hmet

theorem State.Unmet.pos (h : s.Unmet t depth) (hid : id.toNat < t.unions.size)
    (hmet : s.hasMet id = false) : 0 < depth := by
  have hmem : false ∈ s.met := Array.mem_of_getElem? (h.getElem_met hid hmet)
  exact Nat.lt_of_lt_of_le (Array.count_pos_iff.2 hmem) h.count_le

/-- Meeting a union uses up one level. -/
theorem State.Unmet.meet (h : s.Unmet t (depth + 1)) (hid : id.toNat < t.unions.size)
    (hmet : s.hasMet id = false) : (s.meet id).Unmet t depth := by
  obtain ⟨hlt, hget⟩ := Array.getElem?_eq_some_iff.1 (h.getElem_met hid hmet)
  have hcount := h.count_le
  constructor
  · simp [State.meet, h.size_eq]
  · unfold State.meet
    simp only [Array.setIfInBounds, hlt, dif_pos, Array.count_set, hget, beq_self_eq_true,
      if_true, beq_false, Bool.not_true, Bool.false_eq_true, if_false]
    omega

theorem range_yields {d : Descriptor} (h : d.Verified) {o : Outline} (ho : d.Part o)
    {single : Bool} (hone : single = true → o ≠ .done)
    {union : UInt16 → State → Except Fault State} {s : State}
    (hs : s.Unmet d.tables depth)
    (hunion : ∀ id : UInt16, id.toNat < d.tables.unions.size →
      ∀ s, s.Unmet d.tables depth →
      Yields d.LayoutOverflow (State.Unmet d.tables depth) (union id s)) :
    Yields d.LayoutOverflow (State.Unmet d.tables depth)
        (range d.tables union single o s) := by
  induction o generalizing single s with
  | done =>
    cases single with
    | true => exact absurd rfl (hone rfl)
    | false => exact hs
  | broken f => exact absurd rfl (ho.ne_broken h f)
  | cons node inner rest ihi ihr =>
    have hfields : Yields d.LayoutOverflow (State.Unmet d.tables depth)
        (range d.tables union false inner s) :=
      ihi ho.inner (by simp) hs
    have hvalue : node.holdsOne = true →
        Yields d.LayoutOverflow (State.Unmet d.tables depth)
          (range d.tables union true inner s) := by
      intro hholds
      exact ihi ho.inner (fun _ => ho.inner_ne_done h hholds) hs
    have hrest : ∀ s : State, s.Unmet d.tables depth →
        Yields d.LayoutOverflow (State.Unmet d.tables depth)
          (if single then .ok s else range d.tables union false rest s) := by
      intro s hs
      cases single with
      | true => exact hs
      | false => exact ihr ho.rest (by simp) hs
    cases node with
    | scalar => exact hrest s hs
    | pointer | handle => exact hrest _ hs.spoil
    | record | resource =>
      simp only [range]
      exact hfields.elim (fun f hf => hf) hrest
    | union id =>
      simp only [range]
      exact (hunion id (ho.union_lt h) s hs).elim (fun f hf => hf) hrest
    | run form plain elem =>
      simp only [range]
      refine (ho.inner.spacing h).elim (fun f hf => hf) ?_
      intro spacing _
      simp only
      cases form with
      | fixedVec count =>
        simp only
        exact (hvalue rfl).elim (fun f hf => hf) hrest
      | vec | unboxedVec | slice => exact hrest _ hs.spoil

theorem variants_yields {d : Descriptor} (h : d.Verified) {fs : List Bytes}
    (hfs : ∀ fields ∈ fs, d.Part (Outline.ofBytes fields))
    {union : UInt16 → State → Except Fault State} {s : State}
    (hs : s.Unmet d.tables depth)
    (hunion : ∀ id : UInt16, id.toNat < d.tables.unions.size →
      ∀ s, s.Unmet d.tables depth →
      Yields d.LayoutOverflow (State.Unmet d.tables depth) (union id s)) :
    Yields d.LayoutOverflow (State.Unmet d.tables depth) (variants d.tables union fs s) :=
        by
  induction fs generalizing s with
  | nil => exact hs
  | cons fields rest ih =>
    rw [List.forall_mem_cons] at hfs
    simp only [variants]
    split
    · have hrange : Yields d.LayoutOverflow (State.Unmet d.tables depth)
          (range d.tables union false (Outline.ofBytes fields) s) :=
        range_yields h hfs.1 (by simp) hs hunion
      exact hrange.elim (fun f hf => hf) fun s hs => ih hfs.2 hs
    · exact hs

theorem union_yields {d : Descriptor} (h : d.Verified) {id : UInt16}
    (hid : id.toNat < d.tables.unions.size) {s : State} (hs : s.Unmet d.tables depth) :
    Yields d.LayoutOverflow (State.Unmet d.tables depth) (union d.tables depth id s) := by
  induction depth generalizing id s with
  | zero =>
    unfold union
    simp only [Tables.union_of_lt hid]
    split
    · exact hs
    · rename_i hmet
      have hpos := hs.pos hid (Bool.eq_false_iff.2 hmet)
      omega
  | succ depth ih =>
    unfold union
    simp only [Tables.union_of_lt hid]
    split
    · exact hs
    · rename_i hmet
      have hmeet := hs.meet hid (Bool.eq_false_iff.2 hmet)
      refine (variants_yields h ?_ hmeet fun id hid s hs => ih hid hs).mono
        (fun _ _ hf => hf) fun _ _ hs => hs.succ
      intro fields hf
      exact .variant (Array.getElem_mem hid) (Array.mem_toList_iff.1 hf)

end Flat

/-! ## Listings -/

/-- The range of one union node. -/
theorem Outline.ofBytes_union (id : UInt16) :
    Outline.ofBytes (Emit.union id) = .cons (.union id) .done .done := by
  have hread : Node.read (Emit.union id) = .ok (.union id, []) := by
    unfold Emit.union
    rw [Verify.read_of_kind (Kind.ofByte?_byte .union)]
    have hsplit : Bytes.split? 2 (Emit.u16 id) = some (Emit.u16 id, []) :=
      Bytes.split?_eq_some_iff.2 ⟨(List.append_nil _).symm, Bytes.length_ofNat _ _⟩
    have hvalue : UInt16.ofNat (Bytes.toNat (Emit.u16 id)) = id := by
      unfold Emit.u16
      rw [Bytes.toNat_ofNat_of_lt id.toNat_lt]
      exact UInt16.ofNat_toNat
    simp only [Node.readOperands, Node.readUnion, Reader.u16_of_split? hsplit, hvalue]
  rw [Outline.ofBytes_of_read hread]
  simp [Node.nested]

namespace Listing

variable {d : Descriptor}

theorem text_onlyOverflows (h : d.Verified) {o : Outline} (ho : d.Part o) :
    d.OnlyOverflows (o.text d.tables) := by
  unfold Outline.text
  have hrange : d.OnlyOverflows (ShapeText.range d.tables false o .empty) :=
    ShapeText.range_onlyOverflows h ho (by simp)
  exact hrange.elim (fun f hf => hf) fun p _ => trivial

theorem root_onlyOverflows (h : d.Verified) (c : Palette) : d.OnlyOverflows (root d c) := by
  simp only [root]
  refine (Descriptor.Part.root.layout h).elim (fun f hf => hf) ?_
  intro l _
  refine (text_onlyOverflows h .root).elim (fun f hf => hf) ?_
  intro text _
  trivial

theorem variants_onlyOverflows (h : d.Verified) (c : Palette) {u : Union}
    (hu : u ∈ d.tables.unions) {index : Nat} {fs : List Bytes}
    (hfs : ∀ fields ∈ fs, fields ∈ u.variants) {before : String} :
    d.OnlyOverflows (variants d.tables c u index fs before) := by
  induction fs generalizing index before with
  | nil => trivial
  | cons fields rest ih =>
    rw [List.forall_mem_cons] at hfs
    have hline : d.OnlyOverflows (variant d.tables c u index fields) := by
      unfold variant
      exact (text_onlyOverflows h (.variant hu hfs.1)).elim
        (fun f hf => hf) fun text _ => trivial
    unfold variants
    exact hline.elim (fun f hf => hf) fun line _ => ih hfs.2

theorem unionLine_onlyOverflows (h : d.Verified) (c : Palette) (width : Nat) {index : Nat}
    (hindex : index < d.tables.unions.size) :
    d.OnlyOverflows (unionLine d.tables c width index) := by
  have hid : (UInt16.ofNat index).toNat < d.tables.unions.size := by
    rw [UInt16.toNat_ofNat']
    exact Nat.lt_of_le_of_lt (Nat.mod_le _ _) hindex
  unfold unionLine Bytes.layout
  rw [Outline.ofBytes_union]
  exact ((Descriptor.Part.union hid).layout h).elim (fun f hf => hf) fun l _ => trivial

theorem unions_onlyOverflows (h : d.Verified) (c : Palette) (width : Nat) {index : Nat}
    {us : List Union} (hus : ∀ u ∈ us, u ∈ d.tables.unions)
    (hindex : index + us.length = d.tables.unions.size) {before : String} :
    d.OnlyOverflows (unions d.tables c width index us before) := by
  induction us generalizing index before with
  | nil => trivial
  | cons u rest ih =>
    rw [List.forall_mem_cons] at hus
    rw [List.length_cons] at hindex
    have hline : d.OnlyOverflows (unionLine d.tables c width index) :=
      unionLine_onlyOverflows h c width (by omega)
    unfold unions
    refine hline.elim (fun f hf => hf) ?_
    intro line _
    simp only
    have hvariants :
        d.OnlyOverflows (variants d.tables c u 0 u.variants.toList (before ++ line)) :=
      variants_onlyOverflows h c hus.1 fun _ hf => Array.mem_toList_iff.1 hf
    refine hvariants.elim (fun f hf => hf) ?_
    intro sofar _
    exact ih hus.2 (by omega)

theorem unionSection_onlyOverflows (h : d.Verified) (c : Palette) :
    d.OnlyOverflows (unionSection d.tables c) := by
  unfold unionSection
  split
  · trivial
  · exact unions_onlyOverflows h c _ (fun _ hu => Array.mem_toList_iff.1 hu) (by simp)

end Listing

/-! ## Verified descriptors -/

namespace Descriptor

variable {d : Descriptor}

theorem isFlat_onlyOverflows (h : d.Verified) {o : Outline} (ho : d.Part o) :
    d.OnlyOverflows (o.isFlat d.tables) := by
  unfold Outline.isFlat
  have hrange : Yields d.LayoutOverflow (Flat.State.Unmet d.tables d.tables.unions.size)
      (Flat.range d.tables (Flat.union d.tables d.tables.unions.size)
        false o (.start d.tables)) :=
    Flat.range_yields h ho (by simp) (Flat.State.unmet_start d.tables)
      fun id hid s hs => Flat.union_yields h hid hs
  exact hrange.elim (fun f hf => hf) fun s _ => trivial

theorem tour_onlyOverflows (h : d.Verified) {o : Outline} (ho : d.Part o) :
    d.OnlyOverflows (o.tour d.tables) := by
  unfold Outline.tour
  have hvisits : d.OnlyOverflows (Tour.visits d.tables false o []) :=
    Tour.visits_onlyOverflows h ho (by simp)
  exact hvisits.elim (fun f hf => hf) fun seen _ => trivial

theorem listing_onlyOverflows (h : d.Verified) (c : Palette) :
    d.OnlyOverflows (d.listing c) := by
  unfold listing
  refine (Listing.root_onlyOverflows h c).elim (fun f hf => hf) ?_
  intro root _
  refine (Listing.unionSection_onlyOverflows h c).elim (fun f hf => hf) ?_
  intro unions _
  trivial

/-- What verification accepts can be measured, judged, written, listed and toured; the only
fault any of these ends in is an overflow in the layout of a part of the descriptor. -/
theorem verified_onlyOverflows (h : d.verify = .ok ()) :
    d.OnlyOverflows ((Outline.ofBytes d.shape).layout d.tables) ∧
      d.OnlyOverflows ((Outline.ofBytes d.shape).isFlat d.tables) ∧
      d.OnlyOverflows ((Outline.ofBytes d.shape).text d.tables) ∧
      (∀ u ∈ d.tables.unions, ∀ fields ∈ u.variants,
        d.OnlyOverflows ((Outline.ofBytes fields).text d.tables)) ∧
      (∀ c, d.OnlyOverflows (d.listing c)) ∧
      d.OnlyOverflows ((Outline.ofBytes d.shape).tour d.tables) := by
  have hv := verified_of_verify h
  refine ⟨Part.root.layout hv, isFlat_onlyOverflows hv .root,
    Listing.text_onlyOverflows hv .root, ?_,
    listing_onlyOverflows hv, tour_onlyOverflows hv .root⟩
  intro u hu fields hf
  exact Listing.text_onlyOverflows hv (.variant hu hf)

/-- A list of words: a union that lies inside itself behind a box. -/
def list : Descriptor where
  shape := Emit.union 0
  tables :=
    ⟨#[⟨#[[], [(Kind.scalar .u64).byte, Kind.box.byte, 3, 0, Kind.union.byte, 0, 0]],
      [1]⟩], #[]⟩

theorem verified_onlyOverflows_list :
    list.verify = .ok () ∧
      list.OnlyOverflows ((Outline.ofBytes list.shape).layout list.tables) ∧
      list.OnlyOverflows ((Outline.ofBytes list.shape).isFlat list.tables) :=
  have h : list.verify = .ok () := by decide +kernel
  ⟨h, (verified_onlyOverflows h).1, (verified_onlyOverflows h).2.1⟩

end Descriptor

end ShapeCode
