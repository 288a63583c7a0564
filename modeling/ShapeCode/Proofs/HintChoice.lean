import ShapeCode.Proofs.CycleSearch
import ShapeCode.Proofs.RoomForLayouts

set_option autoImplicit false

/-!
# What hints decide

A hint says which variants of a union are measured.  Two descriptors that differ in
their hints alone measure alike up to size: `Layout.Within` relates what one and the
other give, and every operation on layouts keeps it.  Alignments agree, since a union
with a discriminant has the alignment of a word whichever variants are measured, and a
union of one variant has a hint that names just this one.  For the same reason no size
is zero in one and not in the other, so the exception that is made for unions of no size
is made in both.  Sizes go up with the variants that are covered
(`Unbounded.unionStep_within`).

If every hint names a variant that is largest when all are measured, then measuring all
gives the same layouts (`Tables.Verified.unionLayout_hintAll`).
-/

namespace ShapeCode

/-! ## Descriptors that differ in their hints -/

/-- The unions have the same variants, whatever their hints. -/
structure Tables.SameButHints (t t' : Tables) : Prop where
  variants : t.unions.map Union.variants = t'.unions.map Union.variants
  resources : t.resources = t'.resources

/-- The descriptors differ in their hints alone. -/
structure Descriptor.SameButHints (d d' : Descriptor) : Prop where
  shape : d.shape = d'.shape
  tables : d.tables.SameButHints d'.tables

/-- Every variant that the hints of one table name is named by those of the other. -/
def Tables.HintsWithin (t t' : Tables) : Prop :=
  ∀ (i : Nat) (u u' : Union), t.unions[i]? = some u →
    t'.unions[i]? = some u' → u.hint ⊆ u'.hint

/-- The union with every variant hinted that a hint can name. -/
def Union.hintAll (u : Union) : Union :=
  { u with hint := (List.range u.variants.size).map UInt16.ofNat }

/-- The tables with every variant hinted. -/
def Tables.hintAll (t : Tables) : Tables := { t with unions := t.unions.map Union.hintAll }

/-- The hint of every union that has variants names one that is largest when all
variants of all unions are measured, in unbounded arithmetic. -/
def Tables.HintsLargest (t : Tables) : Prop :=
  ∀ u ∈ t.unions, u.variants.size ≠ 0 →
    ∃ h ∈ u.hint, ∀ v : UInt16, v.toNat < u.variants.size →
    (Unbounded.variantLayout (Unbounded.unionLayout t.hintAll) u v).size ≤
      (Unbounded.variantLayout (Unbounded.unionLayout t.hintAll) u h).size

namespace Tables.SameButHints

variable {t t' : Tables}

theorem size_eq (h : t.SameButHints t') : t.unions.size = t'.unions.size := by
  simpa using congrArg Array.size h.variants

theorem symm (h : t.SameButHints t') : t'.SameButHints t :=
  ⟨h.variants.symm, h.resources.symm⟩

theorem variants_eq (h : t.SameButHints t') {i : Nat} {u u' : Union}
    (hu : t.unions[i]? = some u) (hu' : t'.unions[i]? = some u') :
    u.variants = u'.variants := by
  have hget := congrArg (fun a => a[i]?) h.variants
  simpa [hu, hu'] using hget

/-- A union of one table stands in the other with its variants. -/
theorem exists_union (h : t.SameButHints t') {i : Nat} {u : Union}
    (hu : t.unions[i]? = some u) :
    ∃ u', t'.unions[i]? = some u' ∧ u.variants = u'.variants := by
  obtain ⟨hlt, -⟩ := Array.getElem?_eq_some_iff.1 hu
  have hlt' : i < t'.unions.size := h.size_eq ▸ hlt
  have hu' : t'.unions[i]? = some t'.unions[i] := Array.getElem?_eq_getElem hlt'
  exact ⟨_, hu', h.variants_eq hu hu'⟩

theorem sound_iff (h : t.SameButHints t') {o : Outline} : o.Sound t ↔ o.Sound t' := by
  induction o with
  | done | broken => exact Iff.rfl
  | cons node inner rest ihi ihr =>
    have hids : node.IdsIn t ↔ node.IdsIn t' := by
      cases node with
      | union id => simp only [Node.IdsIn, h.size_eq]
      | resource id => simp only [Node.IdsIn, h.resources]
      | _ => exact Iff.rfl
    simp only [Outline.Sound, hids, ihi, ihr]

theorem inside (h : t.SameButHints t') {i j : Nat}
    (hij : t.Inside i j) : t'.Inside i j := by
  obtain ⟨u, id, hu, hid, fields, hfields, hstores⟩ := hij
  obtain ⟨u', hu', hvariants⟩ := h.exists_union hu
  exact ⟨u', id, hu', hid, fields, hvariants ▸ hfields, hstores⟩

/-- Tables with other hints are verified if these name variants. -/
theorem verified (h : t.SameButHints t') (ht : t.Verified)
    (hhints : ∀ u ∈ t'.unions, ∀ v ∈ u.hint, v.toNat < u.variants.size) :
    t'.Verified where
  sound := by
    refine ⟨hhints, fun u hu fields hfields => ?_⟩
    obtain ⟨i, hi⟩ := Array.mem_iff_getElem?.1 hu
    obtain ⟨u', hu', hvariants⟩ := h.symm.exists_union hi
    exact h.sound_iff.1
      (ht.sound.variant_sound u' (Array.mem_of_getElem? hu') fields (hvariants ▸ hfields))
  acyclic := Subrelation.wf (fun hij => h.symm.inside hij) ht.acyclic

/-- Tables that differ in their hints are the same once all variants are hinted. -/
theorem hintAll_eq (h : t.SameButHints t') : t.hintAll = t'.hintAll := by
  have hall : ∀ t : Tables,
      t.unions.map Union.hintAll = (t.unions.map Union.variants).map fun variants =>
      (⟨variants, []⟩ : Union).hintAll := by
    intro t
    rw [Array.map_map]
    rfl
  unfold Tables.hintAll
  rw [hall t, hall t', h.variants, h.resources]

end Tables.SameButHints

/-! ## Hinting all variants -/

namespace Union

variable {u : Union} {v : UInt16}

theorem mem_hintAll (h : v.toNat < u.variants.size) : v ∈ u.hintAll.hint :=
  List.mem_map.2 ⟨v.toNat, List.mem_range.2 h, UInt16.ofNat_toNat⟩

theorem lt_of_mem_hintAll (h : v ∈ u.hintAll.hint) : v.toNat < u.variants.size := by
  obtain ⟨n, hn, rfl⟩ := List.mem_map.1 h
  rw [UInt16.toNat_ofNat']
  exact Nat.lt_of_le_of_lt (Nat.mod_le _ _) (List.mem_range.1 hn)

end Union

/-- The hint names variants, and at least one if there is any. -/
structure Union.Hinted (u : Union) : Prop where
  lt : ∀ v ∈ u.hint, v.toNat < u.variants.size
  ne_nil : u.variants.size ≠ 0 → u.hint ≠ []

theorem Union.hinted_none : Union.none.Hinted :=
  ⟨by simp [Union.none], by simp [Union.none]⟩

theorem Union.hinted_hintAll (u : Union) : u.hintAll.Hinted :=
  ⟨fun _ => lt_of_mem_hintAll, by simp [hintAll]⟩

theorem Tables.sameButHints_hintAll (t : Tables) : t.SameButHints t.hintAll :=
  ⟨by simp [hintAll, Function.comp_def, Union.hintAll], rfl⟩

theorem Descriptor.hinted_of_mem {d : Descriptor} (h : d.verify = .ok ()) {u : Union}
    (hu : u ∈ d.tables.unions) : u.Hinted := by
  obtain ⟨hlt, hne⟩ :=
    Verify.hint_accepted_iff.1 (hinted_of_verify h u (Array.mem_toList_iff.2 hu))
  exact ⟨hlt, fun hsize => hne (by simpa using hsize)⟩

/-! ## Layouts within others -/

theorem Word.roundUp_eq_zero_iff {n align : Nat} (h : IsAlign align) :
    roundUp n align = 0 ↔ n = 0 := by
  have hle := le_roundUp (n := n) h
  constructor
  · omega
  · rintro rfl
    exact roundUp_of_dvd h (Nat.dvd_zero _)

/-- The layouts have one alignment, no size or both a size, and if `p` holds the
first is no larger. -/
structure Layout.Within (p : Prop) (l l' : Layout) : Prop where
  isAlign : Word.IsAlign l.align
  align_eq : l.align = l'.align
  empty_iff : l.size = 0 ↔ l'.size = 0
  size_le : p → l.size ≤ l'.size

theorem Layout.Within.refl {p : Prop} {l : Layout}
    (h : Word.IsAlign l.align) : l.Within p l :=
  ⟨h, rfl, Iff.rfl, fun _ => Nat.le_refl _⟩

namespace Unbounded

variable {p : Prop} {l l' f f' : Layout} {union union' : UInt16 → Layout} {u u' : Union}

theorem place_within (h : l.Within p l') (hf : f.Within p f') :
    (place l f).Within p (place l' f') where
  isAlign := h.isAlign.max hf.isAlign
  align_eq := by simp only [place, h.align_eq, hf.align_eq]
  empty_iff := by
    simp only [place, Nat.add_eq_zero_iff, Word.roundUp_eq_zero_iff hf.isAlign,
      ← hf.align_eq, h.empty_iff, hf.empty_iff]
  size_le hp := by
    simp only [place, ← hf.align_eq]
    exact Nat.add_le_add (Word.roundUp_mono (h.size_le hp)) (hf.size_le hp)

theorem foldl_place_within {fs fs' : List Layout}
    (hfs : List.Forall₂ (Layout.Within p) fs fs') (h : l.Within p l') :
    (fs.foldl place l).Within p (fs'.foldl place l') := by
  induction hfs generalizing l l' with
  | nil => exact h
  | cons hf _ ih => exact ih (place_within h hf)

theorem padded_within (h : l.Within p l') :
    Layout.Within p ⟨Word.roundUp l.size l.align, l.align⟩
        ⟨Word.roundUp l'.size l'.align, l'.align⟩ where
  isAlign := h.isAlign
  align_eq := h.align_eq
  empty_iff := by
    rw [← h.align_eq]
    simp only [Word.roundUp_eq_zero_iff h.isAlign, h.empty_iff]
  size_le hp := by
    rw [← h.align_eq]
    exact Word.roundUp_mono (h.size_le hp)

theorem record_within {fs fs' : List Layout} (hfs : List.Forall₂ (Layout.Within p) fs fs')
    (h : l.Within p l') :
    (record l fs).Within p (record l' fs') :=
  padded_within (foldl_place_within hfs h)

theorem nodeLayout_within (hunion : ∀ id, (union id).Within p (union' id))
    (h : l.Within p l') (node : Node) :
    (nodeLayout union l node).Within p (nodeLayout union' l' node) := by
  have hword : ∀ size, Layout.Within p ⟨size, 8⟩ ⟨size, 8⟩ := fun _ =>
    .refl (.inr (.inr (.inr rfl)))
  cases node with
  | scalar s => exact .refl s.layout_proper.isAlign
  | record | resource => exact h
  | union id => exact hunion id
  | pointer | handle => exact hword _
  | run form =>
    cases form with
    | vec | unboxedVec | slice => exact hword _
    | fixedVec count =>
      refine ⟨h.isAlign, h.align_eq, ?_, fun hp => Nat.mul_le_mul_left _ (h.size_le hp)⟩
      simp only [nodeLayout, Nat.mul_eq_zero, h.empty_iff]

theorem fields_within (hunion : ∀ id, (union id).Within p (union' id)) (o : Outline) :
    List.Forall₂ (Layout.Within p) (fields union o) (fields union' o) := by
  induction o with
  | done | broken => exact .nil
  | cons node inner rest ihi ihr =>
    have hnested := record_within ihi (.refl (l := ⟨0, 1⟩) Layout.isAlign_empty)
    exact .cons (nodeLayout_within hunion hnested node) ihr

/-! ## Unions -/

theorem variantLayout_within (hvariants : u.variants = u'.variants)
    (hunion : ∀ id, (union id).Within p (union' id)) (v : UInt16) :
    (variantLayout union u v).Within p (variantLayout union' u' v) := by
  have hhead : (head u).Within p (head u') := by
    unfold head
    rw [hvariants]
    split
    · exact .refl (.inr (.inr (.inr rfl)))
    · exact .refl Layout.isAlign_empty
  unfold variantLayout
  rw [hvariants]
  exact record_within (fields_within hunion _) hhead

theorem foldl_max_le_iff {ns : List Nat} {n m : Nat} :
    ns.foldl max n ≤ m ↔ n ≤ m ∧ ∀ k ∈ ns, k ≤ m := by
  induction ns generalizing n with
  | nil => simp
  | cons k rest ih => simp [ih, and_assoc]

/-- A variant behind a discriminant takes a word at least, and has the alignment of one. -/
theorem variantLayout_of_discriminant (hunion : ∀ id, Word.IsAlign (union id).align)
    (hmany : 1 < u.variants.size) (v : UInt16) :
    8 ≤ (variantLayout union u v).size ∧ (variantLayout union u v).align = 8 := by
  have hwithin : ∀ id, (union id).Within False (union id) := fun id => .refl (hunion id)
  have halign := (variantLayout_within (u := u) rfl hwithin v).isAlign
  have hpos :=
    fields_align_pos (fun id => (hunion id).pos)
      (Outline.ofBytes (u.variants.getD v.toNat []))
  have hhead := le_foldl_place (l := head u) hpos
  have hround :=
    Word.le_roundUp
      (n := ((fields union (Outline.ofBytes (u.variants.getD v.toNat []))).foldl place
        (head u)).size) halign
  have hle := halign.le
  simp only [variantLayout, record, head, hmany, if_true] at *
  omega

/-- The widest of variants that are one and the same is this one. -/
theorem widest_of_forall_eq {ls : List Layout} (hne : ls ≠ []) (h : ∀ l' ∈ ls, l' = l)
    (hl : 1 ≤ l.align) : widest ⟨0, 1⟩ ls = l := by
  obtain ⟨l', hl'⟩ := List.exists_mem_of_ne_nil ls hne
  obtain rfl := h l' hl'
  have hmax : ∀ f : Layout → Nat, ∀ n ≤ f l', (ls.map f).foldl max n = f l' := by
    intro f n hn
    apply Nat.le_antisymm
    · refine foldl_max_le_iff.2 ⟨hn, fun k hk => ?_⟩
      obtain ⟨l, hl, rfl⟩ := List.mem_map.1 hk
      rw [h l hl]
    · exact (foldl_max_le_iff.1 (Nat.le_refl _)).2 _ (List.mem_map_of_mem hl')
  unfold widest
  rw [hmax Layout.size 0 (Nat.zero_le _), hmax Layout.align 1 hl]

/-- Of variants behind a discriminant, the widest takes a word at least, and has the
alignment of one. -/
theorem widest_of_discriminant (hunion : ∀ id, Word.IsAlign (union id).align)
    (hmany : 1 < u.variants.size) {vs : List UInt16} (hne : vs ≠ []) :
    8 ≤ (widest ⟨0, 1⟩ (vs.map (variantLayout union u))).size ∧
      (widest ⟨0, 1⟩ (vs.map (variantLayout union u))).align = 8 := by
  obtain ⟨v, hv⟩ := List.exists_mem_of_ne_nil vs hne
  have hvariant := variantLayout_of_discriminant hunion hmany
  have hmem : variantLayout union u v ∈ vs.map (variantLayout union u) :=
    List.mem_map_of_mem hv
  refine ⟨(hvariant v).1.trans ?_, Nat.le_antisymm ?_ ((hvariant v).2.ge.trans ?_)⟩
  · exact (foldl_max_le_iff.1 (Nat.le_refl _)).2 _ (List.mem_map_of_mem hmem)
  · refine foldl_max_le_iff.2 ⟨by decide, fun k hk => ?_⟩
    simp only [List.map_map, List.mem_map, Function.comp_apply] at hk
    obtain ⟨w, -, rfl⟩ := hk
    exact (hvariant w).2.le
  · exact (foldl_max_le_iff.1 (Nat.le_refl _)).2 _ (List.mem_map_of_mem hmem)

/-- Unions of the same variants, whose hints name different ones, have layouts that
differ in size at most, and in the order of the variants that the hints cover. -/
theorem unionStep_within (hvariants : u.variants = u'.variants) (hu : u.Hinted)
    (hu' : u'.Hinted) (hunion : ∀ id, (union id).Within p (union' id))
    (hcover : p → ∀ v ∈ u.hint, ∃ v' ∈ u'.hint, (variantLayout union u v).size ≤
      (variantLayout union' u' v').size) :
    (unionStep union u).Within p (unionStep union' u') := by
  have hsize : u'.variants.size = u.variants.size := by rw [hvariants]
  have hvariant := variantLayout_within hvariants hunion
  have halign' : ∀ id, Word.IsAlign (union' id).align := fun id =>
    (hunion id).align_eq ▸ (hunion id).isAlign
  unfold unionStep
  rcases Nat.lt_trichotomy u.variants.size 1 with hnone | hone | hmany
  · -- Without variants nothing is hinted, and nothing is measured.
    have hnil : u.hint = [] := List.eq_nil_iff_forall_not_mem.2 fun v hv => by
      have := hu.lt v hv
      omega
    have hnil' : u'.hint = [] := List.eq_nil_iff_forall_not_mem.2 fun v hv => by
      have := hu'.lt v hv
      omega
    simp only [hnil, hnil', List.map_nil, hsize]
    rw [if_pos ⟨rfl, by omega⟩]
    exact .refl (.inl rfl)
  · -- Both hints name the one variant there is.
    have hzero : ∀ v ∈ u.hint, v = 0 := fun v hv =>
      UInt16.toNat_inj.1 (by simpa [hone] using hu.lt v hv)
    have hzero' : ∀ v ∈ u'.hint, v = 0 := fun v hv =>
      UInt16.toNat_inj.1 (by simpa [hsize, hone] using hu'.lt v hv)
    have hwidest : widest ⟨0, 1⟩ (u.hint.map (variantLayout union u)) =
        variantLayout union u 0 := by
      refine widest_of_forall_eq (by simpa using hu.ne_nil (by omega)) ?_
        (hvariant 0).isAlign.pos
      intro l hl
      obtain ⟨v, hv, rfl⟩ := List.mem_map.1 hl
      rw [hzero v hv]
    have hwidest' : widest ⟨0, 1⟩ (u'.hint.map (variantLayout union' u')) =
        variantLayout union' u' 0 := by
      refine widest_of_forall_eq (by simpa using hu'.ne_nil (by omega)) ?_
        ((hvariant 0).align_eq ▸ (hvariant 0).isAlign.pos)
      intro l hl
      obtain ⟨v, hv, rfl⟩ := List.mem_map.1 hl
      rw [hzero' v hv]
    simp only [hwidest, hwidest', hsize, hone, Nat.le_refl,
      and_true, (hvariant 0).empty_iff]
    split
    · exact .refl (.inl rfl)
    · exact padded_within (hvariant 0)
  · -- The discriminant has the largest alignment there is.
    obtain ⟨hword, halign⟩ :=
      widest_of_discriminant (fun id => (hunion id).isAlign) hmany (hu.ne_nil (by omega))
    obtain ⟨hword', halign'⟩ :=
      widest_of_discriminant halign' (hsize ▸ hmany) (hu'.ne_nil (by omega))
    simp only
    rw [if_neg (by omega), if_neg (by omega)]
    refine padded_within ⟨halign ▸ .inr (.inr (.inr rfl)), halign.trans halign'.symm,
      by omega, fun hp => ?_⟩
    refine foldl_max_le_iff.2 ⟨Nat.zero_le _, fun k hk => ?_⟩
    simp only [List.map_map, List.mem_map, Function.comp_apply] at hk
    obtain ⟨v, hv, rfl⟩ := hk
    obtain ⟨v', hv', hle⟩ := hcover hp v hv
    exact hle.trans ((foldl_max_le_iff.1 (Nat.le_refl _)).2 _
      (List.mem_map_of_mem (List.mem_map_of_mem hv')))

/-- Measuring with more variants hinted gives layouts that are no smaller, and differ
in nothing else. -/
theorem unionAt_within {t t' : Tables} (h : t.SameButHints t')
    (ht : ∀ u ∈ t.unions, u.Hinted) (ht' : ∀ u ∈ t'.unions, u.Hinted)
    (hp : p → t.HintsWithin t') (depth : Nat) (id : UInt16) :
    (unionAt t depth id).Within p (unionAt t' depth id) := by
  induction depth generalizing id with
  | zero => exact .refl Layout.isAlign_empty
  | succ depth ih =>
    simp only [unionAt, Array.getD_eq_getD_getElem?]
    cases hu : t.unions[id.toNat]? with
    | none =>
      have hnone : t'.unions[id.toNat]? = none := by
        rw [Array.getElem?_eq_none_iff] at hu ⊢
        rwa [← h.size_eq]
      rw [hnone]
      exact unionStep_within rfl Union.hinted_none Union.hinted_none ih
        fun _ v hv => by cases hv
    | some u =>
      obtain ⟨u', hu', hvariants⟩ := h.exists_union hu
      rw [hu']
      refine unionStep_within hvariants (ht u (Array.mem_of_getElem? hu))
        (ht' u' (Array.mem_of_getElem? hu')) ih ?_
      intro hle v hv
      exact ⟨v, hp hle _ u u' hu hu' hv,
        (variantLayout_within hvariants ih v).size_le hle⟩

theorem layout_within {t t' : Tables} (h : t.SameButHints t')
    (ht : ∀ u ∈ t.unions, u.Hinted) (ht' : ∀ u ∈ t'.unions, u.Hinted)
    (hp : p → t.HintsWithin t') (o : Outline) :
    (layout t o).Within p (layout t' o) := by
  have hunion : ∀ id, (unionLayout t id).Within p (unionLayout t' id) := by
    unfold unionLayout
    rw [← h.size_eq]
    exact unionAt_within h ht ht' hp _
  exact record_within (fields_within hunion o) (.refl Layout.isAlign_empty)

/-- A hint that names a largest variant is as good as one that names them all. -/
theorem unionStep_hintAll (hunion : ∀ id, Word.IsAlign (union id).align) (hu : u.Hinted)
    (hlargest : u.variants.size ≠ 0 →
      ∃ h ∈ u.hint, ∀ v : UInt16, v.toNat < u.variants.size →
      (variantLayout union u v).size ≤ (variantLayout union u h).size) :
    unionStep union u = unionStep union u.hintAll := by
  have hsame : ∀ v, variantLayout union u.hintAll v = variantLayout union u v := fun _ =>
    rfl
  have hup : (unionStep union u).Within True (unionStep union u.hintAll) := by
    refine unionStep_within rfl hu u.hinted_hintAll
      (fun id => .refl (hunion id)) fun _ v hv => ?_
    exact ⟨v, Union.mem_hintAll (hu.lt v hv), (hsame v).symm ▸ Nat.le_refl _⟩
  have hdown : (unionStep union u.hintAll).Within True (unionStep union u) := by
    refine unionStep_within rfl u.hinted_hintAll hu
      (fun id => .refl (hunion id)) fun _ v hv => ?_
    have hlt := Union.lt_of_mem_hintAll hv
    obtain ⟨h, hh, hle⟩ := hlargest (by omega)
    exact ⟨h, hh, (hsame v).symm ▸ hle v hlt⟩
  have hsize := Nat.le_antisymm (hup.size_le trivial) (hdown.size_le trivial)
  have halign := hup.align_eq
  generalize unionStep union u = l at hsize halign
  generalize unionStep union u.hintAll = l' at hsize halign
  obtain ⟨size, align⟩ := l
  obtain ⟨size', align'⟩ := l'
  obtain rfl : size = size' := hsize
  obtain rfl : align = align' := halign
  rfl

end Unbounded

namespace Tables.Verified

variable {t : Tables} (ht : t.Verified)

include ht

/-- What is measured of a sound range without leaving the word is the layout of
unbounded arithmetic. -/
theorem layout_eq_unbounded {o : Outline} (ho : o.Sound t)
    (hfits : ∀ f, o.layout t = .error f → ¬ f.Overflow) :
    o.layout t = .ok (Unbounded.layout t o) := by
  rcases (ht.layout_good ho).cases with ⟨f, hf, hover⟩ | ⟨l, hl, -⟩
  · exact absurd hover (hfits f hf)
  · obtain rfl := Unbounded.layout_eq ((ht.layout_eq ho).symm.trans hl)
    exact hl

/-- Where every hint names a largest variant, unions have the layouts that hinting all
variants gives. -/
theorem unionLayout_hintAll (hhinted : ∀ u ∈ t.unions, u.Hinted)
    (hlargest : t.HintsLargest) {id : UInt16} (hid : id.toNat < t.unions.size) :
    Unbounded.unionLayout t id = Unbounded.unionLayout t.hintAll id := by
  have hall : ∀ u ∈ t.hintAll.unions, u.Hinted := by
    intro u hu
    obtain ⟨u, -, rfl⟩ := Array.mem_map.1 hu
    exact u.hinted_hintAll
  have hsame := t.sameButHints_hintAll
  have ht' : t.hintAll.Verified := hsame.verified ht fun u hu => (hall u hu).lt
  have halign : ∀ id, Word.IsAlign (Unbounded.unionLayout t.hintAll id).align := fun id =>
    (Unbounded.unionAt_within (p := False) ⟨rfl, rfl⟩ hall hall False.elim _ id).isAlign
  generalize hi : id.toNat = i at hid
  induction i using ht.acyclic.induction generalizing id with
  | h i ih =>
    subst hi
    have hu := Tables.union_of_lt hid
    have hmem := Tables.mem_of_union hu
    have hu' : t.hintAll.union id = .ok t.unions[id.toNat].hintAll :=
      Tables.union_eq_ok_iff.2 (by simp [hintAll, hid])
    calc Unbounded.unionLayout t id
        = Unbounded.unionStep (Unbounded.unionLayout t) t.unions[id.toNat] :=
          Unbounded.unionLayout_eq ht hu
      _ = Unbounded.unionStep (Unbounded.unionLayout t.hintAll) t.unions[id.toNat] :=
          Unbounded.unionStep_congr ht.sound hu fun id' hid' =>
            ih id'.toNat hid' rfl (ht.sound.lt_of_inside hid')
      _ = Unbounded.unionStep (Unbounded.unionLayout t.hintAll)
        t.unions[id.toNat].hintAll :=
          Unbounded.unionStep_hintAll halign (hhinted _ hmem) (hlargest _ hmem)
      _ = Unbounded.unionLayout t.hintAll id := (Unbounded.unionLayout_eq ht' hu').symm

theorem layout_hintAll (hhinted : ∀ u ∈ t.unions, u.Hinted) (hlargest : t.HintsLargest)
    {o : Outline} (ho : o.Sound t) :
    Unbounded.layout t o = Unbounded.layout t.hintAll o := by
  unfold Unbounded.layout
  rw [Unbounded.fields_congr fun id hid =>
    ht.unionLayout_hintAll hhinted hlargest (ho.lt_of_stores hid)]

end Tables.Verified

/-! ## Measuring with other hints -/

namespace Descriptor

/-- Descriptors that differ in their hints alone measure every sound range with one
alignment; with no larger a size, where every hint of the first is part of that of the
second; and with the same layout, where the hints of both name variants that are largest
when all are measured. -/
theorem hints_change_size_only {d d' : Descriptor} (hverify : d.verify = .ok ())
    (hverify' : d'.verify = .ok ()) (hsame : d.SameButHints d') {o : Outline}
    (ho : o.Sound d.tables) (hfits : ∀ f, o.layout d.tables = .error f → ¬ f.Overflow)
    (hfits' : ∀ f, o.layout d'.tables = .error f → ¬ f.Overflow) :
    ∃ l l', o.layout d.tables = .ok l ∧
      o.layout d'.tables = .ok l' ∧ l.align = l'.align ∧
      (d.tables.HintsWithin d'.tables → l.size ≤ l'.size) ∧
      (d.tables.HintsLargest → d'.tables.HintsLargest → l = l') := by
  have hv := (verified_of_verify hverify).tables
  have hv' := (verified_of_verify hverify').tables
  have hhinted : ∀ u ∈ d.tables.unions, u.Hinted := fun u => hinted_of_mem hverify
  have hhinted' : ∀ u ∈ d'.tables.unions, u.Hinted := fun u => hinted_of_mem hverify'
  have ho' := hsame.tables.sound_iff.1 ho
  have hwithin :=
    Unbounded.layout_within (p := d.tables.HintsWithin d'.tables)
      hsame.tables hhinted hhinted' id o
  refine ⟨_, _, hv.layout_eq_unbounded ho hfits,
    hv'.layout_eq_unbounded ho' hfits', hwithin.align_eq,
    hwithin.size_le, fun hlargest hlargest' => ?_⟩
  calc Unbounded.layout d.tables o
      = Unbounded.layout d.tables.hintAll o := hv.layout_hintAll hhinted hlargest ho
    _ = Unbounded.layout d'.tables.hintAll o := by rw [hsame.tables.hintAll_eq]
    _ = Unbounded.layout d'.tables o := (hv'.layout_hintAll hhinted' hlargest' ho').symm

/-- A byte and a union of a small variant and a large one. -/
def choosing (hint : List UInt16) : Descriptor where
  shape := Kind.record.byte :: 4 :: 0 :: (Emit.scalar .u8 ++ Emit.union 0)
  tables :=
    ⟨#[⟨#[Emit.scalar .u8, Emit.scalar .u64 ++ Emit.scalar .u64], hint⟩], #[]⟩

theorem choosing_same (hint hint' : List UInt16) :
    (choosing hint).SameButHints (choosing hint') :=
  ⟨rfl, by simp [choosing], rfl⟩

/-- A hint that names the large variant names one that is largest. -/
theorem choosing_hintsLargest {hint : List UInt16} (h : 1 ∈ hint) :
    (choosing hint).tables.HintsLargest := by
  intro u hu _
  obtain rfl : u = ⟨#[Emit.scalar .u8, Emit.scalar .u64 ++ Emit.scalar .u64], hint⟩ :=
      by
    simpa [choosing] using hu
  refine ⟨1, h, fun v hv => ?_⟩
  rw [(choosing_same hint []).tables.hintAll_eq]
  have hall : ∀ v : Fin 2,
      (Unbounded.variantLayout (Unbounded.unionLayout (choosing []).tables.hintAll)
      ⟨#[Emit.scalar .u8, Emit.scalar .u64 ++ Emit.scalar .u64],
        []⟩ (UInt16.ofNat v)).size ≤ 24 := by decide +kernel
  have hone : (Unbounded.variantLayout (Unbounded.unionLayout (choosing []).tables.hintAll)
      ⟨#[Emit.scalar .u8, Emit.scalar .u64 ++ Emit.scalar .u64],
        []⟩ 1).size = 24 := by decide +kernel
  have hv' := hall ⟨v.toNat, hv⟩
  simp only [UInt16.ofNat_toNat] at hv'
  exact hv'.trans hone.ge

theorem hints_change_size_only_choosing :
    ((choosing [0]).verify = .ok () ∧ (choosing [1, 0]).verify = .ok () ∧
      (choosing [1, 1]).verify = .ok ()) ∧
    (∃ l l', Bytes.layout (choosing [0]).tables (choosing [0]).shape = .ok l ∧
      Bytes.layout (choosing [1, 0]).tables (choosing [0]).shape = .ok l' ∧
      l.align = l'.align ∧ l.size ≤ l'.size) ∧
    Bytes.layout (choosing [1, 0]).tables (choosing [0]).shape =
      Bytes.layout (choosing [1, 1]).tables (choosing [0]).shape := by
  have hsmall : (choosing [0]).verify = .ok () := by decide +kernel
  have hboth : (choosing [1, 0]).verify = .ok () := by decide +kernel
  have hlarge : (choosing [1, 1]).verify = .ok () := by decide +kernel
  have hsmall' : (Outline.ofBytes (choosing [0]).shape).layout (choosing [0]).tables =
      .ok ⟨24, 8⟩ := by
    decide +kernel
  have hboth' : (Outline.ofBytes (choosing [0]).shape).layout (choosing [1, 0]).tables =
      .ok ⟨32, 8⟩ := by
    decide +kernel
  have hlarge' : (Outline.ofBytes (choosing [0]).shape).layout (choosing [1, 1]).tables =
      .ok ⟨32, 8⟩ := by
    decide +kernel
  obtain ⟨l, l', hl, hl', halign, hle, -⟩ :=
    hints_change_size_only hsmall hboth (choosing_same _ _)
      (verified_of_verify hsmall).root (fun f hf => by cases hsmall'.symm.trans hf)
      (fun f hf => by cases hboth'.symm.trans hf)
  obtain ⟨m, m', hm, hm', -, -, heq⟩ :=
    hints_change_size_only hboth hlarge (choosing_same _ _)
      (verified_of_verify hboth).root (fun f hf => by cases hboth'.symm.trans hf)
      (fun f hf => by cases hlarge'.symm.trans hf)
  refine ⟨⟨hsmall, hboth, hlarge⟩, ⟨l, l', hl, hl', halign, hle ?_⟩, ?_⟩
  · intro i u u' hu hu'
    simp only [choosing, Array.getElem?_eq_some_iff] at hu hu'
    obtain ⟨hi, rfl⟩ := hu
    obtain ⟨-, rfl⟩ := hu'
    simp at hi
    simp [hi]
  · have := heq (choosing_hintsLargest (by simp)) (choosing_hintsLargest (by simp))
    exact hm.trans (this ▸ hm'.symm)

end Descriptor

end ShapeCode
