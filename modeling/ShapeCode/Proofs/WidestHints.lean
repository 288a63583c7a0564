import ShapeCode.Proofs.ProperLayout

set_option autoImplicit false

/-!
# What a hint promises

Measuring a union looks at the variants that its hint names, and at no others.  If the
hint names one that no other exceeds in size (`Tables.HintsWidest`), then every variant
fits into what is measured (`variant_fits`), though nothing about its alignment was
asked.  A union of one variant is the exception: where the variant takes no space, the
union takes a byte and has the alignment of one.
-/

namespace ShapeCode

namespace Tables

variable {t : Tables}

/-! ## Variants -/

/-- The layout that measuring gives a variant, behind the discriminant if there is one. -/
def variantLayout (t : Tables) (u : Union) (v : Nat) : Except Fault Layout :=
  match u.variant v with
  | .error f => .error f
  | .ok fields =>
    match Measure.range (Measure.anyUnion t) (Outline.ofBytes fields)
      (Measure.unionHead u) [] with
    | .error f => .error f
    | .ok (l, _) => .ok l

/-- Every variant can be measured. -/
def VariantsMeasured (t : Tables) : Prop :=
  ∀ u ∈ t.unions, ∀ v < u.variants.size, ∃ l, t.variantLayout u v = .ok l

/-- The hint of every union that has variants names one that no other exceeds in size. -/
def HintsWidest (t : Tables) : Prop :=
  ∀ u ∈ t.unions, u.variants.size ≠ 0 →
    ∃ h ∈ u.hint, ∀ v < u.variants.size, ∀ l widest,
    t.variantLayout u v = .ok l →
    t.variantLayout u h.toNat = .ok widest → l.size ≤ widest.size

namespace Verified

variable (ht : t.Verified)

include ht

theorem variantLayout_eq {u : Union} (hu : u ∈ t.unions) (v : Nat) :
    t.variantLayout u v = Plain.variant t.unionLayout u v := by
  unfold variantLayout Plain.variant
  cases hfields : u.variant v with
  | error f => rfl
  | ok fields =>
    have hsound := ht.sound.variant_sound u hu fields (Union.mem_of_variant hfields)
    have hagrees : Measure.Agrees t
        (Measure.range (Measure.anyUnion t) (Outline.ofBytes fields)
          (Measure.unionHead u) [])
        (t.rangeLayout (Outline.ofBytes fields) (Measure.unionHead u)) :=
      Measure.range_agrees (Measure.Known.Sound.nil t)
        fun _ hid _ hknown => Measure.anyUnion_agrees ht (hsound.lt_of_stores hid) hknown
    unfold rangeLayout at hagrees
    rcases hagrees.cases with ⟨f, hm, hp⟩ | ⟨l, known, hm, hp, -⟩
    · simp only [hm, hp]
    · simp only [hm, hp]

omit ht in
/-- What some variants need at most is no less than what each of them needs. -/
theorem le_variants {union : UInt16 → Except Fault Layout} {u : Union} {vs : List UInt16}
    {before widest : Layout} (h : Plain.variants union u vs before = .ok widest) :
    before.size ≤ widest.size ∧ before.align ≤ widest.align ∧ ∀ v ∈ vs, ∃ l,
      Plain.variant union u v.toNat = .ok l ∧ l.size ≤ widest.size ∧
      l.align ≤ widest.align := by
  induction vs generalizing before with
  | nil =>
    obtain rfl := Except.ok.inj h
    simp
  | cons v rest ih =>
    simp only [Plain.variants] at h
    split at h
    · cases h
    · rename_i l hl
      obtain ⟨hsize, halign, hrest⟩ := ih h
      simp only at hsize halign
      refine ⟨by omega, by omega, ?_⟩
      rw [List.forall_mem_cons]
      exact ⟨⟨l, hl, by omega, by omega⟩, hrest⟩

/-- A union is as large as the widest variant that its hint names, padded, and takes
a byte at least. -/
theorem unionLayout_eq_ok {id : UInt16} {u : Union} {l : Layout} (hu : t.union id = .ok u)
    (hl : t.unionLayout id = .ok l) :
    ∃ widest, Plain.variants t.unionLayout u u.hint .empty = .ok widest ∧
      ((widest.size = 0 ∧ u.hasDiscriminant = false ∧ l = ⟨1, 1⟩) ∨
        ((widest.size = 0 → u.hasDiscriminant = true) ∧ l.align = widest.align ∧
          widest.size ≤ l.size)) := by
  have hid := Tables.lt_of_union hu
  have hmem := Tables.mem_of_union hu
  rw [ht.unionLayout_eq hid] at hl
  unfold Plain.unionStep at hl
  simp only [hu] at hl
  split at hl
  · cases hl
  · rename_i widest hwidest
    have hgood : ∀ v < u.variants.size, Plain.Good (Plain.variant t.unionLayout u v) := by
      intro v hv
      refine Plain.variant_good hv (ht.sound.variant_sound u hmem)
        fun fields hf id hid => ?_
      exact ht.unionLayout_good ((ht.sound.variant_sound u hmem fields hf).lt_of_stores hid)
    have halign : Word.IsAlign widest.align :=
      (Plain.variants_good (ht.sound.hint_lt u hmem)
        Layout.isAlign_empty hgood).of_ok hwidest
    refine ⟨widest, hwidest, ?_⟩
    unfold Measure.unionLayout at hl
    split at hl
    · rename_i hzero
      exact .inl ⟨hzero.1, hzero.2, (Except.ok.inj hl).symm⟩
    · rename_i hnonzero
      right
      split at hl
      · cases hl
      · rename_i size hup
        obtain ⟨-, -, rfl⟩ := Word.alignUp_eq_ok_iff.1 hup
        obtain rfl := Except.ok.inj hl
        refine ⟨fun h => ?_, rfl, Word.le_roundUp halign⟩
        cases hd : u.hasDiscriminant with
        | true => rfl
        | false => exact absurd ⟨h, hd⟩ hnonzero

/-- A variant takes at least what stands before its fields. -/
theorem unionHead_le_variant {id : UInt16} {u : Union} {v : Nat} {l : Layout}
    (hu : t.union id = .ok u) (h : Plain.variant t.unionLayout u v = .ok l) :
    (Measure.unionHead u).size ≤ l.size ∧ (Measure.unionHead u).align ≤ l.align := by
  obtain ⟨fields, hfields, hl⟩ := Plain.variant_eq_ok_iff.1 h
  exact ht.le_rangeLayout (ht.sound.of_union hu hfields) (Measure.isAlign_unionHead u) hl

/-- A hint that names a widest variant names one that measuring takes into account. -/
theorem exists_hinted (hhints : t.HintsWidest) {id : UInt16} {u : Union} {widest : Layout}
    (hu : t.union id = .ok u) (hvariants : u.variants.size ≠ 0)
    (hwidest : Plain.variants t.unionLayout u u.hint .empty = .ok widest) :
    ∃ h ∈ u.hint, ∃ lh, Plain.variant t.unionLayout u h.toNat = .ok lh ∧
      lh.size ≤ widest.size ∧
      lh.align ≤ widest.align ∧ ∀ v l, Plain.variant t.unionLayout u v = .ok l →
      l.size ≤ lh.size := by
  have hmem := Tables.mem_of_union hu
  obtain ⟨h, hh, hmax⟩ := hhints u hmem hvariants
  obtain ⟨-, -, hall⟩ := le_variants hwidest
  obtain ⟨lh, hlh, hsize, halign⟩ := hall h hh
  refine ⟨h, hh, lh, hlh, hsize, halign, fun v l hl => ?_⟩
  obtain ⟨fields, hfields, -⟩ := Plain.variant_eq_ok_iff.1 hl
  rw [← ht.variantLayout_eq hmem] at hl hlh
  exact hmax v (Union.lt_of_variant hfields) l lh hl hlh

/-- A union whose hint names a widest variant takes at least what stands
before its fields. -/
theorem unionHead_le_union (hhints : t.HintsWidest) {id : UInt16} {u : Union} {l : Layout}
    (hu : t.union id = .ok u) (hl : t.unionLayout id = .ok l) :
    (Measure.unionHead u).size ≤ l.size := by
  cases hd : u.hasDiscriminant with
  | false => simp [Measure.unionHead, hd, Layout.empty]
  | true =>
    obtain ⟨widest, hwidest, ⟨-, hfalse, -⟩ | ⟨-, -, hle⟩⟩ :=
      ht.unionLayout_eq_ok hu hl
    · rw [hd] at hfalse
      cases hfalse
    · have hvariants : u.variants.size ≠ 0 := by
        simp only [Union.hasDiscriminant, decide_eq_true_eq] at hd
        omega
      obtain ⟨h, -, lh, hlh, hlhsize, -⟩ := ht.exists_hinted hhints hu hvariants hwidest
      calc (Measure.unionHead u).size ≤ lh.size := (ht.unionHead_le_variant hu hlh).1
        _ ≤ widest.size := hlhsize
        _ ≤ l.size := hle

theorem union_size_pos (hhints : t.HintsWidest) {id : UInt16} {u : Union} {l : Layout}
    (hu : t.union id = .ok u) (hl : t.unionLayout id = .ok l) : 0 < l.size := by
  have hhead := ht.unionHead_le_union hhints hu hl
  obtain ⟨widest, -, ⟨-, -, rfl⟩ | ⟨hzero, -, hle⟩⟩ :=
    ht.unionLayout_eq_ok hu hl
  · exact Nat.one_pos
  · by_cases hsize : widest.size = 0
    · have h8 : (Measure.unionHead u).size = 8 := by
        simp [Measure.unionHead, hzero hsize, Placement.discriminant, Word.size]
      omega
    · omega

/-- The variant that a value selects fits into the layout of its union, unless neither
takes space of its own. -/
theorem variant_fits (hhints : t.HintsWidest) (hmeasured : t.VariantsMeasured) {id : UInt16}
    {u : Union} {l : Layout} {v : Nat} {fields : Bytes} (hu : t.union id = .ok u)
    (hl : t.unionLayout id = .ok l) (hfields : u.variant v = .ok fields) :
    ∃ lv, t.rangeLayout (Outline.ofBytes fields) (Measure.unionHead u) = .ok lv ∧
      ((lv.size = 0 ∧ u.hasDiscriminant = false) ∨
        (lv.size ≤ l.size ∧ lv.align ≤ l.align)) := by
  have hmem := Tables.mem_of_union hu
  have hv := Union.lt_of_variant hfields
  obtain ⟨lv, hlv⟩ := hmeasured u hmem v hv
  rw [ht.variantLayout_eq hmem] at hlv
  obtain ⟨fields', hfields', hrange⟩ := Plain.variant_eq_ok_iff.1 hlv
  obtain rfl := Except.ok.inj (hfields'.symm.trans hfields)
  refine ⟨lv, hrange, ?_⟩
  obtain ⟨widest, hwidest, hcases⟩ := ht.unionLayout_eq_ok hu hl
  obtain ⟨h, hh, lh, hlh, hsize, halign, hmax⟩ :=
    ht.exists_hinted hhints hu (by omega) hwidest
  have hle := hmax v lv hlv
  rcases hcases with ⟨hzero, hd, -⟩ | ⟨-, hlalign, hlsize⟩
  · exact .inl ⟨by omega, hd⟩
  · refine .inr ⟨by omega, ?_⟩
    cases hd : u.hasDiscriminant with
    | true =>
      -- The discriminant has the largest alignment there is.
      have hhead := (ht.unionHead_le_variant hu hlh).2
      have h8 : (Measure.unionHead u).align = 8 := by
        simp [Measure.unionHead, hd, Placement.discriminant, Word.size]
      have hsmall :=
        (ht.rangeLayout_proper (ht.sound.of_union hu hfields)
          (Measure.isAlign_unionHead u) hrange).isAlign.le
      omega
    | false =>
      -- There is one variant, and the hint names it.
      have hone : h.toNat = v := by
        have hlt := ht.sound.hint_lt u hmem h hh
        simp only [Union.hasDiscriminant, decide_eq_false_iff_not] at hd
        omega
      rw [hone, hlv] at hlh
      obtain rfl := Except.ok.inj hlh
      omega

end Verified

end Tables

end ShapeCode
