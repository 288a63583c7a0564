import ShapeCode.Proofs.BuilderLimits
import ShapeCode.Proofs.MeasuredUnions

set_option autoImplicit false

/-!
# Unions that hint what they can count

A union made without a hint is given one that lists its variants, as far as a count of
sixteen bits tells how many there are.  So it lists all of them only if the count is
right; else it lists the first ones, or is refused where none are left.  What is listed
fits into the union, in whatever tables it stands (`Builder.hinted_variants_fit`); what
is not need not (`Builder.hinted_variants_unfit`).
-/

namespace ShapeCode

/-! ## Hints that are counted -/

namespace Union

variable {variants : Array Bytes} {hint : List UInt16} {u : Union}

theorem make_eq_ok_iff :
    make variants hint = .ok u ↔
      (∀ v ∈ hint, v.toNat < variants.size) ∧
      (variants.size ≠ 0 → hint ≠ []) ∧ u = ⟨variants, hint⟩ := by
  have hbad : badHint? ⟨variants, hint⟩ = Option.none ↔
      ∀ v ∈ hint, v.toNat < variants.size := by
    simp [badHint?, List.find?_eq_none]
  have hlacks : lacksHint ⟨variants, hint⟩ = true ↔
      variants.size ≠ 0 ∧ hint = [] := by
    simp [lacksHint, List.isEmpty_iff, ← Array.size_eq_zero_iff]
  simp only [make]
  cases hfind : badHint? ⟨variants, hint⟩ with
  | some v =>
    have hnot : ¬ ∀ v ∈ hint, v.toNat < variants.size := fun h => by
      rw [hbad.2 h] at hfind
      cases hfind
    simp [hnot]
  | none =>
    have hall := hbad.1 hfind
    by_cases hempty : variants.size ≠ 0 ∧ hint = []
    · simp only [hlacks, if_pos hempty, reduceCtorEq, false_iff]
      exact fun h => h.2.1 hempty.1 hempty.2
    · simp only [hlacks, if_neg hempty, Except.ok.injEq, eq_comm]
      exact ⟨fun h => ⟨hall, fun hsize hnil => hempty ⟨hsize, hnil⟩, h⟩,
        fun h => h.2.2⟩

/-- A count of sixteen bits lists the ids below what is left of it. -/
theorem mem_counted_iff {n : Nat} {v : UInt16} :
    v ∈ (List.range (UInt16.ofNat n).toNat).map UInt16.ofNat ↔ v.toNat < n % 65536 := by
  rw [List.mem_map]
  constructor
  · rintro ⟨k, hk, rfl⟩
    rw [List.mem_range, UInt16.toNat_ofNat'] at hk
    rw [UInt16.toNat_ofNat']
    exact Nat.lt_of_le_of_lt (Nat.mod_le k _) hk
  · intro hv
    exact ⟨v.toNat, List.mem_range.2 (by rwa [UInt16.toNat_ofNat']), UInt16.ofNat_toNat⟩

theorem ofVariants_eq_ok_iff :
    ofVariants variants = .ok u ↔
      (variants.size ≠ 0 → ¬ 65536 ∣ variants.size) ∧
        u = ⟨variants,
          (List.range (UInt16.ofNat variants.size).toNat).map UInt16.ofNat⟩ := by
  have hlt : ∀ v ∈ (List.range (UInt16.ofNat variants.size).toNat).map UInt16.ofNat,
      v.toNat < variants.size :=
    fun v hv => Nat.lt_of_lt_of_le (mem_counted_iff.1 hv) (Nat.mod_le _ _)
  have hnil : (List.range (UInt16.ofNat variants.size).toNat).map UInt16.ofNat = [] ↔
      65536 ∣ variants.size := by
    rw [List.map_eq_nil_iff, List.range_eq_nil, UInt16.toNat_ofNat',
      Nat.dvd_iff_mod_eq_zero]
  rw [ofVariants, make_eq_ok_iff, ne_eq (List.map _ _), hnil]
  exact ⟨fun h => h.2, fun h => ⟨hlt, h⟩⟩

/-- The variants are listed one and all if they can be counted. -/
theorem counted_covers_iff {n : Nat} :
    (∀ v < n, ∃ h ∈ (List.range (UInt16.ofNat n).toNat).map UInt16.ofNat,
      h.toNat = v) ↔ n < 65536 := by
  constructor
  · intro hall
    by_contra hn
    obtain ⟨h, -, heq⟩ := hall 65535 (by omega)
    obtain ⟨h', hmem, heq'⟩ := hall (n - 1) (by omega)
    have hlt := mem_counted_iff.1 hmem
    have hmod : n % 65536 < 65536 := Nat.mod_lt n (by decide)
    omega
  · intro hn v hv
    have hlt : v < 65536 := by omega
    refine ⟨UInt16.ofNat v, mem_counted_iff.2 ?_, ?_⟩
    · rw [UInt16.toNat_ofNat_of_lt' hlt]
      omega
    · exact UInt16.toNat_ofNat_of_lt' hlt

end Union

namespace Builder

variable {b b' : Builder} {variants : Array Bytes} {id : UInt16} {u : Union}

theorem addUnion_eq_ok (hu : Union.ofVariants variants = .ok u)
    (h : b.addUnion variants = .ok (id, b')) : b'.unions[id.toNat]? = some u := by
  simp only [addUnion, hu] at h
  obtain ⟨hlt, rfl, rfl⟩ := pushUnion_eq_ok_iff.1 h
  rw [UInt16.toNat_ofNat_of_lt' hlt, Array.getElem?_push_size]

theorem defineUnion_eq_ok (hu : Union.ofVariants variants = .ok u)
    (h : b.defineUnion id variants = .ok b') : b'.unions[id.toNat]? = some u := by
  simp only [defineUnion, hu] at h
  split at h
  · rename_i hlt
    obtain rfl := Except.ok.inj h
    simp [hlt]
  · cases h

/-- A union made without a hint is refused if it has variants and their number is a
multiple of 65536.  Else its hint lists the variants below what the number leaves
divided by 65536: all of them exactly if there are fewer than 65536.  In whatever tables
it stands and is measured, each listed variant can be laid out behind the discriminant,
and takes no more than the union. -/
theorem hinted_variants_fit (b : Builder) (variants : Array Bytes) :
    ((∃ f, Union.ofVariants variants = .error f) ↔
      variants.size ≠ 0 ∧ 65536 ∣ variants.size) ∧
    ∀ u, Union.ofVariants variants = .ok u →
      u.variants = variants ∧
      (∀ v : UInt16, v ∈ u.hint ↔ v.toNat < variants.size % 65536) ∧
      ((∀ v < variants.size, ∃ h ∈ u.hint, h.toNat = v) ↔ variants.size < 65536) ∧
      (∀ id b', b.addUnion variants = .ok (id, b') ∨
        b.defineUnion id variants = .ok b' →
        b'.unions[id.toNat]? = some u) ∧
      ∀ (t : Tables) (id : UInt16) (inner : Outline) (l : Layout), t.union id = .ok u →
        (Node.union id).layout t inner = .ok l →
        ∀ v < variants.size % 65536, ∃ lv, t.variantLayout u v = .ok lv ∧
          lv.size ≤ l.size := by
  refine ⟨?_, fun u hu => ?_⟩
  · cases hmade : Union.ofVariants variants with
    | error f =>
      simp only [Except.error.injEq, exists_eq', true_iff]
      by_contra hcount
      cases hmade.symm.trans
        (Union.ofVariants_eq_ok_iff.2 ⟨fun hsize hdvd => hcount ⟨hsize, hdvd⟩, rfl⟩)
    | ok u =>
      simp only [reduceCtorEq, exists_false, false_iff, not_and]
      exact (Union.ofVariants_eq_ok_iff.1 hmade).1
  · obtain ⟨-, rfl⟩ := Union.ofVariants_eq_ok_iff.1 hu
    refine ⟨rfl, fun v => Union.mem_counted_iff, Union.counted_covers_iff,
      fun id b' h => ?_, ?_⟩
    · exact h.elim (addUnion_eq_ok hu) (defineUnion_eq_ok hu)
    · intro t id inner l hid hl v hv
      have hlt : v < 65536 := Nat.lt_trans hv (Nat.mod_lt _ (by decide))
      have hmem : UInt16.ofNat
          v ∈ (List.range (UInt16.ofNat variants.size).toNat).map UInt16.ofNat :=
        Union.mem_counted_iff.2 (by rwa [UInt16.toNat_ofNat_of_lt' hlt])
      have hfits := Tables.variant_le_of_hinted hid hl hmem
      rwa [UInt16.toNat_ofNat_of_lt' hlt] at hfits

/-- A variant without fields, one of eight bytes, and more without fields. -/
def lopsided (more : Nat) : Array Bytes :=
  #[[], Emit.scalar .u64] ++ Array.replicate more []

theorem size_lopsided (more : Nat) : (lopsided more).size = more + 2 := by
  rw [lopsided, Array.size_append, Array.size_replicate, Nat.add_comm]
  rfl

theorem lopsided_zero (more : Nat) : (lopsided more)[0]? = some [] := by
  rw [lopsided, Array.getElem?_append_left (by decide)]
  rfl

theorem lopsided_one (more : Nat) : (lopsided more)[1]? = some (Emit.scalar .u64) := by
  rw [lopsided, Array.getElem?_append_left (by decide)]
  rfl

theorem hinted_variants_fit_lopsided : ∃ u b', Union.ofVariants (lopsided 0) = .ok u ∧
    empty.addUnion (lopsided 0) = .ok (0, b') ∧
    (Node.union 0).layout ⟨b'.unions, b'.resources⟩ .done = .ok ⟨16, 8⟩ ∧
    ∀ v < 2, ∃ lv, Tables.variantLayout ⟨b'.unions, b'.resources⟩ u v = .ok lv ∧
      lv.size ≤ 16 := by
  have hu : Union.ofVariants (lopsided 0) = .ok ⟨lopsided 0, [0, 1]⟩ := by
    decide +kernel
  have hadd : empty.addUnion (lopsided 0) =
      .ok (0, ⟨#[⟨lopsided 0, [0, 1]⟩], #[]⟩) := by
    decide +kernel
  have hl : (Node.union 0).layout ⟨#[⟨lopsided 0, [0, 1]⟩], #[]⟩ .done =
      .ok ⟨16, 8⟩ := by
    decide +kernel
  obtain ⟨-, hmade⟩ := hinted_variants_fit empty (lopsided 0)
  obtain ⟨-, -, -, -, hfits⟩ := hmade _ hu
  exact ⟨_, _, hu, hadd, hl, hfits _ 0 .done _ rfl hl⟩

section Unfit

variable {variants : Array Bytes}

theorem unionHead_of_many (hmany : 1 < variants.size) :
    Measure.unionHead ⟨variants, [0]⟩ = Placement.discriminant :=
  if_pos (decide_eq_true hmany)

/-- If only a variant without fields is hinted, the union is its discriminant. -/
theorem layout_of_hinted_zero (hmany : 1 < variants.size) (hzero : variants[0]? = some []) :
    (Node.union 0).layout ⟨#[⟨variants, [0]⟩], #[]⟩ .done = .ok ⟨8, 8⟩ := by
  have hunion : Tables.union ⟨#[⟨variants, [0]⟩], #[]⟩ 0 =
      .ok ⟨variants, [0]⟩ :=
    rfl
  have hwidest (union : UInt16 → Measure.Measured Layout) :
      Measure.variants union ⟨variants, [0]⟩ Placement.discriminant [0] .empty [] =
        .ok (⟨8, 8⟩, []) := by
    simp only [Measure.variants, Union.variant, UInt16.reduceToNat,
      hzero, Outline.ofBytes_nil]
    rfl
  have hlayout : Measure.unionLayout ⟨variants, [0]⟩ ⟨8, 8⟩ = .ok ⟨8, 8⟩ := rfl
  have hmeasured : Measure.anyUnion ⟨#[⟨variants, [0]⟩], #[]⟩ 0 [] =
      .ok (⟨8, 8⟩, [(0, ⟨8, 8⟩)]) := by
    change Measure.union ⟨#[⟨variants, [0]⟩], #[]⟩ 1 [] 0 [] = _
    simp only [Measure.union, hunion, unionHead_of_many hmany, hwidest, hlayout]
    rfl
  simp only [Node.layout, Node.storage, Measure.storageLayout, hmeasured]

theorem variantLayout_of_word (t : Tables) (hmany : 1 < variants.size)
    (hone : variants[1]? = some (Emit.scalar .u64)) :
    t.variantLayout ⟨variants, [0]⟩ 1 = .ok ⟨16, 8⟩ := by
  have hread : Outline.ofBytes (Emit.scalar .u64) = .cons (.scalar .u64) .done .done := by
    decide +kernel
  simp only [Tables.variantLayout, Union.variant, hone, unionHead_of_many hmany, hread]
  rfl

theorem ofVariants_of_miscounted (hsize : variants.size = 65537) :
    Union.ofVariants variants = .ok ⟨variants, [0]⟩ := by
  rw [Union.ofVariants_eq_ok_iff, hsize]
  exact ⟨fun _ hdvd => by omega, rfl⟩

theorem addUnion_of_miscounted (hsize : variants.size = 65537) :
    empty.addUnion variants = .ok (0, ⟨#[⟨variants, [0]⟩], #[]⟩) := by
  rw [addUnion, ofVariants_of_miscounted hsize]
  rfl

end Unfit

/-- Of 65537 variants only the first is counted.  The union takes the eight bytes of its
discriminant, and its second variant sixteen. -/
theorem hinted_variants_unfit : ∃ u b', Union.ofVariants (lopsided 65535) = .ok u ∧
    empty.addUnion (lopsided 65535) = .ok (0, b') ∧
    (¬ ∀ v < u.variants.size, ∃ h ∈ u.hint, h.toNat = v) ∧
    ∃ l lv, (Node.union 0).layout ⟨b'.unions, b'.resources⟩ .done = .ok l ∧
      Tables.variantLayout ⟨b'.unions, b'.resources⟩ u 1 = .ok lv ∧
      l.size < lv.size := by
  have hsize := size_lopsided 65535
  have hmany : 1 < (lopsided 65535).size := by omega
  refine ⟨_, _, ofVariants_of_miscounted hsize,
    addUnion_of_miscounted hsize, fun hall => ?_, _, _,
    layout_of_hinted_zero hmany (lopsided_zero 65535),
    variantLayout_of_word _ hmany (lopsided_one 65535), by decide⟩
  obtain ⟨h, hmem, hone⟩ := hall 1 hmany
  rw [List.mem_singleton.1 hmem] at hone
  exact absurd hone (by decide)

end Builder

end ShapeCode
