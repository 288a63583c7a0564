import ShapeCode.Proofs.MeasuringOrder
import ShapeCode.Proofs.WidestHints

set_option autoImplicit false

/-!
# What was measured is measured again

Whether a union is measured depends on what is known and on the unions around it, and
where nothing is asked of the tables, it may be met inside itself.  But once a union was
measured, what its hinted variants store inline has a plain layout at some depth
(`Measure.union_plain`), and whatever has one can be measured from nothing
(`Measure.union_of_plain`): on the way in, the depth at which a union first has a layout
goes down, so no union is met inside itself, and the bound on nesting is never reached.

So a variant that the hint of a measured union names can be laid out by itself, and fits
(`Tables.variant_le_of_hinted`).
-/

namespace ShapeCode

/-! ## Deeper layouts -/

namespace Plain

variable {t : Tables} {union union' : UInt16 → Except Fault Layout}
  {before l : Layout} {id : UInt16}

section Mono

variable (h : ∀ id l, union id = .ok l → union' id = .ok l)

include h

theorem storageLayout_mono {nested nested' : Except Fault Layout}
    (hnested : ∀ l, nested = .ok l → nested' = .ok l) {storage : Storage}
    (hl : storageLayout union nested storage = .ok l) :
    storageLayout union' nested' storage = .ok l := by
  cases storage with
  | own layout => exact hl
  | fields => exact hnested l hl
  | copies count =>
    obtain ⟨elem, helem, hl⟩ := storageLayout_copies_eq_ok_iff.1 hl
    exact storageLayout_copies_eq_ok_iff.2 ⟨elem, hnested elem helem, hl⟩
  | union id => exact h id l hl

/-- Where more unions have layouts, no range loses its own. -/
theorem range_mono {o : Outline} (hl : range union o before = .ok l) :
    range union' o before = .ok l := by
  induction o generalizing before l with
  | done => exact hl
  | broken f => cases hl
  | cons node inner rest ihi ihr =>
    obtain ⟨own, sofar, hown, happend, hrest⟩ := range_cons_eq_ok_iff.1 hl
    exact range_cons_eq_ok_iff.2 ⟨own, sofar,
      storageLayout_mono h (fun _ => ihi) hown, happend, ihr hrest⟩

theorem variants_mono {u : Union} {vs : List UInt16}
    (hl : variants union u vs before = .ok l) :
    variants union' u vs before = .ok l := by
  induction vs generalizing before with
  | nil => exact hl
  | cons v rest ih =>
    obtain ⟨own, hown, hrest⟩ := variants_cons_eq_ok_iff.1 hl
    obtain ⟨fields, hfields, hrange⟩ := variant_eq_ok_iff.1 hown
    exact variants_cons_eq_ok_iff.2 ⟨own,
      variant_eq_ok_iff.2 ⟨fields, hfields, range_mono h hrange⟩, ih hrest⟩

end Mono

/-- A union keeps its layout at every larger depth. -/
theorem union_mono {depth depth' : Nat} (hle : depth ≤ depth')
    (hl : Plain.union t depth id = .ok l) : Plain.union t depth' id = .ok l := by
  induction depth generalizing depth' id l with
  | zero => cases hl
  | succ depth ih =>
    obtain ⟨k, rfl⟩ : ∃ k, depth' = k + 1 := ⟨depth' - 1, by omega⟩
    obtain ⟨u, widest, hu, hwidest, hlayout⟩ := unionStep_eq_ok_iff.1 hl
    exact unionStep_eq_ok_iff.2 ⟨u, widest, hu,
      variants_mono (fun _ _ => ih (by omega)) hwidest, hlayout⟩

end Plain

/-! ## What was measured -/

/-- The union has a plain layout, at some depth. -/
def Tables.Lays (t : Tables) (id : UInt16) (l : Layout) : Prop :=
  ∃ depth, Plain.union t depth id = .ok l

theorem Tables.Lays.unique {t : Tables} {id : UInt16} {l l' : Layout} (h : t.Lays id l)
    (h' : t.Lays id l') : l = l' := by
  obtain ⟨depth, hl⟩ := h
  obtain ⟨depth', hl'⟩ := h'
  have hmax := Plain.union_mono (le_max_left depth depth') hl
  exact Except.ok.inj (hmax.symm.trans (Plain.union_mono (le_max_right depth depth') hl'))

namespace Measure

variable {t : Tables} {union : UInt16 → Measured Layout} {known known' : Known}
  {id : UInt16} {before l : Layout}

/-- What is known of unions are plain layouts. -/
def Known.Plain (t : Tables) (known : Known) : Prop :=
  ∀ id l, known.lookup id = some l → t.Lays id l

theorem Known.Plain.nil : Known.Plain t [] := by
  intro id l h
  cases h

theorem Known.Plain.cons (h : Known.Plain t known) (hl : t.Lays id l) :
    Known.Plain t ((id, l) :: known) := by
  intro id' l' h'
  rw [List.lookup_cons] at h'
  split at h'
  · rename_i heq
    obtain rfl := Option.some.inj h'
    rwa [beq_iff_eq.1 heq]
  · exact h id' l' h'

/-! ## From measured to plain -/

section ToPlain

variable (hunion : ∀ id known l known', Known.Plain t known →
  union id known = .ok (l, known') → t.Lays id l ∧ Known.Plain t known')

include hunion

theorem range_plain {o : Outline} (hknown : Known.Plain t known)
    (h : range union o before known = .ok (l, known')) :
    (∃ depth, Plain.range (Plain.union t depth) o before = .ok l) ∧
      Known.Plain t known' := by
  induction o generalizing before known l known' with
  | done =>
    simp only [range] at h
    split at h
    · cases h
    · rename_i hpadded
      obtain ⟨rfl, rfl⟩ := Prod.mk.inj (Except.ok.inj h)
      exact ⟨⟨0, hpadded⟩, hknown⟩
  | broken f => cases h
  | cons node inner rest ihi ihr =>
    obtain ⟨own, mid, sofar, hown, happend, hrest⟩ := range_cons_eq_ok_iff.1 h
    have hnode : (∃ depth, Plain.storageLayout (Plain.union t depth)
        (Plain.range (Plain.union t depth) inner .empty) node.storage =
          .ok own) ∧ Known.Plain t mid := by
      cases hstorage : node.storage with
      | own layout =>
        rw [hstorage] at hown
        obtain ⟨rfl, rfl⟩ := Prod.mk.inj (Except.ok.inj hown)
        exact ⟨⟨0, rfl⟩, hknown⟩
      | fields =>
        rw [hstorage] at hown
        exact ihi hknown hown
      | copies count =>
        rw [hstorage] at hown
        obtain ⟨elem, helem, hcopies⟩ := storageLayout_copies_eq_ok_iff.1 hown
        obtain ⟨⟨depth, hplain⟩, hmid⟩ := ihi hknown helem
        exact ⟨⟨depth,
          Plain.storageLayout_copies_eq_ok_iff.2 ⟨elem, hplain, hcopies⟩⟩, hmid⟩
      | union id =>
        rw [hstorage] at hown
        exact hunion id known own mid hknown hown
    obtain ⟨⟨depth, hplain⟩, hmid⟩ := hnode
    obtain ⟨⟨depth', hplain'⟩, hknown'⟩ := ihr hmid hrest
    have hle : ∀ id l, Plain.union t depth id = .ok l →
        Plain.union t (max depth depth') id = .ok l :=
      fun _ _ => Plain.union_mono (le_max_left _ _)
    have hle' : ∀ id l, Plain.union t depth' id = .ok l →
        Plain.union t (max depth depth') id = .ok l :=
      fun _ _ => Plain.union_mono (le_max_right _ _)
    exact ⟨⟨max depth depth', Plain.range_cons_eq_ok_iff.2 ⟨own, sofar,
      Plain.storageLayout_mono hle (fun _ => Plain.range_mono hle) hplain, happend,
      Plain.range_mono hle' hplain'⟩⟩,
      hknown'⟩

theorem variants_plain {u : Union} {vs : List UInt16} (hknown : Known.Plain t known)
    (h : variants union u (unionHead u) vs before known = .ok (l, known')) :
    (∃ depth, Plain.variants (Plain.union t depth) u vs before = .ok l) ∧
      Known.Plain t known' := by
  induction vs generalizing before known with
  | nil =>
    obtain ⟨rfl, rfl⟩ := Prod.mk.inj (Except.ok.inj h)
    exact ⟨⟨0, rfl⟩, hknown⟩
  | cons v rest ih =>
    obtain ⟨fields, own, mid, hfields, hown, hrest⟩ := variants_cons_eq_ok_iff.1 h
    obtain ⟨⟨depth, hplain⟩, hmid⟩ := range_plain hunion hknown hown
    obtain ⟨⟨depth', hplain'⟩, hknown'⟩ := ih hmid hrest
    have hvariant := Plain.variant_eq_ok_iff.2 ⟨fields, hfields,
      Plain.range_mono (fun _ _ => Plain.union_mono (le_max_left depth depth')) hplain⟩
    exact ⟨⟨max depth depth', Plain.variants_cons_eq_ok_iff.2 ⟨own, hvariant,
      Plain.variants_mono (fun _ _ => Plain.union_mono (le_max_right depth depth'))
        hplain'⟩⟩, hknown'⟩

end ToPlain

/-- What is measured of a union is its plain layout at some depth. -/
theorem union_plain {depth : Nat} {path : List UInt16} (hknown : Known.Plain t known)
    (h : Measure.union t depth path id known = .ok (l, known')) :
    t.Lays id l ∧ Known.Plain t known' := by
  induction depth using Nat.strong_induction_on generalizing path id known l known' with
  | _ depth ih =>
    rcases union_eq_ok h with ⟨hlookup, rfl⟩
      | ⟨-, below, u, widest, mid, rfl, hu, hvariants, hlayout, rfl⟩
    · exact ⟨hknown id l hlookup, hknown⟩
    · obtain ⟨⟨depth, hplain⟩, hmid⟩ :=
        variants_plain (fun _ _ _ _ => ih below (Nat.lt_succ_self below)) hknown hvariants
      have hlays : t.Lays id l :=
        ⟨depth + 1, Plain.unionStep_eq_ok_iff.2 ⟨u, widest, hu, hplain, hlayout⟩⟩
      exact ⟨hlays, hmid.cons hlays⟩

/-! ## From plain to measured -/

section OfPlain

variable {depth : Nat}
  (hunion : ∀ id l known, Known.Plain t known → Plain.union t depth id = .ok l →
    ∃ known', union id known = .ok (l, known') ∧ Known.Plain t known')

include hunion

theorem range_of_plain {o : Outline} (hknown : Known.Plain t known)
    (h : Plain.range (Plain.union t depth) o before = .ok l) :
    ∃ known', range union o before known = .ok (l, known') ∧ Known.Plain t known' := by
  induction o generalizing before known l with
  | done =>
    refine ⟨known, ?_, hknown⟩
    have hpadded : before.padded = .ok l := h
    simp only [range, hpadded]
  | broken f => cases h
  | cons node inner rest ihi ihr =>
    obtain ⟨own, sofar, hown, happend, hrest⟩ := Plain.range_cons_eq_ok_iff.1 h
    have hnode : ∃ mid, storageLayout union (range union inner .empty) node.storage
        known = .ok (own, mid) ∧
        Known.Plain t mid := by
      cases hstorage : node.storage with
      | own layout =>
        rw [hstorage] at hown
        obtain rfl := Except.ok.inj hown
        exact ⟨known, rfl, hknown⟩
      | fields =>
        rw [hstorage] at hown
        exact ihi hknown hown
      | copies count =>
        rw [hstorage] at hown
        obtain ⟨elem, helem, hcopies⟩ := Plain.storageLayout_copies_eq_ok_iff.1 hown
        obtain ⟨mid, hmeasured, hmid⟩ := ihi hknown helem
        exact ⟨mid,
          storageLayout_copies_eq_ok_iff.2 ⟨elem, hmeasured, hcopies⟩, hmid⟩
      | union id =>
        rw [hstorage] at hown
        exact hunion id own known hknown hown
    obtain ⟨mid, hmeasured, hmid⟩ := hnode
    obtain ⟨known', hmeasured', hknown'⟩ := ihr hmid hrest
    exact ⟨known', range_cons_eq_ok_iff.2 ⟨own, mid, sofar, hmeasured, happend,
      hmeasured'⟩, hknown'⟩

theorem variants_of_plain {u : Union} {vs : List UInt16} (hknown : Known.Plain t known)
    (h : Plain.variants (Plain.union t depth) u vs before = .ok l) :
    ∃ known', variants union u (unionHead u) vs before known = .ok (l, known') ∧
      Known.Plain t known' := by
  induction vs generalizing before known with
  | nil =>
    obtain rfl := Except.ok.inj h
    exact ⟨known, rfl, hknown⟩
  | cons v rest ih =>
    obtain ⟨own, hown, hrest⟩ := Plain.variants_cons_eq_ok_iff.1 h
    obtain ⟨fields, hfields, hrange⟩ := Plain.variant_eq_ok_iff.1 hown
    obtain ⟨mid, hmeasured, hmid⟩ := range_of_plain hunion hknown hrange
    obtain ⟨known', hmeasured', hknown'⟩ := ih hmid hrest
    exact ⟨known', variants_cons_eq_ok_iff.2 ⟨fields, own, mid, hfields, hmeasured,
      hmeasured'⟩, hknown'⟩

end OfPlain

/-- Different unions of a table are no more than the table is long. -/
theorem length_le_of_nodup {ids : List UInt16} (hnodup : ids.Nodup)
    (hlt : ∀ id ∈ ids, id.toNat < t.unions.size) : ids.length ≤ t.unions.size := by
  have hsub : ids.map UInt16.toNat ⊆ List.range t.unions.size := by
    intro n hn
    obtain ⟨id, hid, rfl⟩ := List.mem_map.1 hn
    exact List.mem_range.2 (hlt id hid)
  have hinj : (ids.map UInt16.toNat).Nodup := hnodup.map fun _ _ => UInt16.toNat_inj.1
  have hle := (List.subperm_of_subset hinj hsub).length_le
  rwa [List.length_map, List.length_range] at hle

/-- A union with a plain layout is measured, inside unions that have none at its depth. -/
theorem union_of_plain {depth bound : Nat} {path : List UInt16}
    (hl : Plain.union t depth id = .ok l)
    (hpath : ∀ j ∈ path, ∀ l, Plain.union t depth j ≠ .ok l) (hnodup : path.Nodup)
    (hlt : ∀ j ∈ path, j.toNat < t.unions.size)
    (hbound : t.unions.size ≤ bound + path.length) (hknown : Known.Plain t known) :
    ∃ known', Measure.union t bound path id known = .ok (l, known') ∧
      Known.Plain t known' := by
  induction depth generalizing bound path id known l with
  | zero => cases hl
  | succ depth ih =>
    have hpathBelow : ∀ j ∈ path, ∀ l, Plain.union t depth j ≠ .ok l :=
      fun j hj l h => hpath j hj l (Plain.union_mono (Nat.le_succ depth) h)
    by_cases hbelow : ∃ l, Plain.union t depth id = .ok l
    · obtain ⟨l', hl'⟩ := hbelow
      obtain rfl := Except.ok.inj ((Plain.union_mono (Nat.le_succ depth) hl').symm.trans hl)
      exact ih hl' hpathBelow hnodup hlt hbound hknown
    · -- Here the union has a layout for the first time, so it is on the path for what
      -- lies inside it.
      push Not at hbelow
      obtain ⟨u, widest, hu, hplain, hlayout⟩ := Plain.unionStep_eq_ok_iff.1 hl
      have hmem : id ∉ path := fun h => hpath id h l hl
      have hnodup' : (id :: path).Nodup := List.nodup_cons.2 ⟨hmem, hnodup⟩
      have hlt' : ∀ j ∈ id :: path, j.toNat < t.unions.size :=
        List.forall_mem_cons.2 ⟨Tables.lt_of_union hu, hlt⟩
      have hlength := length_le_of_nodup hnodup' hlt'
      rw [List.length_cons] at hlength
      obtain ⟨below, rfl⟩ : ∃ below, bound = below + 1 := ⟨bound - 1, by omega⟩
      have hbound' : t.unions.size ≤ below + (id :: path).length := by
        rw [List.length_cons]
        omega
      simp only [Measure.union, hu]
      cases hlookup : known.lookup id with
      | some known_l =>
        obtain rfl := (hknown id known_l hlookup).unique ⟨depth + 1, hl⟩
        exact ⟨known, rfl, hknown⟩
      | none =>
        obtain ⟨mid, hmeasured, hmid⟩ := variants_of_plain
          (fun _ _ _ hknown hl => ih hl (List.forall_mem_cons.2 ⟨hbelow, hpathBelow⟩)
            hnodup' hlt' hbound' hknown)
          hknown hplain
        simp only [if_neg hmem, hmeasured, hlayout]
        exact ⟨(id, l) :: mid, rfl, hmid.cons ⟨depth + 1, hl⟩⟩

theorem anyUnion_of_plain {depth : Nat} (hl : Plain.union t depth id = .ok l)
    (hknown : Known.Plain t known) :
    ∃ known', anyUnion t id known = .ok (l, known') ∧ Known.Plain t known' :=
  union_of_plain hl (by simp) List.nodup_nil (by simp) (by simp) hknown

end Measure

/-! ## What is hinted fits -/

theorem Word.le_of_alignUp {n align m : Nat}
    (h : Word.alignUp n align = .ok m) : n ≤ m := by
  obtain ⟨hpower, -, rfl⟩ := Word.alignUp_eq_ok_iff.1 h
  obtain ⟨k, rfl⟩ := Word.isPowerOfTwo_iff.1 hpower
  exact Word.le_roundUp_of_pos (Nat.two_pow_pos k)

theorem Measure.le_of_unionLayout {u : Union} {widest l : Layout}
    (h : Measure.unionLayout u widest = .ok l) : widest.size ≤ l.size := by
  unfold Measure.unionLayout at h
  split at h
  · rename_i hempty
    omega
  · split at h
    · cases h
    · rename_i size hup
      obtain rfl := Except.ok.inj h
      exact Word.le_of_alignUp hup

/-- A union that is measured is no smaller than a variant that its hint names. -/
theorem Tables.variant_le_of_hinted {t : Tables} {id : UInt16} {u : Union} {inner : Outline}
    {l : Layout} (hu : t.union id = .ok u) (hl : (Node.union id).layout t inner = .ok l)
    {v : UInt16} (hv : v ∈ u.hint) :
    ∃ lv, t.variantLayout u v.toNat = .ok lv ∧ lv.size ≤ l.size := by
  obtain ⟨known, hmeasured⟩ : ∃ known, Measure.anyUnion t id [] = .ok (l, known) := by
    simp only [Node.layout, Node.storage, Measure.storageLayout] at hl
    split at hl
    · cases hl
    · rename_i l' known hmeasured
      obtain rfl := Except.ok.inj hl
      exact ⟨known, hmeasured⟩
  rcases Measure.union_eq_ok hmeasured
    with ⟨hnone, -⟩ | ⟨-, below, u', widest, mid, -, hu', hvariants, hlayout, -⟩
  · cases hnone
  · obtain rfl := Except.ok.inj (hu.symm.trans hu')
    obtain ⟨⟨depth, hplain⟩, -⟩ :=
      Measure.variants_plain (fun _ _ _ _ => Measure.union_plain) .nil hvariants
    obtain ⟨-, -, hall⟩ := Tables.Verified.le_variants hplain
    obtain ⟨lv, hlv, hle, -⟩ := hall v hv
    obtain ⟨fields, hfields, hrange⟩ := Plain.variant_eq_ok_iff.1 hlv
    obtain ⟨known', hagain, -⟩ := Measure.range_of_plain
      (fun _ _ _ hknown hl => Measure.anyUnion_of_plain hl hknown) .nil hrange
    refine ⟨lv, ?_, hle.trans (Measure.le_of_unionLayout hlayout)⟩
    simp only [variantLayout, hfields, hagain]

end ShapeCode
