import ShapeCode.Proofs.OnlyOverflows

set_option autoImplicit false

/-!
# Layouts in unbounded arithmetic

`Unbounded` says what the layout of a range is with natural numbers alone: no sum is
checked, nothing is kept of the unions measured before, and the answer is a function of
the shape.  Fields are placed left to right; a union is as large as the widest variant
that its hint names.  Its recursion through unions is cut off at the length of the
table, which for verified tables it never reaches: `unionLayout_eq` is the recursive
equation without a bound.

Measuring gives this layout or leaves the machine word, whatever was measured before in
the same computation (`Descriptor.layout_unbounded`).
-/

namespace ShapeCode

namespace Unbounded

/-! ## The plain recursion -/

/-- One more field, at the next multiple of its alignment. -/
def place (sofar field : Layout) : Layout :=
  ⟨Word.roundUp sofar.size field.align + field.size, max sofar.align field.align⟩

/-- Fields from left to right behind `head`, and the total rounded up to the
largest alignment. -/
def record (head : Layout) (fields : List Layout) : Layout :=
  let total := fields.foldl place head
  ⟨Word.roundUp total.size total.align, total.align⟩

/-- Words that a handle takes. -/
def handleWords : Handle → Nat
  | .callable .bare | .typeDescriptor => 1
  | .callable _ | .object | .traitObject => 2

/-- The layout of a node, given those of unions and of its nested range. -/
def nodeLayout (union : UInt16 → Layout) (nested : Layout) : Node → Layout
  | .scalar s => ⟨s.size, s.align⟩
  | .record _ | .resource _ _ => nested
  | .union id => union id
  | .run (.fixedVec count) _ _ => ⟨count.toNat * nested.size, nested.align⟩
  | .run .vec _ _ | .pointer _ _ => ⟨8, 8⟩
  | .run .unboxedVec _ _ | .run (.slice _) _ _ => ⟨16, 8⟩
  | .handle h => ⟨handleWords h * 8, 8⟩

/-- The layouts of the nodes of a range. -/
def fields (union : UInt16 → Layout) : Outline → List Layout
  | .done | .broken _ => []
  | .cons node inner rest =>
    nodeLayout union (record ⟨0, 1⟩ (fields union inner)) node :: fields union rest

/-- What stands before the fields of every variant: a discriminant, if there
is more than one. -/
def head (u : Union) : Layout := if 1 < u.variants.size then ⟨8, 8⟩ else ⟨0, 1⟩

/-- The layout of a variant behind the discriminant. -/
def variantLayout (union : UInt16 → Layout) (u : Union) (v : UInt16) : Layout :=
  record (head u) (fields union (Outline.ofBytes (u.variants.getD v.toNat [])))

/-- The size and alignment that some layouts need at most, on top of `sofar`. -/
def widest (sofar : Layout) (ls : List Layout) : Layout :=
  ⟨(ls.map Layout.size).foldl max sofar.size,
    (ls.map Layout.align).foldl max sofar.align⟩

/-- The layout of a union, given those of the unions inside it. -/
def unionStep (union : UInt16 → Layout) (u : Union) : Layout :=
  let most := widest ⟨0, 1⟩ (u.hint.map (variantLayout union u))
  if most.size = 0 ∧ u.variants.size ≤ 1 then ⟨1, 1⟩
    else ⟨Word.roundUp most.size most.align, most.align⟩

/-- The layout of a union that nests less than `depth` deep. -/
def unionAt (t : Tables) : (depth : Nat) → UInt16 → Layout
  | 0, _ => ⟨0, 1⟩
  | depth + 1, id => unionStep (unionAt t depth) (t.unions.getD id.toNat .none)

/-- The layout of a union. -/
def unionLayout (t : Tables) : UInt16 → Layout := unionAt t t.unions.size

/-- The layout of a range. -/
def layout (t : Tables) (o : Outline) : Layout :=
  record ⟨0, 1⟩ (fields (unionLayout t) o)

/-! ## The recursive equation of unions -/

theorem fields_congr {union union' : UInt16 → Layout} {o : Outline}
    (h : ∀ id, o.Stores id → union id = union' id) :
    fields union o = fields union' o := by
  induction o with
  | done => rfl
  | broken f => rfl
  | cons node inner rest ihi ihr =>
    have hrest := ihr fun id hid => h id (.inr (.inr hid))
    have hnested : node.storesInline = true →
        fields union inner = fields union' inner := fun hin =>
      ihi fun id hid => h id (.inr (.inl ⟨hin, hid⟩))
    have hnode : nodeLayout union (record ⟨0, 1⟩ (fields union inner)) node =
        nodeLayout union' (record ⟨0, 1⟩ (fields union' inner)) node := by
      cases node with
      | scalar | pointer | handle => rfl
      | record | resource =>
        rw [hnested rfl]
        rfl
      | union id => exact h id (.inl rfl)
      | run form =>
        cases form with
        | fixedVec count =>
          rw [hnested rfl]
          rfl
        | vec | unboxedVec | slice => rfl
    simp only [fields, hnode, hrest]

theorem getD_of_union {t : Tables} {id : UInt16} {u : Union} (h : t.union id = .ok u) :
    t.unions.getD id.toNat .none = u := by
  rw [Array.getD_eq_getD_getElem?, Tables.union_eq_ok_iff.1 h]
  rfl

theorem getD_of_variant {u : Union} {v : Nat} {fields : Bytes}
    (h : u.variant v = .ok fields) : u.variants.getD v [] = fields := by
  unfold Union.variant at h
  split at h
  · rename_i hv
    rw [Array.getD_eq_getD_getElem?, hv]
    exact Except.ok.inj h
  · cases h

/-- The layout of a union depends on those of the unions inside it alone. -/
theorem unionStep_congr {t : Tables} (ht : t.Sound) {id : UInt16} {u : Union}
    (hu : t.union id = .ok u) {union union' : UInt16 → Layout}
    (h : ∀ id' : UInt16, t.Inside id'.toNat id.toNat → union id' = union' id') :
    unionStep union u = unionStep union' u := by
  have hvariants :
      u.hint.map (variantLayout union u) = u.hint.map (variantLayout union' u) := by
    apply List.map_congr_left
    intro v hv
    have hfields := Union.variant_of_lt (ht.hint_lt u (Tables.mem_of_union hu) v hv)
    unfold variantLayout
    rw [getD_of_variant hfields, fields_congr fun id' hid' =>
      h id' ⟨u, id', Tables.union_eq_ok_iff.1 hu, rfl, _,
        Union.mem_of_variant hfields, hid'⟩]
  unfold unionStep
  rw [hvariants]

/-- No more depth is used than unions nest. -/
theorem unionAt_eq_of_nests {t : Tables} (ht : t.Sound) {depth depth' : Nat} {id : UInt16}
    (hid : id.toNat < t.unions.size) (h : t.Nests depth id.toNat) (hle : depth ≤ depth') :
    unionAt t depth' id = unionAt t depth id := by
  induction depth generalizing depth' id with
  | zero => exact False.elim h
  | succ depth ih =>
    obtain ⟨k, rfl⟩ : ∃ k, depth' = k + 1 := ⟨depth' - 1, by omega⟩
    have hu := Tables.union_of_lt hid
    simp only [unionAt, getD_of_union hu]
    refine unionStep_congr ht hu fun id' hid' => ?_
    exact ih (ht.lt_of_inside hid') (h _ hid') (by omega)

/-- The layout of a union is made from those of the unions inside it. -/
theorem unionLayout_eq {t : Tables} (ht : t.Verified) {id : UInt16} {u : Union}
    (hu : t.union id = .ok u) :
    unionLayout t id = unionStep (unionLayout t) u := by
  have hid := Tables.lt_of_union hu
  have hdeeper := unionAt_eq_of_nests ht.sound hid (ht.nests hid) (Nat.le_succ _)
  calc unionLayout t id = unionAt t (t.unions.size + 1) id := hdeeper.symm
    _ = unionStep (unionLayout t) u := by rw [unionAt, getD_of_union hu]; rfl

/-! ## Checked arithmetic that gives a result is unbounded arithmetic -/

variable {t : Tables} {plain : UInt16 → Except Fault Layout} {union : UInt16 → Layout}

theorem append_eq_place {l field l' : Layout} (h : l.append field = .ok l') :
    l' = place l field := by
  unfold Layout.append at h
  split at h
  · cases h
  · rename_i start hstart
    obtain ⟨-, -, rfl⟩ := Word.alignUp_eq_ok_iff.1 hstart
    split at h
    · cases h
    · rename_i size hsize
      obtain ⟨-, rfl⟩ := Word.add_eq_ok_iff.1 hsize
      exact (Except.ok.inj h).symm

theorem padded_eq_record {l l' : Layout} (hl : 0 < l.align) (h : l.padded = .ok l') :
    l' = record l [] := by
  have hmax : max l.align 1 = l.align := max_eq_left hl
  unfold Layout.padded at h
  rw [hmax] at h
  split at h
  · cases h
  · rename_i size hsize
    obtain ⟨-, -, rfl⟩ := Word.alignUp_eq_ok_iff.1 hsize
    exact (Except.ok.inj h).symm

theorem storageLayout_eq {node : Node} {nested : Except Fault Layout} {nested' l : Layout}
    (hunion : ∀ id l, plain id = .ok l → l = union id)
    (hnested : ∀ l, nested = .ok l → l = nested')
    (h : Plain.storageLayout plain nested node.storage = .ok l) :
    l = nodeLayout union nested' node := by
  cases node with
  | scalar | pointer => exact (Except.ok.inj h).symm
  | handle handle =>
    obtain rfl := Except.ok.inj h
    cases handle with
    | callable c => cases c <;> rfl
    | object | traitObject | typeDescriptor => rfl
  | record | resource => exact hnested l h
  | union id => exact hunion id l h
  | run form =>
    cases form with
    | vec | unboxedVec | slice => exact (Except.ok.inj h).symm
    | fixedVec count =>
      simp only [Node.storage, Plain.storageLayout] at h
      split at h
      · cases h
      · rename_i elem
        obtain ⟨-, rfl⟩ := Layout.copies_eq_ok_iff.1 h
        rw [hnested elem rfl]
        rfl

/-- Fields placed with checks are placed as without, if unions are measured the same. -/
theorem range_eq {o : Outline} {before l : Layout}
    (hunion : ∀ id l, plain id = .ok l → l = union id) (hbefore : 0 < before.align)
    (h : Plain.range plain o before = .ok l) : l = record before (fields union o) := by
  induction o generalizing before l with
  | done => exact padded_eq_record hbefore h
  | broken f => cases h
  | cons node inner rest ihi ihr =>
    simp only [Plain.range] at h
    split at h
    · cases h
    · rename_i own hown
      split at h
      · cases h
      · rename_i sofar hsofar
        have hnode := storageLayout_eq hunion (fun _ hl => ihi Nat.one_pos hl) hown
        have hplace := append_eq_place hsofar
        have hpos : 0 < sofar.align := by
          rw [hplace]
          exact lt_of_lt_of_le hbefore (le_max_left _ _)
        rw [ihr hpos h, hplace, hnode]
        rfl

theorem head_eq (u : Union) : Measure.unionHead u = head u := by
  simp only [Measure.unionHead, head, Union.hasDiscriminant, decide_eq_true_eq]
  rfl

theorem variants_eq {u : Union} {vs : List UInt16} {sofar most : Layout}
    (hunion : ∀ id l, plain id = .ok l → l = union id)
    (h : Plain.variants plain u vs sofar = .ok most) :
    most = widest sofar (vs.map (variantLayout union u)) := by
  induction vs generalizing sofar with
  | nil => exact (Except.ok.inj h).symm
  | cons v rest ih =>
    simp only [Plain.variants] at h
    split at h
    · cases h
    · rename_i l hl
      have hv : l = variantLayout union u v := by
        unfold Plain.variant at hl
        split at hl
        · cases hl
        · rename_i fields hfields
          have hpos : 0 < (Measure.unionHead u).align := (Measure.isAlign_unionHead u).pos
          rw [range_eq hunion hpos hl, head_eq, variantLayout, getD_of_variant hfields]
      rw [ih h, hv]
      rfl

/-- A union is padded with checks as without. -/
theorem padUnion_eq {u : Union} {most l : Layout} (h : Measure.unionLayout u most = .ok l) :
    l = if most.size = 0 ∧ u.variants.size ≤ 1 then ⟨1, 1⟩
        else ⟨Word.roundUp most.size most.align, most.align⟩ := by
  have hdiscriminant : u.hasDiscriminant = false ↔ u.variants.size ≤ 1 := by
    simp [Union.hasDiscriminant]
  unfold Measure.unionLayout at h
  simp only [hdiscriminant] at h
  split at h
  · rename_i hzero
    rw [if_pos hzero]
    exact (Except.ok.inj h).symm
  · rename_i hnonzero
    rw [if_neg hnonzero]
    split at h
    · cases h
    · rename_i size hsize
      obtain ⟨-, -, rfl⟩ := Word.alignUp_eq_ok_iff.1 hsize
      exact (Except.ok.inj h).symm

theorem unionAt_eq {depth : Nat} {id : UInt16} {l : Layout}
    (h : Plain.union t depth id = .ok l) : l = unionAt t depth id := by
  induction depth generalizing id l with
  | zero => cases h
  | succ depth ih =>
    simp only [Plain.union, Plain.unionStep] at h
    split at h
    · cases h
    · rename_i u hu
      split at h
      · cases h
      · rename_i most hmost
        have hwidest :
            most = widest ⟨0, 1⟩ (u.hint.map (variantLayout (unionAt t depth) u)) :=
          variants_eq (fun _ _ hl => ih hl) hmost
        rw [padUnion_eq h, hwidest, unionAt, getD_of_union hu]
        rfl

theorem layout_eq {o : Outline} {l : Layout}
    (h : t.rangeLayout o .empty = .ok l) : l = layout t o :=
  range_eq (fun _ _ => unionAt_eq) Nat.one_pos h

end Unbounded

/-! ## What was measured before -/

/-- A union that has a layout lies in the table. -/
theorem Tables.lt_of_unionLayout {t : Tables} {id : UInt16} {l : Layout}
    (h : t.unionLayout id = .ok l) : id.toNat < t.unions.size := by
  unfold Tables.unionLayout at h
  cases hdepth : t.unions.size with
  | zero =>
    rw [hdepth] at h
    cases h
  | succ depth =>
    rw [hdepth] at h
    simp only [Plain.union, Plain.unionStep] at h
    split at h
    · cases h
    · rename_i u hu
      rw [← hdepth]
      exact Tables.lt_of_union hu

namespace Measure

theorem lt_of_anyUnion {t : Tables} {id : UInt16} {known known' : Known} {l : Layout}
    (h : anyUnion t id known = .ok (l, known')) : id.toNat < t.unions.size := by
  unfold anyUnion Measure.union at h
  split at h
  · cases h
  · rename_i u hu
    exact Tables.lt_of_union hu

/-- What is recorded of a union is what measuring it first of all gives. -/
def Known.Recorded (t : Tables) (known : Known) : Prop :=
  ∀ id l, known.lookup id = some l → ∃ known', anyUnion t id [] = .ok (l, known')

/-- What is recorded is what measuring gives if and only if it is the plain layout. -/
theorem Known.recorded_iff_sound {t : Tables} (ht : t.Verified) {known : Known} :
    known.Recorded t ↔ known.Sound t := by
  have hunion : ∀ id l, (∃ known', anyUnion t id [] = .ok (l, known')) ↔
      t.unionLayout id = .ok l := by
    intro id l
    have hagrees : id.toNat < t.unions.size →
        Agrees t (anyUnion t id []) (t.unionLayout id) := fun hid =>
      anyUnion_agrees ht hid (.nil t)
    constructor
    · rintro ⟨known', h⟩
      have h' := hagrees (lt_of_anyUnion h)
      rw [h] at h'
      exact h'.1
    · intro h
      rcases (hagrees (Tables.lt_of_unionLayout h)).cases
        with ⟨f, -, hp⟩ | ⟨l', known', hm, hp, -⟩
      · cases h.symm.trans hp
      · obtain rfl := Except.ok.inj (h.symm.trans hp)
        exact ⟨known', hm⟩
  unfold Known.Recorded Known.Sound
  simp only [hunion]

end Measure

namespace Descriptor

variable {d : Descriptor}

/-- A part of a verified descriptor whose layout does not overflow has the layout that
unbounded arithmetic gives, and has it whatever was measured before in the same
computation; what is recorded of unions stays right.  The layout of a union is that of
the widest variant that its hint names, by an equation without a bound. -/
theorem layout_unbounded (h : d.verify = .ok ()) :
    (∀ id u, d.tables.union id = .ok u →
      Unbounded.unionLayout d.tables id =
        Unbounded.unionStep (Unbounded.unionLayout d.tables) u) ∧
      ∀ o, d.Part o → (∀ f, o.layout d.tables = .error f → ¬ f.Overflow) →
        o.layout d.tables = .ok (Unbounded.layout d.tables o) ∧
          ∀ known : Measure.Known, known.Recorded d.tables → ∃ known' : Measure.Known,
            Measure.range (Measure.anyUnion d.tables) o .empty known =
              .ok (Unbounded.layout d.tables o, known') ∧
              known'.Recorded d.tables := by
  have hv := verified_of_verify h
  refine ⟨fun id u => Unbounded.unionLayout_eq hv.tables, fun o ho hfits => ?_⟩
  have hsound := ho.sound hv
  obtain ⟨l, hl⟩ : ∃ l, o.layout d.tables = .ok l := by
    rcases (hv.tables.layout_good hsound).cases with ⟨f, hf, hover⟩ | ⟨l, hl, -⟩
    · exact absurd hover (hfits f hf)
    · exact ⟨l, hl⟩
  have hplain : d.tables.rangeLayout o .empty = .ok l :=
    (hv.tables.layout_eq hsound).symm.trans hl
  obtain rfl := Unbounded.layout_eq hplain
  refine ⟨hl, fun known hknown => ?_⟩
  have hagrees :
      Measure.Agrees d.tables (Measure.range (Measure.anyUnion d.tables) o .empty known)
      (d.tables.rangeLayout o .empty) :=
    Measure.range_agrees
        ((Measure.Known.recorded_iff_sound hv.tables).1 hknown) fun _ hid _ hknown =>
      Measure.anyUnion_agrees hv.tables (hsound.lt_of_stores hid) hknown
  rcases hagrees.cases with ⟨f, -, hf⟩ | ⟨l, known', hm, hp, hknown'⟩
  · rw [hplain] at hf
    cases hf
  · obtain rfl := Except.ok.inj (hplain.symm.trans hp)
    exact ⟨known', hm, (Measure.Known.recorded_iff_sound hv.tables).2 hknown'⟩

/-- A record that stores one union twice, the second time inside another one. -/
def sharing : Descriptor where
  shape := Kind.record.byte :: 7 :: 0 :: (Emit.union 1 ++ Emit.scalar .u8 ++ Emit.union 0)
  tables :=
    ⟨#[⟨#[Emit.scalar .u16, Emit.scalar .u32], [1]⟩,
      ⟨#[Emit.scalar .u8 ++ Emit.union 0], [0]⟩], #[]⟩

theorem layout_unbounded_sharing : sharing.verify = .ok () ∧
    Unbounded.layout sharing.tables (Outline.ofBytes sharing.shape) = ⟨48, 8⟩ ∧
    ∃ known', Measure.range (Measure.anyUnion sharing.tables)
      (Outline.ofBytes sharing.shape) .empty
      [(0, ⟨16, 8⟩)] = .ok (⟨48, 8⟩, known') := by
  have hverify : sharing.verify = .ok () := by decide +kernel
  have hlayout :
      (Outline.ofBytes sharing.shape).layout sharing.tables = .ok ⟨48, 8⟩ := by
    decide +kernel
  have hrecorded : Measure.Known.Recorded sharing.tables [(0, ⟨16, 8⟩)] := by
    intro id l hl
    rw [List.lookup_cons] at hl
    split at hl
    · rename_i hid
      rw [beq_iff_eq.1 hid, ← Option.some.inj hl]
      exact ⟨[(0, ⟨16, 8⟩)], by decide +kernel⟩
    · cases hl
  obtain ⟨heq, hknown⟩ :=
    (layout_unbounded hverify).2 _ .root fun f hf => by cases hlayout.symm.trans hf
  have hideal := Except.ok.inj (heq.symm.trans hlayout)
  obtain ⟨known', hrange, -⟩ := hknown _ hrecorded
  rw [hideal] at hrange
  exact ⟨hverify, hideal, known', hrange⟩

end Descriptor

end ShapeCode
