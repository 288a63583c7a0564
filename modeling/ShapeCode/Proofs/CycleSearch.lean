import ShapeCode.Proofs.Acyclic
import ShapeCode.Proofs.Grammar

set_option autoImplicit false

/-!
# What verification refuses

A search for cycles that stops names a union that lies inside itself
(`searchFrom_eq_error`): the unions entered are those that hold the one searched now, at
some depth, and meeting one of them closes a cycle.  So tables of sound ranges are
refused only for a union inside itself (`acyclic_eq_ok_iff`), and a descriptor is
accepted if and only if its hints name variants, its ranges are well formed and no union
lies inside itself (`accepted_iff`).
-/

namespace ShapeCode

namespace Verify

/-! ## Cycles found -/

/-- The search was stopped by a union that it met inside itself. -/
def OnCycle (held : Array (List UInt16)) (e : Failure) : Prop :=
  ∃ id : UInt16, e = .refused (.selfContaining id) ∧
    Relation.TransGen (HeldIn held) id.toNat id.toNat

/-- Every union that is held has marks. -/
def Closed (held : Array (List UInt16)) : Prop :=
  ∀ i, ∀ id ∈ held.getD i [], id.toNat < held.size

variable {held : Array (List UInt16)}

/-- A search of what a union holds stops at a cycle, if the unions entered hold that
union, and if searching an unseen one stops at a cycle. -/
theorem searchAll_eq_error {step : Nat → Array Mark → Except Failure (Array Mark)}
    {bound parent : Nat}
    (hstep : ∀ i before after, step i before = .ok after → before[i]? = some .unseen →
      (unseen before).card ≤ bound → Searched held [i] before after)
    (hstop : ∀ i before e, step i before = .error e → before[i]? = some .unseen →
      (unseen before).card ≤ bound →
      before.size = held.size → (∀ j : Nat, before[j]? = some Mark.entered →
      Relation.TransGen (HeldIn held) i j) → OnCycle held e)
    {ids : List UInt16} {before : Array Mark} {e : Failure}
    (h : searchAll step ids before = .error e)
    (hids : ∀ id ∈ ids, HeldIn held id.toNat parent ∧ id.toNat < held.size)
    (hbound : (unseen before).card ≤ bound) (hsize : before.size = held.size)
    (hentered : ∀ j : Nat, before[j]? = some Mark.entered →
      Relation.ReflTransGen (HeldIn held) parent j) : OnCycle held e := by
  induction ids generalizing before with
  | nil => cases h
  | cons id rest ih =>
    rw [List.forall_mem_cons] at hids
    obtain ⟨⟨hheld, hlt⟩, hrest⟩ := hids
    unfold searchAll at h
    split at h
    · rename_i hnone
      rw [Array.getElem?_eq_none_iff] at hnone
      omega
    · rename_i hmark
      exact ⟨id, (Except.error.inj h).symm, .head' hheld (hentered _ hmark)⟩
    · exact ih h hrest hbound hsize hentered
    · rename_i hmark
      split at h
      · rename_i e' he
        obtain rfl := Except.error.inj h
        refine hstop id.toNat before e' he hmark hbound hsize fun j hj => ?_
        exact .head' hheld (hentered j hj)
      · rename_i mid hmid
        have hgrows := (hstep id.toNat before mid hmid hmark hbound).grows
        refine ih h hrest ?_ (hgrows.size_eq.trans hsize) fun j hj =>
          hentered j ((hgrows.entered j).1 hj)
        exact Nat.le_trans (Finset.card_le_card hgrows.unseen_subset) hbound

/-- A search of an unseen union stops at a cycle, if the unions entered hold it. -/
theorem search_eq_error (hclosed : Closed held) {depth i : Nat} {before : Array Mark}
    {e : Failure} (h : search held depth i before = .error e)
    (hi : before[i]? = some .unseen) (hdepth : (unseen before).card ≤ depth)
    (hsize : before.size = held.size)
    (hentered : ∀ j : Nat, before[j]? = some Mark.entered →
      Relation.TransGen (HeldIn held) i j) : OnCycle held e := by
  induction depth generalizing i before e with
  | zero => cases h
  | succ depth ih =>
    have hlt : i < before.size := (Array.getElem?_eq_some_iff.1 hi).1
    unfold search at h
    split at h
    · rename_i e' he
      obtain rfl := Except.error.inj h
      have hcard : (unseen (before.setIfInBounds i .entered)).card ≤ depth := by
        rw [unseen_enter hi, Finset.card_erase_of_mem (mem_unseen.2 hi)]
        omega
      have hids : ∀ id ∈ held.getD i [],
          HeldIn held id.toNat i ∧ id.toNat < held.size :=
        fun id hid => ⟨⟨id, hid, rfl⟩, hclosed i id hid⟩
      refine searchAll_eq_error (fun _ _ _ => search_eq_ok)
        (fun _ _ _ h hi hdepth hsize hentered =>
          ih h hi hdepth hsize hentered) he hids hcard
        (by rw [Array.size_setIfInBounds, hsize]) ?_
      intro j hj
      rw [getElem?_mark hlt] at hj
      by_cases hji : j = i
      · rw [hji]
      · rw [if_neg hji] at hj
        exact (hentered j hj).to_reflTransGen
    · cases h

/-- A search from every listed union stops at a cycle, if no union is entered. -/
theorem searchFrom_eq_error (hclosed : Closed held) {ids : List Nat} {marks : Array Mark}
    {e : Failure} (h : searchFrom held ids marks = .error e)
    (hsize : marks.size = held.size)
    (hentered : ∀ i : Nat, marks[i]? ≠ some Mark.entered) : OnCycle held e := by
  induction ids generalizing marks with
  | nil => cases h
  | cons id rest ih =>
    unfold searchFrom at h
    split at h
    · rename_i hunseen
      have hmark : marks[id]? = some .unseen := by
        rw [Array.getD_eq_getD_getElem?] at hunseen
        cases hm : marks[id]? with
        | none => simp [hm] at hunseen
        | some m => simpa [hm] using hunseen
      have hcard : (unseen marks).card ≤ held.size := by
        rw [← hsize, ← Finset.card_range marks.size]
        exact Finset.card_le_card (Finset.filter_subset _ _)
      split at h
      · rename_i e' he
        obtain rfl := Except.error.inj h
        exact search_eq_error hclosed he hmark hcard hsize fun j hj =>
          absurd hj (hentered j)
      · rename_i after hafter
        have hgrows := (search_eq_ok hafter hmark hcard).grows
        exact ih h (hgrows.size_eq.trans hsize) fun j hj =>
          hentered j ((hgrows.entered j).1 hj)
    · exact ih h hsize hentered

/-! ## Sound tables -/

/-- What a sound range stores inline can be collected. -/
theorem inlineUnions_of_sound {t : Tables} {o : Outline} (ho : o.Sound t)
    (found : List UInt16) :
    ∃ found', inlineUnions o found = .ok found' := by
  induction o generalizing found with
  | done => exact ⟨found, rfl⟩
  | broken f => exact False.elim ho
  | cons node inner rest ihi ihr =>
    obtain ⟨-, -, hinner, hrest⟩ := ho
    obtain ⟨mid, hmid⟩ := ihi hinner found
    cases node with
    | scalar | union | pointer | handle => exact ihr hrest _
    | record | resource =>
      simp only [inlineUnions, hmid]
      exact ihr hrest mid
    | run form =>
      cases form with
      | fixedVec count =>
        simp only [inlineUnions, hmid]
        exact ihr hrest mid
      | vec | unboxedVec | slice => exact ihr hrest _

theorem inlineUnionsOfAll_of_sound {t : Tables} {fs : List Bytes}
    (hfs : ∀ fields ∈ fs, (Outline.ofBytes fields).Sound t)
    (found : List UInt16) : ∃ found', inlineUnionsOfAll fs found = .ok found' := by
  induction fs generalizing found with
  | nil => exact ⟨found, rfl⟩
  | cons fields rest ih =>
    rw [List.forall_mem_cons] at hfs
    obtain ⟨mid, hmid⟩ := inlineUnions_of_sound hfs.1 found
    simp only [inlineUnionsOfAll, hmid]
    exact ih hfs.2 mid

theorem mapM_heldBy_of_sound {t : Tables} {us : List Union}
    (hus : ∀ u ∈ us, ∀ fields ∈ u.variants, (Outline.ofBytes fields).Sound t) :
    ∃ held, us.mapM heldBy = .ok held := by
  induction us with
  | nil => exact ⟨[], rfl⟩
  | cons u rest ih =>
    rw [List.forall_mem_cons] at hus
    obtain ⟨held, hheld⟩ := ih hus.2
    have hsound : ∀ fields ∈ u.variants.toList, (Outline.ofBytes fields).Sound t :=
        fun fields hf =>
      hus.1 fields (Array.mem_toList_iff.1 hf)
    obtain ⟨found, hfound⟩ := inlineUnionsOfAll_of_sound hsound []
    have hby : heldBy u = .ok found.reverse := by
      unfold heldBy
      rw [hfound]
    exact ⟨found.reverse :: held, mapM_cons_eq_ok_iff.2 ⟨_, _, hby, hheld, rfl⟩⟩

/-- What the search takes a union to hold lies inside it. -/
theorem inside_of_heldIn {t : Tables} {held : List (List UInt16)}
    (h : heldByAll t = .ok held) {i j : Nat}
    (hij : HeldIn held.toArray i j) : t.Inside i j := by
  obtain ⟨id, hid, rfl⟩ := hij
  obtain ⟨hlength, hget⟩ := mapM_heldBy h
  rw [Array.getD_eq_getD_getElem?] at hid
  have hlt : j < t.unions.size := by
    rw [← Array.length_toList, ← hlength]
    apply Nat.lt_of_not_le
    intro hle
    simp [hle] at hid
  obtain ⟨ids, hids, hby⟩ := hget j t.unions[j] (by simp [hlt])
  refine ⟨t.unions[j], id, by simp [hlt], rfl, (mem_heldBy hby id).1 ?_⟩
  simpa [hids] using hid

/-- Of sound variants, what every union holds can be collected, and is in the table.
Resources make no difference. -/
theorem closed_of_variants {t : Tables} {resources : Array UInt64}
    (hsound : ∀ u ∈ t.unions, ∀ fields ∈ u.variants,
      (Outline.ofBytes fields).Sound ⟨t.unions, resources⟩) :
    ∃ held, heldByAll t = .ok held ∧ Closed held.toArray := by
  obtain ⟨held, hheld⟩ :=
    mapM_heldBy_of_sound fun u hu => hsound u (Array.mem_toList_iff.1 hu)
  refine ⟨held, hheld, fun i id hid => ?_⟩
  obtain ⟨u, id', hu, hid', fields, hfields, hstores⟩ :=
    inside_of_heldIn hheld ⟨id, hid, rfl⟩
  have hlt : id'.toNat < t.unions.size :=
    (hsound u (Array.mem_of_getElem? hu) fields hfields).lt_of_stores hstores
  rwa [List.size_toArray, (mapM_heldBy hheld).1, Array.length_toList, ← hid']

/-- Searching tables of sound variants stops at a cycle or not at all. -/
theorem acyclic_eq_error_of_variants {t : Tables} {resources : Array UInt64}
    (hsound : ∀ u ∈ t.unions, ∀ fields ∈ u.variants,
      (Outline.ofBytes fields).Sound ⟨t.unions, resources⟩)
    {e : Failure} (h : acyclic t = .error e) :
    ∃ id : UInt16, e = .refused (.selfContaining id) ∧
      Relation.TransGen t.Inside id.toNat id.toNat := by
  obtain ⟨held, hheld, hclosed⟩ := closed_of_variants hsound
  simp only [acyclic, hheld] at h
  obtain ⟨id, rfl, hcycle⟩ := searchFrom_eq_error hclosed h (by simp)
    (by
      intro i hi
      simp [Array.getElem?_replicate] at hi)
  exact ⟨id, rfl, Relation.TransGen.mono (fun _ _ => inside_of_heldIn hheld) _ _ hcycle⟩

/-- Searching tables of sound ranges stops at a cycle or not at all. -/
theorem acyclic_eq_error {t : Tables} (ht : t.Sound) {e : Failure}
    (h : acyclic t = .error e) :
    ∃ id : UInt16, e = .refused (.selfContaining id) ∧
      Relation.TransGen t.Inside id.toNat id.toNat :=
  acyclic_eq_error_of_variants ht.variant_sound h

/-- Tables of sound ranges are accepted if and only if no union lies inside itself. -/
theorem acyclic_eq_ok_iff {t : Tables} (ht : t.Sound) :
    acyclic t = .ok () ↔ ∀ i, ¬ Relation.TransGen t.Inside i i := by
  constructor
  · intro h i
    exact (Tables.wellFounded_inside h).transGen.irrefl.irrefl i
  · intro hirrefl
    cases hsearch : acyclic t with
    | ok _ => rfl
    | error e =>
      obtain ⟨id, -, hcycle⟩ := acyclic_eq_error ht hsearch
      exact absurd hcycle (hirrefl id.toNat)

/-! ## Accepted descriptors -/

theorem hint_accepted_iff {u : Union} :
    (u.badHint? = none ∧ u.lacksHint = false) ↔
      (∀ v ∈ u.hint, v.toNat < u.variants.size) ∧
      (u.variants ≠ #[] → u.hint ≠ []) := by
  rw [Union.badHint?_eq_none_iff]
  have hlacks : u.lacksHint = false ↔ (u.variants ≠ #[] → u.hint ≠ []) := by
    cases hvariants : u.variants.isEmpty <;> simp_all [Union.lacksHint]
  rw [hlacks]

theorem ranges_accepted_iff {d : Descriptor} :
    ranges d = .ok () ↔
      (∀ u ∈ d.tables.unions, (∀ v ∈ u.hint, v.toNat < u.variants.size) ∧
        (u.variants ≠ #[] → u.hint ≠ [])) ∧
        WellFormed d.tables 1 d.shape ∧
        ∀ u ∈ d.tables.unions, ∀ fields ∈ u.variants,
          ∃ n, WellFormed d.tables n fields := by
  simp only [ranges_eq_ok_iff, Array.mem_toList_iff, hint_accepted_iff, range_eq_ok_iff]

/-- The verifier accepts the ranges of the grammar, at any offset, and counts their nodes.
A descriptor is accepted if and only if hints name variants, and at least one if there is
any; the root is one node; the variants are well formed; and no union lies inside itself. -/
theorem accepted_iff :
    (∀ (t : Tables) (bs : Bytes) (offset n : Nat), range t bs offset 0 = .ok n ↔
      WellFormed t n bs) ∧
      ∀ d : Descriptor, d.verify = .ok () ↔
        (∀ u ∈ d.tables.unions, (∀ v ∈ u.hint, v.toNat < u.variants.size) ∧
          (u.variants ≠ #[] → u.hint ≠ [])) ∧
          WellFormed d.tables 1 d.shape ∧
          (∀ u ∈ d.tables.unions, ∀ fields ∈ u.variants,
            ∃ n, WellFormed d.tables n fields) ∧
          ∀ i, ¬ Relation.TransGen d.tables.Inside i i := by
  refine ⟨fun t bs offset n => range_eq_ok_iff, fun d => ?_⟩
  rw [← and_assoc, ← and_assoc, and_assoc (c := ∀ u ∈ d.tables.unions, _),
    ← ranges_accepted_iff]
  unfold Descriptor.verify
  cases h : ranges d with
  | error e => simp
  | ok _ => simp [acyclic_eq_ok_iff (sound_of_ranges h).1]

end Verify

/-- The root and the variants of a descriptor that is accepted are well formed. -/
theorem Descriptor.wellFormed_of_verify {d : Descriptor} (h : d.verify = .ok ()) :
    WellFormed d.tables 1 d.shape ∧
      ∀ u ∈ d.tables.unions, ∀ fields ∈ u.variants,
        ∃ n, WellFormed d.tables n fields := by
  unfold verify at h
  split at h
  · cases h
  · rename_i hranges
    exact (Verify.ranges_accepted_iff.1 hranges).2

end ShapeCode
