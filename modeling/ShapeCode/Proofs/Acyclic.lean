import Mathlib.Data.Finset.Card
import Mathlib.Data.Finset.Range
import Mathlib.Logic.Relation
import Mathlib.Order.WellFounded
import ShapeCode.Proofs.Verified

set_option autoImplicit false

/-!
# Unions inside unions

A union is inside another if some variant of the other stores a value of it inline:
through records, resources and fixed vectors, but not behind pointers or vector headers
(`Tables.Inside`).  Verification searches this relation depth first.  An accepted table
has no endless descent into it (`Tables.wellFounded_inside`), and so unions nest at most
as deep as the table is long (`Tables.Sound.nests`).

The search is carried by one invariant: whatever is finished is accessible.  Marks only
ever go from unseen to finished during the search of one union (`Grows`), which is also
what its depth bound counts.
-/

namespace ShapeCode

/-! ## What is stored inline -/

/-- Whether the nested range of a node is stored where the node stands. -/
def Node.storesInline : Node → Bool
  | .record _ | .resource _ _ | .run (.fixedVec _) _ _ => true
  | _ => false

/-- A range stores a value of the union inline. -/
def Outline.Stores (id : UInt16) : Outline → Prop
  | .done | .broken _ => False
  | .cons node inner rest =>
    node = .union id ∨ (node.storesInline = true ∧ inner.Stores id) ∨ rest.Stores id

/-- Some variant of union `outer` stores a value of union `inner` inline. -/
def Tables.Inside (t : Tables) (inner outer : Nat) : Prop :=
  ∃ u id, t.unions[outer]? = some u ∧ id.toNat = inner ∧
    ∃ fields ∈ u.variants, (Outline.ofBytes fields).Stores id

theorem Outline.Sound.lt_of_stores {t : Tables} {o : Outline} {id : UInt16} (h : o.Sound t)
    (hs : o.Stores id) : id.toNat < t.unions.size := by
  induction o with
  | done => exact False.elim hs
  | broken f => exact False.elim hs
  | cons node inner rest ihi ihr =>
    obtain ⟨hids, -, hinner, hrest⟩ := h
    rcases hs with rfl | ⟨-, hs⟩ | hs
    · exact hids
    · exact ihi hinner hs
    · exact ihr hrest hs

theorem Tables.Sound.lt_of_inside {t : Tables} (h : t.Sound) {i j : Nat}
    (hij : t.Inside i j) : i < t.unions.size := by
  obtain ⟨u, id, hu, rfl, fields, hf, hs⟩ := hij
  exact (h.variant_sound u (Array.mem_of_getElem? hu) fields hf).lt_of_stores hs

theorem Tables.inside_of_stores {t : Tables} {id id' : UInt16} {u : Union} {v : Nat}
    {fields : Bytes} (hu : t.union id = .ok u) (hv : u.variant v = .ok fields)
    (hs : (Outline.ofBytes fields).Stores id') : t.Inside id'.toNat id.toNat :=
  ⟨u, id', Tables.union_eq_ok_iff.1 hu, rfl, fields, Union.mem_of_variant hv, hs⟩

namespace Verify

/-! ## Collecting what is stored inline -/

theorem mem_inlineUnions {o : Outline} {found found' : List UInt16}
    (h : inlineUnions o found = .ok found') (id : UInt16) :
    id ∈ found' ↔ id ∈ found ∨ o.Stores id := by
  induction o generalizing found found' with
  | done =>
    obtain rfl := Except.ok.inj h
    simp [Outline.Stores]
  | broken f => cases h
  | cons node inner rest ihi ihr =>
    cases node with
    | union id' =>
      simp only [inlineUnions] at h
      rw [ihr h]
      simp only [List.mem_cons, Outline.Stores, Node.union.injEq, Node.storesInline]
      grind
    | record fields | resource _ fields =>
      simp only [inlineUnions] at h
      split at h
      · cases h
      · rename_i mid hmid
        rw [ihr h, ihi hmid]
        simp [Outline.Stores, Node.storesInline, or_assoc]
    | run form plain elem =>
      cases form with
      | fixedVec count =>
        simp only [inlineUnions] at h
        split at h
        · cases h
        · rename_i mid hmid
          rw [ihr h, ihi hmid]
          simp [Outline.Stores, Node.storesInline, or_assoc]
      | vec | unboxedVec | slice =>
        simp only [inlineUnions] at h
        rw [ihr h]
        simp [Outline.Stores, Node.storesInline]
    | scalar | pointer | handle =>
      simp only [inlineUnions] at h
      rw [ihr h]
      simp [Outline.Stores, Node.storesInline]

theorem mem_inlineUnionsOfAll {fs : List Bytes} {found found' : List UInt16}
    (h : inlineUnionsOfAll fs found = .ok found') (id : UInt16) :
    id ∈ found' ↔
      id ∈ found ∨ ∃ fields ∈ fs, (Outline.ofBytes fields).Stores id := by
  induction fs generalizing found with
  | nil =>
    obtain rfl := Except.ok.inj h
    simp
  | cons fields rest ih =>
    simp only [inlineUnionsOfAll] at h
    split at h
    · cases h
    · rename_i mid hmid
      rw [ih h, mem_inlineUnions hmid]
      simp [or_assoc]

theorem mem_heldBy {u : Union} {ids : List UInt16} (h : heldBy u = .ok ids) (id : UInt16) :
    id ∈ ids ↔ ∃ fields ∈ u.variants, (Outline.ofBytes fields).Stores id := by
  unfold heldBy at h
  split at h
  · cases h
  · rename_i found hfound
    obtain rfl := Except.ok.inj h
    rw [List.mem_reverse, mem_inlineUnionsOfAll hfound]
    simp

theorem mapM_heldBy {us : List Union} {held : List (List UInt16)}
    (h : us.mapM heldBy = .ok held) :
    held.length = us.length ∧
      ∀ (i : Nat) (u : Union), us[i]? = some u → ∃ ids, held[i]? = some ids ∧
        heldBy u = .ok ids := by
  induction us generalizing held with
  | nil =>
    obtain rfl := Except.ok.inj h
    simp
  | cons u rest ih =>
    obtain ⟨ids, held', hu, hrest, rfl⟩ := mapM_cons_eq_ok_iff.1 h
    obtain ⟨hlength, hget⟩ := ih hrest
    refine ⟨by simp [hlength], ?_⟩
    intro i w hw
    cases i with
    | zero =>
      obtain rfl := Option.some.inj hw
      exact ⟨ids, rfl, hu⟩
    | succ i => exact hget i w hw

/-! ## The depth-first search -/

/-- Union `child` is among those that `parent` holds. -/
def HeldIn (held : Array (List UInt16)) (child parent : Nat) : Prop :=
  ∃ id ∈ held.getD parent [], id.toNat = child

/-- The unions still unseen. -/
def unseen (marks : Array Mark) : Finset Nat :=
  (Finset.range marks.size).filter fun i => marks[i]? = some .unseen

theorem mem_unseen {marks : Array Mark} {i : Nat} :
    i ∈ unseen marks ↔ marks[i]? = some .unseen := by
  simp only [unseen, Finset.mem_filter, Finset.mem_range]
  constructor
  · exact fun h => h.2
  · intro h
    exact ⟨(Array.getElem?_eq_some_iff.1 h).1, h⟩

/-- What a search does to the marks: what is finished or entered stays so, and nothing
else is entered. -/
structure Grows (before after : Array Mark) : Prop where
  size_eq : after.size = before.size
  finished : ∀ i : Nat, before[i]? = some Mark.finished → after[i]? = some Mark.finished
  entered : ∀ i : Nat, after[i]? = some Mark.entered ↔ before[i]? = some Mark.entered

theorem Grows.refl (marks : Array Mark) : Grows marks marks :=
  ⟨rfl, fun _ h => h, fun _ => Iff.rfl⟩

theorem Grows.trans {a b c : Array Mark} (hab : Grows a b)
    (hbc : Grows b c) : Grows a c where
  size_eq := hbc.size_eq.trans hab.size_eq
  finished i h := hbc.finished i (hab.finished i h)
  entered i := (hbc.entered i).trans (hab.entered i)

theorem Grows.unseen_subset {a b : Array Mark} (h : Grows a b) : unseen b ⊆ unseen a := by
  intro i hi
  rw [mem_unseen] at hi ⊢
  have hlt : i < a.size := by
    rw [← h.size_eq]
    exact (Array.getElem?_eq_some_iff.1 hi).1
  cases ha : a[i] with
  | unseen => simp [hlt, ha]
  | entered =>
    rw [(h.entered i).2 (by simp [hlt, ha])] at hi
    cases hi
  | finished =>
    rw [h.finished i (by simp [hlt, ha])] at hi
    cases hi

/-- Every finished union is accessible. -/
def Accessible (held : Array (List UInt16)) (marks : Array Mark) : Prop :=
  ∀ i : Nat, marks[i]? = some Mark.finished → Acc (HeldIn held) i

theorem getElem?_mark {marks : Array Mark} {i j : Nat} {m : Mark} (hi : i < marks.size) :
    (marks.setIfInBounds i m)[j]? = if j = i then some m else marks[j]? := by
  rw [Array.getElem?_setIfInBounds]
  by_cases h : i = j
  · subst h
    simp [hi]
  · simp [h, Ne.symm h]

theorem unseen_enter {marks : Array Mark} {i : Nat} (h : marks[i]? = some .unseen) :
    unseen (marks.setIfInBounds i .entered) = (unseen marks).erase i := by
  have hi : i < marks.size := (Array.getElem?_eq_some_iff.1 h).1
  ext j
  rw [Finset.mem_erase, mem_unseen, mem_unseen, getElem?_mark hi]
  by_cases hj : j = i
  · simp [hj]
  · simp [hj]

/-- What the search of one union achieves: it is finished, and everything
finished is accessible. -/
structure Searched (held : Array (List UInt16)) (ids : List Nat)
    (before after : Array Mark) : Prop where
  grows : Grows before after
  done : ∀ i ∈ ids, after[i]? = some Mark.finished
  accessible : Accessible held before → Accessible held after

/-- A list of unions is searched one after another, if each unseen one can be. -/
theorem searchAll_eq_ok {held : Array (List UInt16)}
    {step : Nat → Array Mark → Except Failure (Array Mark)} {bound : Nat}
    (hstep : ∀ i before after, step i before = .ok after → before[i]? = some .unseen →
      (unseen before).card ≤ bound → Searched held [i] before after)
    {ids : List UInt16} {before after : Array Mark}
    (h : searchAll step ids before = .ok after) (hbound : (unseen before).card ≤ bound) :
    Searched held (ids.map UInt16.toNat) before after := by
  induction ids generalizing before with
  | nil =>
    obtain rfl := Except.ok.inj h
    exact ⟨Grows.refl _, by simp, id⟩
  | cons id rest ih =>
    unfold searchAll at h
    split at h
    · cases h
    · cases h
    · rename_i hmark
      obtain ⟨hgrows, hdone, hacc⟩ := ih h hbound
      refine ⟨hgrows, ?_, hacc⟩
      rw [List.map_cons, List.forall_mem_cons]
      exact ⟨hgrows.finished _ hmark, hdone⟩
    · rename_i hmark
      split at h
      · cases h
      · rename_i mid hmid
        obtain ⟨hgrows, hdone, hacc⟩ := hstep id.toNat before mid hmid hmark hbound
        have hle := Finset.card_le_card hgrows.unseen_subset
        obtain ⟨hgrows', hdone', hacc'⟩ := ih h (Nat.le_trans hle hbound)
        refine ⟨hgrows.trans hgrows', ?_, fun hb => hacc' (hacc hb)⟩
        rw [List.map_cons, List.forall_mem_cons]
        exact ⟨hgrows'.finished _ (hdone _ (by simp)), hdone'⟩

/-- Entering a union, searching what it holds and finishing it is a search of the union. -/
theorem searched_of_children {held : Array (List UInt16)} {i : Nat}
    {before after : Array Mark} (hi : before[i]? = some .unseen)
    (h : Searched held ((held.getD i []).map UInt16.toNat)
      (before.setIfInBounds i .entered) after) :
    Searched held [i] before (after.setIfInBounds i .finished) := by
  obtain ⟨hgrows, hdone, hacc⟩ := h
  have hlt : i < before.size := (Array.getElem?_eq_some_iff.1 hi).1
  have hsize : after.size = before.size := by
    rw [hgrows.size_eq, Array.size_setIfInBounds]
  have hlt' : i < after.size := by omega
  refine ⟨⟨by rw [Array.size_setIfInBounds, hsize], ?_, ?_⟩, ?_, ?_⟩
  · intro j hj
    rw [getElem?_mark hlt']
    by_cases hji : j = i
    · simp [hji]
    · rw [if_neg hji]
      apply hgrows.finished
      rw [getElem?_mark hlt, if_neg hji, hj]
  · intro j
    rw [getElem?_mark hlt']
    by_cases hji : j = i
    · simp [hji, hi]
    · rw [if_neg hji, hgrows.entered j, getElem?_mark hlt, if_neg hji]
  · simp [getElem?_mark hlt']
  · intro hbefore
    have hentered : Accessible held (before.setIfInBounds i .entered) := by
      intro j hj
      rw [getElem?_mark hlt] at hj
      by_cases hji : j = i
      · simp [hji] at hj
      · exact hbefore j (by simpa [hji] using hj)
    have hafter := hacc hentered
    intro j hj
    rw [getElem?_mark hlt'] at hj
    by_cases hji : j = i
    · subst hji
      constructor
      rintro child ⟨id, hid, rfl⟩
      exact hafter _ (hdone _ (List.mem_map_of_mem hid))
    · exact hafter j (by simpa [hji] using hj)

theorem search_eq_ok {held : Array (List UInt16)} {depth i : Nat}
    {before after : Array Mark} (h : search held depth i before = .ok after)
    (hi : before[i]? = some .unseen) (hdepth : (unseen before).card ≤ depth) :
    Searched held [i] before after := by
  induction depth generalizing i before after with
  | zero =>
    have hmem : i ∈ unseen before := mem_unseen.2 hi
    have hpos : 0 < (unseen before).card := Finset.card_pos.2 ⟨i, hmem⟩
    omega
  | succ depth ih =>
    unfold search at h
    split at h
    · cases h
    · rename_i mid hmid
      obtain rfl := Except.ok.inj h
      have hcard : (unseen (before.setIfInBounds i .entered)).card ≤ depth := by
        rw [unseen_enter hi, Finset.card_erase_of_mem (mem_unseen.2 hi)]
        omega
      exact searched_of_children hi (searchAll_eq_ok (fun _ _ _ => ih) hmid hcard)

/-- When no union is entered, a search from every listed union leaves them
all accessible. -/
theorem acc_of_searchFrom {held : Array (List UInt16)} {ids : List Nat} {marks : Array Mark}
    (h : searchFrom held ids marks = .ok ()) (hsize : marks.size = held.size)
    (hentered : ∀ i : Nat, marks[i]? ≠ some Mark.entered)
    (hacc : Accessible held marks) :
    ∀ i ∈ ids, i < held.size → Acc (HeldIn held) i := by
  induction ids generalizing marks with
  | nil => simp
  | cons id rest ih =>
    unfold searchFrom at h
    rw [List.forall_mem_cons]
    split at h
    · rename_i hunseen
      split at h
      · cases h
      · rename_i after hafter
        have hmark : marks[id]? = some .unseen := by
          rw [Array.getD_eq_getD_getElem?] at hunseen
          cases hm : marks[id]? with
          | none => simp [hm] at hunseen
          | some m => simpa [hm] using hunseen
        have hcard : (unseen marks).card ≤ held.size := by
          rw [← hsize, ← Finset.card_range marks.size]
          exact Finset.card_le_card (Finset.filter_subset _ _)
        obtain ⟨hgrows, hdone, hgood⟩ := search_eq_ok hafter hmark hcard
        refine ⟨fun _ => hgood hacc id (hdone id (by simp)), ?_⟩
        refine ih h (hgrows.size_eq.trans hsize) ?_ (hgood hacc)
        intro i hi
        exact hentered i ((hgrows.entered i).1 hi)
    · rename_i hseen
      refine ⟨?_, ih h hsize hentered hacc⟩
      intro hlt
      have hlt' : id < marks.size := by omega
      apply hacc
      cases hm : marks[id] with
      | unseen => simp [Array.getD, hlt', hm] at hseen
      | entered => exact absurd (by simp [hlt', hm]) (hentered id)
      | finished => simp [hlt', hm]

end Verify

/-! ## Accepted tables -/

/-- An accepted table has no endless descent into unions stored inline. -/
theorem Tables.wellFounded_inside {t : Tables} (h : Verify.acyclic t = .ok ()) :
    WellFounded t.Inside := by
  unfold Verify.acyclic at h
  split at h
  · cases h
  · rename_i held hheld
    obtain ⟨hlength, hget⟩ := Verify.mapM_heldBy hheld
    have hacc := Verify.acc_of_searchFrom h (by simp) (by simp [Array.getElem?_replicate])
      (by
        intro i hi
        simp [Array.getElem?_replicate] at hi)
    have hsub : ∀ i j, t.Inside i j → Verify.HeldIn held.toArray i j := by
      rintro i j ⟨u, id, hu, rfl, hfields⟩
      obtain ⟨ids, hids, hby⟩ := hget j u (by simpa using hu)
      refine ⟨id, ?_, rfl⟩
      rw [Array.getD_eq_getD_getElem?]
      simpa [hids] using (Verify.mem_heldBy hby id).2 hfields
    constructor
    intro j
    by_cases hj : j < held.length
    · have hacc' := hacc j (List.mem_range.2 hj) (by simpa using hj)
      exact Subrelation.accessible (hsub _ _) hacc'
    · constructor
      rintro i ⟨u, id, hu, -⟩
      have := (Array.getElem?_eq_some_iff.1 hu).1
      simp only [Array.length_toList] at hlength
      omega

/-! ## How deep unions nest -/

/-- Unions nest less than `depth` deep inside union `i`. -/
def Tables.Nests (t : Tables) : (depth i : Nat) → Prop
  | 0, _ => False
  | depth + 1, i => ∀ j, t.Inside j i → t.Nests depth j

theorem Tables.Nests.mono {t : Tables} {depth depth' i : Nat} (h : t.Nests depth i)
    (hle : depth ≤ depth') : t.Nests depth' i := by
  induction depth generalizing depth' i with
  | zero => exact False.elim h
  | succ depth ih =>
    obtain ⟨k, rfl⟩ : ∃ k, depth' = k + 1 := ⟨depth' - 1, by omega⟩
    intro j hj
    exact ih (h j hj) (by omega)

/-- A union does not nest deeper than the number of unions it could hold: each
level uses up one. -/
theorem Tables.nests_of_subset {t : Tables} (hwf : WellFounded t.Inside) {depth i : Nat}
    {s : Finset Nat} (hcard : s.card ≤ depth) (hi : i ∈ s)
    (hs : ∀ j, Relation.TransGen t.Inside j i → j ∈ s) : t.Nests depth i := by
  induction depth generalizing i s with
  | zero =>
    have hpos : 0 < s.card := Finset.card_pos.2 ⟨i, hi⟩
    omega
  | succ depth ih =>
    intro j hj
    have hirrefl : ∀ k, ¬ Relation.TransGen t.Inside k k := fun k =>
      hwf.transGen.irrefl.irrefl k
    have hne : j ≠ i := by
      rintro rfl
      exact hirrefl j (.single hj)
    refine ih (s := s.erase i) ?_ ?_ ?_
    · rw [Finset.card_erase_of_mem hi]
      omega
    · exact Finset.mem_erase.2 ⟨hne, hs j (.single hj)⟩
    · intro k hk
      have hki : Relation.TransGen t.Inside k i := hk.tail hj
      refine Finset.mem_erase.2 ⟨?_, hs k hki⟩
      rintro rfl
      exact hirrefl k hki

/-- In a table without endless descent, unions nest at most as deep as the table is long. -/
theorem Tables.Sound.nests {t : Tables} (h : t.Sound) (hwf : WellFounded t.Inside) {i : Nat}
    (hi : i < t.unions.size) : t.Nests t.unions.size i := by
  refine Tables.nests_of_subset hwf (s := Finset.range t.unions.size) ?_ ?_ ?_
  · rw [Finset.card_range]
  · exact Finset.mem_range.2 hi
  · intro j hj
    obtain ⟨k, hjk, -⟩ := Relation.TransGen.head'_iff.1 hj
    exact Finset.mem_range.2 (h.lt_of_inside hjk)

/-! ## Verified descriptors -/

/-- What verification promises of tables. -/
structure Tables.Verified (t : Tables) : Prop where
  sound : t.Sound
  acyclic : WellFounded t.Inside

/-- What verification promises of a descriptor. -/
structure Descriptor.Verified (d : Descriptor) : Prop where
  tables : d.tables.Verified
  root : (Outline.ofBytes d.shape).Sound d.tables
  single : (Outline.ofBytes d.shape).length = 1

theorem Descriptor.verified_of_verify {d : Descriptor}
    (h : d.verify = .ok ()) : d.Verified := by
  unfold Descriptor.verify at h
  split at h
  · cases h
  · rename_i hranges
    obtain ⟨htables, hroot, hsingle⟩ := Verify.sound_of_ranges hranges
    exact ⟨⟨htables, Tables.wellFounded_inside h⟩, hroot, hsingle⟩

theorem Tables.Verified.nests {t : Tables} (h : t.Verified) {i : Nat}
    (hi : i < t.unions.size) : t.Nests t.unions.size i :=
  h.sound.nests h.acyclic hi

theorem Tables.Verified.not_inside_self {t : Tables} (h : t.Verified) (i : Nat) :
    ¬ Relation.TransGen t.Inside i i :=
  h.acyclic.transGen.irrefl.irrefl i

end ShapeCode
