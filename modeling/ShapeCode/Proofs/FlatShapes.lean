import ShapeCode.Flat
import ShapeCode.Proofs.Visits

set_option autoImplicit false

/-!
# Flat shapes hold no pointers

Judging a shape marks the unions it meets and looks into each of them once.  Between two
states of a judgement that stays favourable, every union newly met has pointer-free
variants, and what these store is met as well (`Flat.Extends`).  From the start, where
nothing is met, this leaves the met unions closed: a walk over a value of a flat shape
never comes across a pointer, a vector, a slice or a handle (`visited_isFlat`).
-/

namespace ShapeCode

/-- The node holds no address: neither a pointer nor elements elsewhere nor a handle. -/
def Node.isFlat : Node → Bool
  | .handle _ => false
  | node => node.isInline

theorem Node.isInline_of_isFlat {node : Node} (h : node.isFlat = true) :
    node.isInline = true := by
  cases node with
  | handle => cases h
  | scalar | record | resource | union | run | pointer => exact h

/-- The nodes of the range hold no addresses, and what they store inline holds none. -/
def Outline.PointerFree : Outline → Prop
  | .done | .broken _ => True
  | .cons node inner rest =>
    node.isFlat = true ∧
      (node.storesInline = true → inner.PointerFree) ∧ rest.PointerFree

namespace Flat

variable {t : Tables} {s s' s'' : State} {o : Outline} {id : UInt16}

/-- The range is pointer-free, and the unions it stores are met. -/
structure State.Covers (s : State) (o : Outline) : Prop where
  pointerFree : o.PointerFree
  met : ∀ id, o.Stores id → s.hasMet id = true

/-- A judgement leads from one state to another: if it is favourable, the variants of
every union newly met are covered. -/
structure Extends (t : Tables) (s s' : State) : Prop where
  size_eq : s'.met.size = s.met.size
  flat : s'.flat = true → s.flat = true
  met : ∀ id, s.hasMet id = true → s'.hasMet id = true
  covers : s'.flat = true → ∀ id u, s'.hasMet id = true →
    s.hasMet id = false → t.union id = .ok u →
    ∀ fields ∈ u.variants, s'.Covers (Outline.ofBytes fields)

theorem State.Covers.mono (h : s.Covers o)
    (hmet : ∀ id, s.hasMet id = true → s'.hasMet id = true) : s'.Covers o :=
  ⟨h.pointerFree, fun id hid => hmet id (h.met id hid)⟩

theorem Extends.refl (t : Tables) (s : State) : Extends t s s where
  size_eq := rfl
  flat h := h
  met _ h := h
  covers := by
    intro _ id u hmet hnot
    rw [hmet] at hnot
    cases hnot

theorem Extends.trans (h : Extends t s s') (h' : Extends t s' s'') : Extends t s s'' where
  size_eq := h'.size_eq.trans h.size_eq
  flat hflat := h.flat (h'.flat hflat)
  met id hid := h'.met id (h.met id hid)
  covers := by
    intro hflat id u hmet hnot hu fields hf
    cases hmid : s'.hasMet id with
    | true => exact (h.covers (h'.flat hflat) id u hmid hnot hu fields hf).mono h'.met
    | false => exact h'.covers hflat id u hmet hmid hu fields hf

theorem Extends.spoil (t : Tables) (s : State) : Extends t s s.spoil where
  size_eq := rfl
  flat h := by cases h
  met _ h := h
  covers h := by cases h

theorem hasMet_meet (hid : id.toNat < s.met.size) (id' : UInt16) :
    (s.meet id).hasMet id' = (id' == id || s.hasMet id') := by
  unfold State.hasMet State.meet
  simp only [Array.getD_eq_getD_getElem?, Array.getElem?_setIfInBounds]
  by_cases heq : id' = id
  · subst heq
    simp [hid]
  · have hne : id.toNat ≠ id'.toNat := fun h => heq (UInt16.toNat_inj.1 h).symm
    simp [heq, hne]

/-- A union is met, and its variants are judged after it. -/
theorem Extends.of_meet {u : Union} (hid : id.toNat < s.met.size) (hu : t.union id = .ok u)
    (h : Extends t (s.meet id) s')
    (hcovers : s'.flat = true →
      ∀ fields ∈ u.variants, s'.Covers (Outline.ofBytes fields)) : Extends t s s' where
  size_eq := by
    rw [h.size_eq]
    simp [State.meet]
  flat := h.flat
  met := by
    intro id' hmet
    apply h.met
    rw [hasMet_meet hid, hmet, Bool.or_true]
  covers := by
    intro hflat id' u' hmet hnot hu' fields hf
    by_cases heq : id' = id
    · subst heq
      obtain rfl := Except.ok.inj (hu.symm.trans hu')
      exact hcovers hflat fields hf
    · apply h.covers hflat id' u' hmet ?_ hu' fields hf
      rw [hasMet_meet hid, hnot, beq_eq_false_iff_ne.2 heq, Bool.or_false]

/-- Judging a range covers it, if judging a union meets the union. -/
theorem range_extends {union : UInt16 → State → Except Fault State} {single : Bool}
    (ho : o.Sound t) (hsingle : single = true → o.length = 1)
    (hsize : s.met.size = t.unions.size)
    (hunion : ∀ id s s', id.toNat < t.unions.size → s.met.size = t.unions.size →
      union id s = .ok s' → Extends t s s' ∧ (s'.flat = true → s'.hasMet id = true))
    (h : range t union single o s = .ok s') :
    Extends t s s' ∧ (s'.flat = true → s'.Covers o) := by
  induction o generalizing single s s' with
  | done =>
    cases single with
    | true => cases h
    | false =>
      obtain rfl := Except.ok.inj h
      exact ⟨.refl t s, fun _ => ⟨trivial, fun _ hid => False.elim hid⟩⟩
  | broken f => exact False.elim ho
  | cons node inner rest ihi ihr =>
    obtain ⟨hids, hone, hinner, hrest⟩ := ho
    simp only [range] at h
    split at h
    · cases h
    · rename_i s₁ hinside
      -- The node alone: it is flat if the judgement stays favourable, and what it
      -- stores is covered.
      have hnode : Extends t s s₁ ∧ (s₁.flat = true → node.isFlat = true ∧
          (node.storesInline = true → s₁.Covers inner) ∧ ∀ id, node = .union id →
          s₁.hasMet id = true) := by
        cases node with
        | scalar =>
          obtain rfl := Except.ok.inj hinside
          exact ⟨.refl t s,
            fun _ => ⟨rfl, fun hin => (by cases hin), fun _ hid => by cases hid⟩⟩
        | record | resource =>
          obtain ⟨hext, hcovers⟩ :=
            ihi hinner (fun hfalse => by cases hfalse) hsize hinside
          exact ⟨hext,
            fun hflat => ⟨rfl, fun _ => hcovers hflat, fun _ hid => by cases hid⟩⟩
        | union id =>
          obtain ⟨hext, hmet⟩ := hunion id s s₁ hids hsize hinside
          refine ⟨hext,
            fun hflat => ⟨rfl, fun hin => (by cases hin), fun id' hid => ?_⟩⟩
          obtain rfl := Node.union.inj hid
          exact hmet hflat
        | pointer | handle =>
          obtain rfl := Except.ok.inj hinside
          exact ⟨.spoil t s, fun hflat => by cases hflat⟩
        | run form =>
          simp only at hinside
          split at hinside
          · cases hinside
          · cases form with
            | vec | unboxedVec | slice =>
              obtain rfl := Except.ok.inj hinside
              exact ⟨.spoil t s, fun hflat => by cases hflat⟩
            | fixedVec count =>
              obtain ⟨hext, hcovers⟩ := ihi hinner (fun _ => hone rfl) hsize hinside
              exact ⟨hext,
                fun hflat => ⟨rfl, fun _ => hcovers hflat, fun _ hid => by cases hid⟩⟩
      obtain ⟨hext, hgood⟩ := hnode
      have hsize₁ : s₁.met.size = t.unions.size := hext.size_eq.trans hsize
      obtain ⟨hextRest, hcoversRest⟩ : Extends t s₁ s' ∧
          (s'.flat = true → s'.Covers rest) := by
        cases single with
        | true =>
          -- A single node is all there is.
          obtain rfl := Except.ok.inj h
          have hlength := hsingle rfl
          cases rest with
          | done =>
            exact ⟨.refl t s₁, fun _ => ⟨trivial, fun _ hid => False.elim hid⟩⟩
          | broken f => exact False.elim hrest
          | cons => simp [Outline.length] at hlength
        | false => exact ihr hrest (fun hfalse => by cases hfalse) hsize₁ h
      refine ⟨hext.trans hextRest, fun hflat => ?_⟩
      obtain ⟨hflatNode, hcoversInner, hmetNode⟩ := hgood (hextRest.flat hflat)
      have hcovers := hcoversRest hflat
      refine ⟨⟨hflatNode, fun hin => (hcoversInner hin).pointerFree,
        hcovers.pointerFree⟩, ?_⟩
      rintro id (hid | ⟨hin, hid⟩ | hid)
      · exact hextRest.met id (hmetNode id hid)
      · exact hextRest.met id ((hcoversInner hin).met id hid)
      · exact hcovers.met id hid

/-- Judging variants covers them all, if the judgement stays favourable. -/
theorem variants_extends {union : UInt16 → State → Except Fault State} {fs : List Bytes}
    (hfs : ∀ fields ∈ fs, (Outline.ofBytes fields).Sound t)
    (hsize : s.met.size = t.unions.size)
    (hunion : ∀ id s s', id.toNat < t.unions.size → s.met.size = t.unions.size →
      union id s = .ok s' → Extends t s s' ∧ (s'.flat = true → s'.hasMet id = true))
    (h : variants t union fs s = .ok s') :
    Extends t s s' ∧
      (s'.flat = true → ∀ fields ∈ fs, s'.Covers (Outline.ofBytes fields)) := by
  induction fs generalizing s with
  | nil =>
    obtain rfl := Except.ok.inj h
    exact ⟨.refl t s, by simp⟩
  | cons fields rest ih =>
    rw [List.forall_mem_cons] at hfs
    simp only [variants] at h
    split at h
    · split at h
      · cases h
      · rename_i s₁ hrange
        obtain ⟨hext, hcovers⟩ :=
          range_extends hfs.1 (fun hfalse => by cases hfalse) hsize hunion hrange
        obtain ⟨hextRest, hcoversRest⟩ := ih hfs.2 (hext.size_eq.trans hsize) h
        refine ⟨hext.trans hextRest, fun hflat => ?_⟩
        rw [List.forall_mem_cons]
        exact ⟨(hcovers (hextRest.flat hflat)).mono hextRest.met, hcoversRest hflat⟩
    · rename_i hspoilt
      obtain rfl := Except.ok.inj h
      exact ⟨.refl t s, fun hflat => absurd hflat hspoilt⟩

/-- Judging a union meets it. -/
theorem union_extends (ht : t.Sound) {depth : Nat} (hsize : s.met.size = t.unions.size)
    (hid : id.toNat < t.unions.size) (h : union t depth id s = .ok s') :
    Extends t s s' ∧ (s'.flat = true → s'.hasMet id = true) := by
  induction depth generalizing id s s' with
  | zero =>
    simp only [union, Tables.union_of_lt hid] at h
    split at h
    · rename_i hmet
      obtain rfl := Except.ok.inj h
      exact ⟨.refl t s, fun _ => hmet⟩
    · cases h
  | succ depth ih =>
    have hu := Tables.union_of_lt hid
    simp only [union, hu] at h
    split at h
    · rename_i hmet
      obtain rfl := Except.ok.inj h
      exact ⟨.refl t s, fun _ => hmet⟩
    · have hlt : id.toNat < s.met.size := by
        rw [hsize]
        exact hid
      have hsize' : (s.meet id).met.size = t.unions.size := by
        simpa [State.meet] using hsize
      have hfs : ∀ fields ∈ t.unions[id.toNat].variants.toList,
          (Outline.ofBytes fields).Sound t := by
        intro fields hf
        exact ht.variant_sound _ (Array.getElem_mem hid) fields (Array.mem_toList_iff.1 hf)
      obtain ⟨hext, hcovers⟩ := variants_extends hfs hsize'
        (fun _ _ _ hid hsize h => ih hsize hid h) h
      have hcoversAll : s'.flat = true → ∀ fields ∈ t.unions[id.toNat].variants,
          s'.Covers (Outline.ofBytes fields) :=
        fun hflat fields hf => hcovers hflat fields (Array.mem_toList_iff.2 hf)
      refine ⟨.of_meet hlt hu hext hcoversAll, fun _ => hext.met id ?_⟩
      rw [hasMet_meet hlt, beq_self_eq_true, Bool.true_or]

theorem hasMet_start (t : Tables) (id : UInt16) : (State.start t).hasMet id = false := by
  unfold State.hasMet State.start
  rw [Array.getD_eq_getD_getElem?, Array.getElem?_replicate]
  split
  · rfl
  · rfl

end Flat

/-! ## Values of flat shapes -/

/-- A spot of a flat shape: its node holds no address, and what it stores
inline is covered. -/
structure Spot.Flat (st : Flat.State) (x : Spot) : Prop where
  node : x.node.isFlat = true
  inner : x.node.storesInline = true → st.Covers x.inner
  union : ∀ id, x.node = .union id → st.hasMet id = true

theorem Flat.State.Covers.spot {st : Flat.State} {o : Outline} (h : st.Covers o) {x : Spot}
    (hx : o.Has x.node x.inner) : x.Flat st := by
  obtain ⟨hfree, hmet⟩ := h
  induction o with
  | done => exact False.elim hx
  | broken f => exact False.elim hx
  | cons node inner rest _ ih =>
    obtain ⟨hnode, hinner, hrest⟩ := hfree
    rcases hx with ⟨rfl, rfl⟩ | hx
    · refine ⟨hnode, fun hin => ⟨hinner hin, fun id hid => ?_⟩, fun id hid => ?_⟩
      · exact hmet id (.inr (.inl ⟨hin, hid⟩))
      · exact hmet id (.inl hid)
    · exact ih hx hrest fun id hid => hmet id (.inr (.inr hid))

/-- A range that is judged flat is covered, and so are the variants of every union that
the judgement met. -/
theorem Outline.covers_of_isFlat {t : Tables} (ht : t.Sound) {o : Outline} (ho : o.Sound t)
    (hflat : o.isFlat t = .ok true) : ∃ st : Flat.State, st.Covers o ∧
      ∀ id u, st.hasMet id = true → t.union id = .ok u →
        ∀ fields ∈ u.variants, st.Covers (Outline.ofBytes fields) := by
  unfold Outline.isFlat at hflat
  split at hflat
  · cases hflat
  · rename_i st hjudged
    have hgood : st.flat = true := Except.ok.inj hflat
    have hsize : (Flat.State.start t).met.size = t.unions.size := by simp [Flat.State.start]
    obtain ⟨hext, hcovers⟩ :=
      Flat.range_extends ho (fun hfalse => by cases hfalse) hsize
        (fun _ _ _ hid hsize h => Flat.union_extends ht hsize hid h) hjudged
    exact ⟨st, hcovers hgood,
      fun id u hid hu => hext.covers hgood id u hid (Flat.hasMet_start t id) hu⟩

/-- A walk over a value of a flat shape visits no node that holds an address. -/
theorem Outline.visited_isFlat {t : Tables} (ht : t.Sound) {o : Outline} (ho : o.Sound t)
    (hflat : o.isFlat t = .ok true) {m : Memory} {c : Cursor} {x : Spot}
    (hx : (Scene.mk t m).Visited o c x) : x.node.isFlat = true := by
  obtain ⟨st, hcovers, hmet⟩ := Outline.covers_of_isFlat ht ho hflat
  have hspot : x.Flat st := by
    induction hx with
    | @root xs x hxs hmem => exact hcovers.spot (Walk.has_of_spots hxs x hmem)
    | @inside x y ys _ hys hmem ih =>
      rcases Scene.has_of_inside hys
        with hin | ⟨id, u, v, fields, hid, hu, hfields, hhas⟩
      · obtain ⟨hstores, hhas⟩ := hin y hmem
        exact (ih.inner hstores).spot hhas
      · exact (hmet id u (ih.union id hid) hu fields
          (Union.mem_of_variant hfields)).spot (hhas y hmem)
  exact hspot.node

end ShapeCode
