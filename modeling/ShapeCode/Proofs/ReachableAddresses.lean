import ShapeCode.Emit
import ShapeCode.Proofs.FlatShapes

set_option autoImplicit false

/-!
# Flat is what reaches no address

Flatness is a question about a graph: whether some node that holds an address can be
reached from the root through fields, elements of fixed vectors and variants
(`Outline.Reaches`).  It is answered by a search that enters each union once and stops
looking at variants after the first address.

The two directions rest on different facts.  If the answer is favourable, the root and
the variants of every union met are covered, and what is covered reaches nothing that is
not.  If it is not, some node spoilt it, and that node was reached.
-/

namespace ShapeCode

/-! ## What can be reached -/

/-- A value of the node is an address, or is kept behind one. -/
def Node.holdsAddress : Node → Bool
  | .pointer _ _ | .handle _ => true
  | .run .vec _ _ | .run .unboxedVec _ _ | .run (.slice _) _ _ => true
  | .run (.fixedVec _) _ _ => false
  | .scalar _ | .record _ | .resource _ _ | .union _ => false

theorem Node.isFlat_eq (node : Node) : node.isFlat = !node.holdsAddress := by
  cases node with
  | run form => cases form <;> rfl
  | scalar | record | resource | union | pointer | handle => rfl

/-- The node is in the range, or is reached from it without following an address:
through the fields of records and resources, the element of fixed vectors of any count,
and the fields of any variant of a union. -/
inductive Outline.Reaches (t : Tables) : Outline → Node → Prop where
  | head {node : Node} {inner rest : Outline} : Reaches t (.cons node inner rest) node
  | inner {node reached : Node} {inner rest : Outline} (hin : node.storesInline = true)
      (h : inner.Reaches t reached) : Reaches t (.cons node inner rest) reached
  | variant {id : UInt16} {u : Union} {fields : Bytes} {reached : Node}
      {inner rest : Outline} (hu : t.union id = .ok u) (hfields : fields ∈ u.variants)
      (h : (Outline.ofBytes fields).Reaches t reached) :
      Reaches t (.cons (.union id) inner rest) reached
  | rest {node reached : Node} {inner rest : Outline} (h : rest.Reaches t reached) :
      Reaches t (.cons node inner rest) reached

/-- Some node that holds an address is reached from the range. -/
def Outline.ReachesAddress (t : Tables) (o : Outline) : Prop :=
  ∃ node, o.Reaches t node ∧ node.holdsAddress = true

namespace Flat

variable {t : Tables} {s s' : State} {o inner rest : Outline} {node : Node}

/-! ## A favourable answer -/

theorem State.Covers.of_cons_inner (h : s.Covers (.cons node inner rest))
    (hin : node.storesInline = true) : s.Covers inner :=
  ⟨h.pointerFree.2.1 hin, fun id hid => h.met id (.inr (.inl ⟨hin, hid⟩))⟩

theorem State.Covers.of_cons_rest (h : s.Covers (.cons node inner rest)) : s.Covers rest :=
  ⟨h.pointerFree.2.2, fun id hid => h.met id (.inr (.inr hid))⟩

/-- If the variants of the unions met are covered, nothing that holds an address is
reached from what is covered. -/
theorem State.Covers.not_holdsAddress
    (hmet : ∀ id u, s.hasMet id = true → t.union id = .ok u →
      ∀ fields ∈ u.variants, s.Covers (Outline.ofBytes fields))
    (hcovers : s.Covers o) (h : o.Reaches t node) : node.holdsAddress = false := by
  induction h with
  | @head node inner rest =>
    have hflat := hcovers.pointerFree.1
    rw [node.isFlat_eq] at hflat
    simpa using hflat
  | inner hin _ ih => exact ih (hcovers.of_cons_inner hin)
  | variant hu hfields _ ih => exact ih (hmet _ _ (hcovers.met _ (.inl rfl)) hu _ hfields)
  | rest _ ih => exact ih hcovers.of_cons_rest

/-! ## An unfavourable answer -/

variable {union : UInt16 → State → Except Fault State}

/-- A range that spoils the answer reaches an address, if each union that spoils it has
a variant that does. -/
theorem range_spoils {single : Bool}
    (hunion : ∀ id s s', union id s = .ok s' →
      s.flat = true → s'.flat = false → ∃ u, t.union id = .ok u ∧
      ∃ fields ∈ u.variants, (Outline.ofBytes fields).ReachesAddress t)
    (h : range t union single o s = .ok s') (hs : s.flat = true) (hs' : s'.flat = false) :
    o.ReachesAddress t := by
  induction o generalizing single s s' with
  | done =>
    cases single with
    | true => cases h
    | false =>
      obtain rfl := Except.ok.inj h
      cases hs.symm.trans hs'
  | broken f => cases h
  | cons node inner rest ihi ihr =>
    simp only [range] at h
    split at h
    · cases h
    · rename_i s₁ hinside
      cases hs₁ : s₁.flat with
      | true =>
        -- The node left the answer as it was, so what comes after it spoilt the answer.
        cases single with
        | true =>
          obtain rfl := Except.ok.inj h
          cases hs₁.symm.trans hs'
        | false =>
          obtain ⟨reached, hreached, haddress⟩ := ihr h hs₁ hs'
          exact ⟨reached, .rest hreached, haddress⟩
      | false =>
        have hcontents : node.storesInline = true → inner.ReachesAddress t →
            (Outline.cons node inner rest).ReachesAddress t := by
          rintro hin ⟨reached, hreached, haddress⟩
          exact ⟨reached, .inner hin hreached, haddress⟩
        cases node with
        | scalar =>
          obtain rfl := Except.ok.inj hinside
          cases hs.symm.trans hs₁
        | record | resource => exact hcontents rfl (ihi hinside hs hs₁)
        | pointer | handle => exact ⟨_, .head, rfl⟩
        | union id =>
          obtain ⟨u, hu, fields, hfields, reached, hreached, haddress⟩ :=
            hunion id s s₁ hinside hs hs₁
          exact ⟨reached, .variant hu hfields hreached, haddress⟩
        | run form =>
          cases form with
          | vec | unboxedVec | slice => exact ⟨_, .head, rfl⟩
          | fixedVec count =>
            simp only at hinside
            split at hinside
            · cases hinside
            · exact hcontents rfl (ihi hinside hs hs₁)

/-- Of variants that spoil the answer, one reaches an address. -/
theorem variants_spoil {fs : List Bytes}
    (hunion : ∀ id s s', union id s = .ok s' →
      s.flat = true → s'.flat = false → ∃ u, t.union id = .ok u ∧
      ∃ fields ∈ u.variants, (Outline.ofBytes fields).ReachesAddress t)
    (h : variants t union fs s = .ok s') (hs : s.flat = true) (hs' : s'.flat = false) :
    ∃ fields ∈ fs, (Outline.ofBytes fields).ReachesAddress t := by
  induction fs generalizing s with
  | nil =>
    obtain rfl := Except.ok.inj h
    cases hs.symm.trans hs'
  | cons fields rest ih =>
    simp only [variants, hs, if_true] at h
    split at h
    · cases h
    · rename_i s₁ hrange
      cases hs₁ : s₁.flat with
      | true =>
        obtain ⟨later, hlater, haddress⟩ := ih h hs₁
        exact ⟨later, .tail _ hlater, haddress⟩
      | false => exact ⟨fields, .head _, range_spoils hunion hrange hs hs₁⟩

/-- A union that spoils the answer has a variant that reaches an address. -/
theorem union_spoils {depth : Nat} {id : UInt16} (h : Flat.union t depth id s = .ok s')
    (hs : s.flat = true) (hs' : s'.flat = false) :
    ∃ u, t.union id = .ok u ∧
      ∃ fields ∈ u.variants, (Outline.ofBytes fields).ReachesAddress t := by
  induction depth generalizing id s s' with
  | zero =>
    simp only [Flat.union] at h
    split at h
    · cases h
    · split at h
      · obtain rfl := Except.ok.inj h
        cases hs.symm.trans hs'
      · cases h
  | succ depth ih =>
    simp only [Flat.union] at h
    split at h
    · cases h
    · rename_i u hu
      split at h
      · obtain rfl := Except.ok.inj h
        cases hs.symm.trans hs'
      · have hmeet : (s.meet id).flat = true := hs
        obtain ⟨fields, hfields, haddress⟩ :=
          variants_spoil (fun _ _ _ => ih) h hmeet hs'
        exact ⟨u, hu, fields, Array.mem_toList_iff.1 hfields, haddress⟩

end Flat

/-! ## Flat shapes -/

/-- A range of sound tables that is judged flat reaches no address. -/
theorem Outline.not_reachesAddress_of_isFlat {t : Tables} (ht : t.Sound) {o : Outline}
    (ho : o.Sound t) (hflat : o.isFlat t = .ok true) : ¬ o.ReachesAddress t := by
  obtain ⟨st, hcovers, hmet⟩ := Outline.covers_of_isFlat ht ho hflat
  rintro ⟨node, hnode, haddress⟩
  cases haddress.symm.trans (hcovers.not_holdsAddress hmet hnode)

/-- A range that is judged not flat reaches an address. -/
theorem Outline.reachesAddress_of_not_isFlat {t : Tables} {o : Outline}
    (hflat : o.isFlat t = .ok false) : o.ReachesAddress t := by
  unfold Outline.isFlat at hflat
  split at hflat
  · cases hflat
  · rename_i st hjudged
    exact Flat.range_spoils (fun _ _ _ => Flat.union_spoils) hjudged
      rfl (Except.ok.inj hflat)

namespace Descriptor

/-- A verified descriptor that is judged at all is judged flat if and only if no
pointer, vector, slice or handle is reached from its root through fields, elements of
fixed vectors and variants. -/
theorem flat_iff_no_address {d : Descriptor} (h : d.verify = .ok ()) {flat : Bool}
    (hflat : (Outline.ofBytes d.shape).isFlat d.tables = .ok flat) :
    flat = true ↔ ∀ node, (Outline.ofBytes d.shape).Reaches d.tables node →
      node.holdsAddress = false := by
  have hv := verified_of_verify h
  constructor
  · rintro rfl node hnode
    have hnot := Outline.not_reachesAddress_of_isFlat hv.tables.sound hv.root hflat
    exact Bool.eq_false_iff.2 fun haddress => hnot ⟨node, hnode, haddress⟩
  · intro hnone
    cases flat with
    | true => rfl
    | false =>
      obtain ⟨node, hnode, haddress⟩ := Outline.reachesAddress_of_not_isFlat hflat
      cases haddress.symm.trans (hnone node hnode)

/-- A union that is met twice, the second time as the element of a fixed vector of no
elements.  Its only address is in a variant outside its hint. -/
def tucked : Descriptor where
  shape := Kind.record.byte :: 15 :: 0 ::
    (Emit.union 0 ++
      Kind.fixedVec.byte :: 0 :: 0 :: 1 :: 3 :: 0 :: Emit.union 1 ++ Emit.union 0)
  tables := ⟨#[⟨#[Emit.union 1, Emit.scalar .u64], [1]⟩,
    ⟨#[Emit.scalar .u8, Kind.box.byte :: 3 :: 0 :: Emit.union 0], [0]⟩], #[]⟩

theorem tucked_reaches_address : tucked.verify = .ok () ∧
    (Outline.ofBytes tucked.shape).isFlat tucked.tables = .ok false ∧
    ∃ node, (Outline.ofBytes tucked.shape).Reaches tucked.tables node ∧
      node.holdsAddress = true := by
  have hok : tucked.verify = .ok () := by decide +kernel
  have hflat : (Outline.ofBytes tucked.shape).isFlat tucked.tables = .ok false := by
    decide +kernel
  refine ⟨hok, hflat, ?_⟩
  by_contra hnone
  have hall : ∀ node, (Outline.ofBytes tucked.shape).Reaches tucked.tables node →
      node.holdsAddress = false :=
    fun node hnode => Bool.eq_false_iff.2 fun haddress => hnone ⟨node, hnode, haddress⟩
  cases (flat_iff_no_address hok hflat).2 hall

end Descriptor

end ShapeCode
