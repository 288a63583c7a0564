import Mathlib.Data.List.Nodup
import ShapeCode.Proofs.RoomForLayouts

set_option autoImplicit false

/-!
# The order in which unions are measured

Measuring a range adds to what is known of unions, newest first.  A union is added once it
was measured, so what is known lists each union once and behind the unions inside it
(`Known.Ordered`).  What one measurement does to such a list is the same for a node, a
range, the variants of a union and a union (`Collects`): it finds the unions that it comes
across, and adds nothing but these and what lies inside them.  That a union is not added
while it is measured itself follows from the order in which unions lie inside one another.

Read from the first to the last, what is known after the root was measured is the list
of events of the measurement (`Descriptor.measured_in_order`).
-/

namespace ShapeCode

/-- Some variant that the hint of union `outer` names stores a value of union
`inner` inline. -/
def Tables.HintedInside (t : Tables) (inner outer : UInt16) : Prop :=
  ∃ u v fields, t.union outer = .ok u ∧ v ∈ u.hint ∧
    u.variant v.toNat = .ok fields ∧
    (Outline.ofBytes fields).Stores inner

theorem Tables.HintedInside.inside {t : Tables} {inner outer : UInt16}
    (h : t.HintedInside inner outer) : t.Inside inner.toNat outer.toNat := by
  obtain ⟨u, v, fields, hu, -, hfields, hstores⟩ := h
  exact Tables.inside_of_stores hu hfields hstores

theorem Tables.inside_of_hintedInside {t : Tables} {inner outer : UInt16}
    (h : Relation.ReflTransGen t.HintedInside inner outer) :
    Relation.ReflTransGen t.Inside inner.toNat outer.toNat :=
  h.lift UInt16.toNat fun _ _ hin => hin.inside

namespace Measure

/-! ## Lists of what is known -/

/-- The unions that are known. -/
def Known.ids (known : Known) : List UInt16 := known.map Prod.fst

/-- Each union is listed once, and those inside its hinted variants are known before it. -/
def Known.Ordered (t : Tables) : Known → Prop
  | [] => True
  | (id, _) :: earlier =>
    id ∉ Known.ids earlier ∧ (∀ inner, t.HintedInside inner id →
      inner ∈ Known.ids earlier) ∧ Known.Ordered t earlier

variable {t : Tables} {known : Known} {id : UInt16} {l : Layout}

theorem Known.mem_ids_iff : id ∈ known.ids ↔ ∃ l, (id, l) ∈ known := by
  simp [Known.ids]

theorem Known.mem_ids_of_lookup (h : known.lookup id = some l) : id ∈ known.ids := by
  induction known with
  | nil => cases h
  | cons entry earlier ih =>
    rw [List.lookup_cons] at h
    split at h
    · rename_i heq
      rw [beq_iff_eq.1 heq]
      exact .head _
    · exact .tail _ (ih h)

theorem Known.not_mem_ids_of_lookup (h : known.lookup id = none) : id ∉ known.ids := by
  intro hmem
  obtain ⟨l, hl⟩ := Known.mem_ids_iff.1 hmem
  simpa using List.lookup_eq_none_iff.1 h (id, l) hl

theorem Known.Ordered.nodup (h : known.Ordered t) : known.ids.Nodup := by
  induction known with
  | nil => exact List.nodup_nil
  | cons entry earlier ih => exact List.nodup_cons.2 ⟨h.1, ih h.2.2⟩

/-- Of a union that is listed once, the list tells what it lists. -/
theorem Known.Ordered.lookup_of_mem (h : known.Ordered t) (hmem : (id, l) ∈ known) :
    known.lookup id = some l := by
  induction known with
  | nil => cases hmem
  | cons entry earlier ih =>
    rw [List.lookup_cons]
    rcases List.mem_cons.1 hmem with rfl | hmem
    · simp
    · have hne : id ≠ entry.1 := by
        rintro rfl
        exact h.1 (Known.mem_ids_iff.2 ⟨l, hmem⟩)
      simp only [beq_eq_false_iff_ne.2 hne]
      exact ih h.2.2 hmem

/-- What lies inside a union that is listed is listed before it. -/
theorem Known.Ordered.mem_of_append {later earlier : Known}
    (h : (later ++ (id, l) :: earlier).Ordered t) {inner : UInt16}
    (hin : t.HintedInside inner id) : inner ∈ earlier.ids := by
  induction later with
  | nil => exact h.2.1 inner hin
  | cons _ _ ih => exact ih h.2.2

/-! ## What a measurement adds -/

/-- A measurement that comes across the unions of which `met` holds makes them known,
and adds nothing else but what lies inside them. -/
structure Collects (t : Tables) (met : UInt16 → Prop) (before after : Known) : Prop where
  ordered : before.Ordered t → after.Ordered t
  kept : ∀ id ∈ before.ids, id ∈ after.ids
  found : ∀ id, met id → id ∈ after.ids
  added : ∀ id ∈ after.ids, id ∈ before.ids ∨ ∃ outer, met outer ∧
    Relation.ReflTransGen t.HintedInside id outer

variable {met met' : UInt16 → Prop} {before mid after : Known}

theorem Collects.none (h : ∀ id, ¬ met id) : Collects t met known known where
  ordered := id
  kept _ := id
  found id hid := absurd hid (h id)
  added _ := .inl

theorem Collects.congr (h : Collects t met before after)
    (hmet : ∀ id, met' id ↔ met id) : Collects t met' before after := by
  obtain rfl : met' = met := funext fun id => propext (hmet id)
  exact h

theorem Collects.andThen (h : Collects t met before mid) (h' : Collects t met' mid after) :
    Collects t (fun id => met id ∨ met' id) before after where
  ordered hbefore := h'.ordered (h.ordered hbefore)
  kept id hid := h'.kept id (h.kept id hid)
  found id hid := hid.elim (fun hmet => h'.kept id (h.found id hmet)) (h'.found id)
  added id hid := by
    rcases h'.added id hid with hmid | ⟨outer, hmet, hin⟩
    · rcases h.added id hmid with hbefore | ⟨outer, hmet, hin⟩
      · exact .inl hbefore
      · exact .inr ⟨outer, .inl hmet, hin⟩
    · exact .inr ⟨outer, .inr hmet, hin⟩

/-! ## Nodes, ranges and variants -/

section Ranges

variable {union : UInt16 → Measured Layout} {known' : Known}

theorem storageLayout_copies_eq_ok_iff {nested : Measured Layout} {count : Nat} :
    storageLayout union nested (.copies count) known = .ok (l, known') ↔
      ∃ elem, nested known = .ok (elem, known') ∧ elem.copies count = .ok l := by
  simp only [storageLayout]
  cases nested known with
  | error f => simp
  | ok r => cases hl : r.1.copies count <;> simp [hl, Prod.ext_iff, and_assoc, and_comm]

theorem range_cons_eq_ok_iff {before : Layout} {node : Node} {inner rest : Outline} :
    range union (.cons node inner rest) before known = .ok (l, known') ↔
      ∃ own mid sofar, storageLayout union (range union inner .empty) node.storage
        known = .ok (own, mid) ∧
        before.append own = .ok sofar ∧ range union rest sofar mid = .ok (l, known') := by
  simp only [range]
  cases storageLayout union (range union inner .empty) node.storage known with
  | error f => simp
  | ok r => cases hsofar : before.append r.1 <;> simp [hsofar, Prod.ext_iff, and_assoc]

theorem variants_cons_eq_ok_iff {u : Union} {head before : Layout} {v : UInt16}
    {rest : List UInt16} :
    variants union u head (v :: rest) before known = .ok (l, known') ↔
      ∃ fields own mid, u.variant v.toNat = .ok fields ∧
        range union (Outline.ofBytes fields) head known = .ok (own, mid) ∧
        variants union u head rest ⟨max before.size own.size,
          max before.align own.align⟩ mid = .ok (l, known') := by
  simp only [variants]
  cases u.variant v.toNat with
  | error f => simp
  | ok fields =>
    cases hr : range union (Outline.ofBytes fields) head known
      <;> simp [hr, Prod.ext_iff, and_assoc]

theorem storageLayout_collects {node : Node} {inner : Outline}
    (h : storageLayout union (range union inner .empty) node.storage known =
      .ok (l, known'))
    (hunion : ∀ id, node = .union id →
      ∀ l known', union id known = .ok (l, known') → Collects t (· = id) known known')
    (hinner : node.storesInline = true → ∀ l known', range union inner .empty known =
      .ok (l, known') → Collects t inner.Stores known known') :
    Collects t (fun id => node = .union id ∨
        (node.storesInline = true ∧ inner.Stores id)) known known' := by
  cases node with
  | scalar | pointer | handle =>
    obtain ⟨-, rfl⟩ := Prod.mk.inj (Except.ok.inj h)
    exact .none (by simp [Node.storesInline])
  | record | resource => exact (hinner rfl l known' h).congr (by simp [Node.storesInline])
  | union id =>
    exact (hunion id rfl l known' h).congr (by simp [Node.storesInline, eq_comm])
  | run form =>
    cases form with
    | fixedVec count =>
      obtain ⟨elem, helem, -⟩ := storageLayout_copies_eq_ok_iff.1 h
      exact (hinner rfl elem _ helem).congr (by simp [Node.storesInline])
    | vec | unboxedVec | slice =>
      obtain ⟨-, rfl⟩ := Prod.mk.inj (Except.ok.inj h)
      exact .none (by simp [Node.storesInline])

/-- Measuring a range comes across the unions stored inline in it. -/
theorem range_collects {o : Outline} {head : Layout}
    (h : range union o head known = .ok (l, known'))
    (hunion : ∀ id, o.Stores id → ∀ known l known', union id known =
      .ok (l, known') → Collects t (· = id) known known') :
    Collects t o.Stores known known' := by
  induction o generalizing head known l known' with
  | done =>
    simp only [range] at h
    split at h
    · cases h
    · obtain ⟨-, rfl⟩ := Prod.mk.inj (Except.ok.inj h)
      exact .none fun _ hid => hid
  | broken f => cases h
  | cons node inner rest ihi ihr =>
    obtain ⟨own, mid, sofar, hown, -, hafter⟩ := range_cons_eq_ok_iff.1 h
    have hnode :=
      storageLayout_collects (t := t) hown
        (fun id hid l known' => hunion id (.inl hid) known l known')
        fun hin l known' hl => ihi hl fun id hid => hunion id (.inr (.inl ⟨hin, hid⟩))
    have hrest := ihr hafter fun id hid => hunion id (.inr (.inr hid))
    exact (hnode.andThen hrest).congr fun id => or_assoc.symm

/-- Measuring variants comes across the unions stored inline in them. -/
theorem variants_collects {u : Union} {head widest : Layout} {vs : List UInt16}
    (h : variants union u head vs widest known = .ok (l, known'))
    (hunion : ∀ v ∈ vs, ∀ fields, u.variant v.toNat = .ok fields →
      ∀ id, (Outline.ofBytes fields).Stores id → ∀ known l known', union id known =
      .ok (l, known') → Collects t (· = id) known known') :
    Collects t (fun id => ∃ v ∈ vs, ∃ fields, u.variant v.toNat = .ok fields ∧
        (Outline.ofBytes fields).Stores id)
      known known' := by
  induction vs generalizing widest known with
  | nil =>
    obtain ⟨-, rfl⟩ := Prod.mk.inj (Except.ok.inj h)
    exact .none (by simp)
  | cons v rest ih =>
    rw [List.forall_mem_cons] at hunion
    obtain ⟨fields, lv, mid, hfields, hlv, hafter⟩ := variants_cons_eq_ok_iff.1 h
    have hvariant := range_collects (t := t) hlv (hunion.1 fields hfields)
    have hrest := ih hafter hunion.2
    refine (hvariant.andThen hrest).congr fun id => ?_
    simp only [List.mem_cons, exists_eq_or_imp, hfields, Except.ok.injEq, exists_eq_left']

end Ranges

/-! ## Unions -/

/-- A union that has been measured is looked up; any other becomes known once its
variants were measured. -/
theorem union_eq_ok {depth : Nat} {path : List UInt16} {known' : Known}
    (h : union t depth path id known = .ok (l, known')) :
    (known.lookup id = some l ∧ known' = known) ∨
      (known.lookup id = none ∧
        ∃ below u widest mid, depth = below + 1 ∧ t.union id = .ok u ∧
        variants (union t below (id :: path)) u (unionHead u) u.hint .empty known =
          .ok (widest, mid) ∧
        unionLayout u widest = .ok l ∧ known' = (id, l) :: mid) := by
  unfold union at h
  split at h
  · cases h
  · rename_i u hu
    split at h
    · rename_i hlookup
      obtain ⟨rfl, rfl⟩ := Prod.mk.inj (Except.ok.inj h)
      exact .inl ⟨hlookup, rfl⟩
    · rename_i hlookup
      split at h
      · cases h
      · split at h
        · cases h
        · rename_i below
          split at h
          · cases h
          · rename_i widest mid hvariants
            split at h
            · cases h
            · rename_i hl
              obtain ⟨rfl, rfl⟩ := Prod.mk.inj (Except.ok.inj h)
              exact .inr ⟨hlookup, below, u, widest, mid, rfl, hu, hvariants, hl, rfl⟩

/-- Measuring a union makes it known, behind what lies inside it. -/
theorem union_collects (ht : t.Verified) {depth : Nat} {path : List UInt16} {known' : Known}
    (h : union t depth path id known = .ok (l, known')) :
    Collects t (· = id) known known' := by
  induction depth using Nat.strong_induction_on generalizing path id known l known' with
  | _ depth ih =>
    rcases union_eq_ok h with ⟨hlookup, rfl⟩
      | ⟨hlookup, below, u, widest, mid, rfl, hu, hvariants, -, rfl⟩
    · exact ⟨fun h => h, fun _ h => h,
        fun _ heq => heq ▸ Known.mem_ids_of_lookup hlookup, fun _ => .inl⟩
    · have hinside : Collects t (t.HintedInside · id) known mid := by
        refine (variants_collects hvariants fun _ _ _ _ _ _ _ _ _ =>
          ih below (Nat.lt_succ_self below)).congr ?_
        intro inner
        constructor
        · rintro ⟨u', v, fields, hu', hv, hfields, hstores⟩
          obtain rfl := Except.ok.inj (hu.symm.trans hu')
          exact ⟨v, hv, fields, hfields, hstores⟩
        · rintro ⟨v, hv, fields, hfields, hstores⟩
          exact ⟨u, v, fields, hu, hv, hfields, hstores⟩
      -- The union is not among what its variants made known, or it would lie inside itself.
      have hnew : id ∉ Known.ids mid := by
        intro hmem
        rcases hinside.added id hmem with hbefore | ⟨outer, hin, hreach⟩
        · exact Known.not_mem_ids_of_lookup hlookup hbefore
        · exact ht.not_inside_self id.toNat
            (.tail' (Tables.inside_of_hintedInside hreach) hin.inside)
      constructor
      · intro hordered
        exact ⟨hnew, hinside.found, hinside.ordered hordered⟩
      · intro other hother
        exact .tail _ (hinside.kept other hother)
      · rintro _ rfl
        exact .head _
      · intro other hother
        rcases List.mem_cons.1 hother with rfl | hmid
        · exact .inr ⟨other, rfl, .refl⟩
        · rcases hinside.added other hmid with hbefore | ⟨outer, hin, hreach⟩
          · exact .inl hbefore
          · exact .inr ⟨id, rfl, hreach.tail hin⟩

end Measure

/-! ## Unions in the rows of a range -/

namespace Outline

variable {t : Tables} {o row : Outline} {before : Layout} {id : UInt16}

theorem exists_has_of_stores (h : o.Stores id) :
    ∃ node inner, o.Has node inner ∧
      (node = .union id ∨ (node.storesInline = true ∧ inner.Stores id)) := by
  induction o with
  | done | broken => exact False.elim h
  | cons node inner rest _ ih =>
    rcases h with rfl | hin | hrest
    · exact ⟨_, inner, .inl ⟨rfl, rfl⟩, .inl rfl⟩
    · exact ⟨node, inner, .inl ⟨rfl, rfl⟩, .inr hin⟩
    · obtain ⟨node', inner', hnode, hid⟩ := ih hrest
      exact ⟨node', inner', .inr hnode, hid⟩

/-- What is stored inline in a row stands in a row. -/
theorem LaysOut.laysUnion (hrow : o.LaysOut t before row) (h : row.Stores id) :
    o.LaysUnion t id := by
  induction hsize : sizeOf row using Nat.strong_induction_on generalizing before row with
  | _ _ ih =>
    subst hsize
    obtain ⟨node, inner, hnode, rfl | ⟨hin, hstores⟩⟩ := exists_has_of_stores h
    · exact ⟨before, row, inner, hrow, hnode⟩
    · exact ih _ hnode.sizeOf_lt (hrow.nested hnode hin) hstores rfl

/-- What lies inside a union that stands in a row stands in a row. -/
theorem LaysUnion.inside {inner outer : UInt16} (h : o.LaysUnion t outer)
    (hin : t.HintedInside inner outer) : o.LaysUnion t inner := by
  obtain ⟨before, row, nested, hrow, hnode⟩ := h
  obtain ⟨u, v, fields, hu, hv, hfields, hstores⟩ := hin
  exact (hrow.variant hnode hu hv hfields).laysUnion hstores

theorem LaysUnion.inside_trans {inner outer : UInt16} (h : o.LaysUnion t outer)
    (hin : Relation.ReflTransGen t.HintedInside inner outer) : o.LaysUnion t inner := by
  induction hin using Relation.ReflTransGen.head_induction_on with
  | refl => exact h
  | head hstep _ ih => exact ih.inside hstep

/-- A list that is closed under what lies inside its unions has all unions of the rows,
if it has those of the range. -/
theorem LaysUnion.mem_of_closed {p : UInt16 → Prop}
    (hstored : ∀ id, o.Stores id → p id)
    (hclosed : ∀ inner outer, t.HintedInside inner outer → p outer → p inner)
    (h : o.LaysUnion t id) : p id := by
  have hrows : ∀ before row, o.LaysOut t before row →
      ∀ id, row.Stores id → p id := by
    intro before row hrow
    induction hrow with
    | whole => exact hstored
    | nested _ hnode hin ih =>
      exact fun id hid => ih id (hnode.stores (.inr ⟨hin, hid⟩))
    | variant _ hnode hu hv hfields ih =>
      exact fun id hid =>
        hclosed id _ ⟨_, _, _, hu, hv, hfields, hid⟩ (ih _ (hnode.stores (.inl rfl)))
  obtain ⟨before, row, inner, hrow, hnode⟩ := h
  exact hrows before row hrow id (hnode.stores (.inl rfl))

end Outline

/-! ## A union by itself -/

namespace Tables.Verified

variable {t : Tables} (ht : t.Verified) {id : UInt16} {l : Layout}

include ht

/-- A union with room behind it has its own layout as the only field of a range. -/
theorem layout_union_alone (hl : t.unionLayout id = .ok l) (hroom : l.HasRoom) :
    (Outline.ofBytes (Emit.union id)).layout t = .ok l := by
  have hid := Tables.lt_of_unionLayout hl
  have hsound : (Outline.cons (.union id) .done .done).Sound t :=
    ⟨hid, by simp [Node.holdsOne], trivial, trivial⟩
  rw [Outline.ofBytes_union]
  exact (ht.layout_single_iff hsound).2 ⟨(ht.union_layout_eq hid).trans hl, hroom⟩

end Tables.Verified

namespace Descriptor

variable {d : Descriptor}

/-- What is known after a part was measured. -/
theorem Verified.measure_collects (h : d.Verified) {o : Outline} {l : Layout}
    {known : Measure.Known} (hm : o.measure d.tables = .ok (l, known)) :
    Measure.Collects d.tables o.Stores [] known :=
  Measure.range_collects hm fun _ _ _ _ _ => Measure.union_collects h.tables

/-- The unions known after the root was measured are those that stand in the rows
laid out for it. -/
theorem Verified.mem_ids_iff (h : d.Verified) {l : Layout} {known : Measure.Known}
    (hm : d.outline.measure d.tables = .ok (l, known)) (id : UInt16) :
    id ∈ known.ids ↔ d.outline.LaysUnion d.tables id := by
  have hcollects := h.measure_collects hm
  constructor
  · intro hid
    rcases hcollects.added id hid with hnil | ⟨outer, hstores, hin⟩
    · cases hnil
    · exact (Outline.LaysOut.whole.laysUnion hstores).inside_trans hin
  · refine Outline.LaysUnion.mem_of_closed hcollects.found fun inner outer hin houter => ?_
    obtain ⟨own, hown⟩ := Measure.Known.mem_ids_iff.1 houter
    obtain ⟨later, earlier, rfl⟩ := List.append_of_mem hown
    have hinner := (hcollects.ordered trivial).mem_of_append hin
    obtain ⟨l', hl'⟩ := Measure.Known.mem_ids_iff.1 hinner
    exact Measure.Known.mem_ids_iff.2 ⟨l', List.mem_append_right _ (.tail _ hl')⟩

/-- A union that stands in a row of a measured root has room behind it. -/
theorem Verified.hasRoom_of_laysUnion (h : d.Verified) {l own : Layout} {id : UInt16}
    (hl : d.tables.rangeLayout d.outline .empty = .ok l)
    (hid : d.outline.LaysUnion d.tables id)
    (hown : d.tables.unionLayout id = .ok own) : own.HasRoom := by
  obtain ⟨before, row, inner, hrow, hnode⟩ := hid
  obtain ⟨hsound, hbefore⟩ := hrow.sound h.tables.sound h.root
  obtain ⟨lrow, hlrow⟩ := hrow.rangeLayout h.tables hl
  have hroom :=
    Unbounded.hasRoom_of_has hnode (h.tables.hasRoom_of_rangeLayout hsound hbefore hlrow)
  obtain rfl := Unbounded.unionAt_eq hown
  exact hroom

/-- Measuring the root of a verified descriptor makes an event of each union once: of
those that stand in the rows that are laid out for the root, and no others.  The event
of a union comes behind the events of all unions inside its hinted variants, and says
what measuring the union by itself gives, as a node and as a range. -/
theorem measured_in_order (h : d.verify = .ok ()) {l : Layout}
    (hl : d.outline.layout d.tables = .ok l) :
    ∃ known, d.outline.measure d.tables = .ok (l, known) ∧
      (known.reverse.map Prod.fst).Nodup ∧
      (∀ id, id ∈ known.reverse.map Prod.fst ↔ d.outline.LaysUnion d.tables id) ∧
      (∀ earlier id own later, known.reverse = earlier ++ (id, own) :: later →
        ∀ inner, d.tables.HintedInside inner id → inner ∈ earlier.map Prod.fst) ∧
      ∀ id own, (id, own) ∈ known.reverse →
        (Node.union id).layout d.tables .done = .ok own ∧
        Bytes.layout d.tables (Emit.union id) = .ok own := by
  have hv := verified_of_verify h
  have hplain : d.tables.rangeLayout d.outline .empty = .ok l :=
    (hv.tables.layout_eq hv.root).symm.trans hl
  obtain ⟨known, hm, hknown⟩ :
      ∃ known, d.outline.measure d.tables = .ok (l, known) ∧ known.Sound d.tables := by
    rcases (hv.tables.measure_agrees hv.root).cases
      with ⟨f, -, hf⟩ | ⟨l', known, hm, hp, hknown⟩
    · cases hplain.symm.trans hf
    · obtain rfl := Except.ok.inj (hplain.symm.trans hp)
      exact ⟨known, hm, hknown⟩
  have hordered : known.Ordered d.tables := (hv.measure_collects hm).ordered trivial
  have hids (id : UInt16) : id ∈ known.reverse.map Prod.fst ↔ id ∈ known.ids := by
    simp [Measure.Known.ids]
  refine ⟨known, hm, ?_, fun id => (hids id).trans (hv.mem_ids_iff hm id), ?_, ?_⟩
  · rw [List.map_reverse, List.nodup_reverse]
    exact hordered.nodup
  · intro earlier id own later hsplit inner hin
    obtain rfl : known = later.reverse ++ (id, own) :: earlier.reverse := by
      rw [← List.reverse_reverse known, hsplit]
      simp
    simpa [Measure.Known.ids] using hordered.mem_of_append hin
  · intro id own hmem
    rw [List.mem_reverse] at hmem
    have hown : d.tables.unionLayout id = .ok own :=
      hknown id own (hordered.lookup_of_mem hmem)
    have hlaid := (hv.mem_ids_iff hm id).1 (Measure.Known.mem_ids_iff.2 ⟨own, hmem⟩)
    constructor
    · have hnode : (Node.union id).IdsIn d.tables := Tables.lt_of_unionLayout hown
      have hdone : Outline.done.Sound d.tables := trivial
      exact (hv.tables.node_layout_eq hnode hdone).trans hown
    · exact hv.tables.layout_union_alone hown (hv.hasRoom_of_laysUnion hplain hlaid hown)

/-- The union that the other one stores is measured first, though it is met
again behind it. -/
theorem measured_in_order_sharing :
    ∃ events, sharing.outline.measure sharing.tables = .ok (⟨48, 8⟩, events) ∧
    events.reverse = [(0, ⟨16, 8⟩), (1, ⟨24, 8⟩)] ∧
    (events.reverse.map Prod.fst).Nodup ∧
    sharing.outline.LaysUnion sharing.tables 0 := by
  have hverify : sharing.verify = .ok () := by decide +kernel
  have hl : sharing.outline.layout sharing.tables = .ok ⟨48, 8⟩ := by decide +kernel
  obtain ⟨events, hm, hnodup, hids, -, -⟩ := measured_in_order hverify hl
  have hevents : sharing.outline.measure sharing.tables =
      .ok (⟨48, 8⟩, [(1, ⟨24, 8⟩), (0, ⟨16, 8⟩)]) := by
    decide +kernel
  obtain rfl : events = [(1, ⟨24, 8⟩), (0, ⟨16, 8⟩)] :=
    (Prod.mk.inj (Except.ok.inj (hm.symm.trans hevents))).2
  exact ⟨_, hm, rfl, hnodup, (hids 0).1 (by decide)⟩

end Descriptor

end ShapeCode
