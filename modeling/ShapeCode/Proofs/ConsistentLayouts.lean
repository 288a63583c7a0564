import ShapeCode.Proofs.CycleSearch
import ShapeCode.Proofs.RoomForLayouts
import ShapeCode.Proofs.WidestHints

set_option autoImplicit false

/-!
# Layouts are consistent

Elements are spaced, and the bodies of boxes placed, by the layout of a range of one
node; a cursor is moved by the layout of the node.  The range is that node appended to
nothing and padded, which changes nothing of a layout whose size is a multiple of its
alignment (`Tables.Verified.layout_single_iff`).  Every layout measured is such a layout
(`Layout.Proper`), and so whatever was appended before, the alignment that a size is
rounded up to is always one, two, four or eight.
-/

namespace ShapeCode

/-! ## One node -/

namespace Outline

variable {bs : Bytes} {node : Node} {inner rest : Outline}

theorem ofBytes_eq_done_iff : ofBytes bs = .done ↔ bs = [] := by
  refine ⟨fun h => ?_, fun h => h ▸ ofBytes_nil⟩
  by_contra hnil
  cases hread : Node.read bs with
  | error f =>
    rw [ofBytes_of_fault hnil hread] at h
    cases h
  | ok r =>
    rw [ofBytes_of_read hread] at h
    cases h

/-- The first node of an outline is read where its bytes start. -/
theorem ofBytes_eq_cons (h : ofBytes bs = .cons node inner rest) :
    ∃ tail, Node.read bs = .ok (node, tail) ∧ inner = ofBytes node.nested ∧
      rest = ofBytes tail := by
  have hnil : bs ≠ [] := by
    rintro rfl
    rw [ofBytes_nil] at h
    cases h
  cases hread : Node.read bs with
  | error f =>
    rw [ofBytes_of_fault hnil hread] at h
    cases h
  | ok r =>
    rw [ofBytes_of_read hread] at h
    cases h
    exact ⟨r.2, rfl, rfl, rfl⟩

end Outline

theorem WellFormed.outline {t : Tables} {n : Nat} {bs : Bytes} (h : WellFormed t n bs) :
    (Outline.ofBytes bs).Sound t ∧ (Outline.ofBytes bs).length = n := by
  have hrange : Verify.range t bs 0 0 = .ok n := Verify.range_eq_ok_iff.2 h
  obtain ⟨hsound, hlength⟩ := Verify.sound_of_range hrange
  exact ⟨hsound, by omega⟩

/-- A well-formed range of one node is the bytes of that node. -/
theorem WellFormed.read_single {t : Tables} {bs : Bytes} (h : WellFormed t 1 bs) :
    ∃ node, Node.read bs = .ok (node, []) ∧
      Outline.ofBytes bs = .cons node (Outline.ofBytes node.nested) .done ∧
      (Outline.ofBytes bs).Sound t := by
  obtain ⟨hsound, hlength⟩ := h.outline
  obtain ⟨node, inner, houtline⟩ := hsound.eq_single hlength
  obtain ⟨tail, hread, rfl, hrest⟩ := Outline.ofBytes_eq_cons houtline
  obtain rfl := Outline.ofBytes_eq_done_iff.1 hrest.symm
  exact ⟨node, hread, houtline, hsound⟩

/-- Behind the first node of a well-formed range, and nested in it, are
well-formed ranges. -/
theorem WellFormed.of_read {t : Tables} {n : Nat} {bs tail : Bytes} {node : Node}
    (h : WellFormed t n bs) (hread : Node.read bs = .ok (node, tail)) :
    (∃ m, WellFormed t m node.nested) ∧ ∃ m, WellFormed t m tail := by
  cases h with
  | nil => cases hread
  | @plain k operands rest m hk hoperands hid hrest =>
    have hframe :
        Verify.frame t k 0 (operands ++ rest) = .ok (.leaf (0 + k.operandSize) rest) :=
      (Verify.frame_plain_iff hk).2 ⟨operands, rest, rfl, hoperands, hid, rfl⟩
    obtain ⟨node', tail', hread', -, rfl, hnested, -⟩ :=
      Verify.readOperands_of_frame hframe
    rw [← Verify.read_of_kind (Kind.ofByte?_byte k)] at hread'
    obtain ⟨rfl, rfl⟩ := Prod.mk.inj (Except.ok.inj (hread.symm.trans hread'))
    exact ⟨⟨0, hnested ▸ .nil⟩, m, hrest⟩
  | @composite k operands length inner rest i m hk hoperands hid hlength
      hinner hnested _ hrest =>
    have hframe : Verify.frame t k 0 (operands ++ (length ++ (inner ++ rest))) =
        .ok (.nest (!k.holdsFields) (0 + k.operandSize) inner rest) :=
      (Verify.frame_composite_iff hk).2 ⟨operands, length, inner, rest, rfl, hoperands,
        hid, hlength, hinner, rfl⟩
    obtain ⟨node', tail', hread', -, rfl, rfl, -⟩ := Verify.readOperands_of_frame hframe
    rw [← Verify.read_of_kind (Kind.ofByte?_byte k)] at hread'
    obtain ⟨rfl, rfl⟩ := Prod.mk.inj (Except.ok.inj (hread.symm.trans hread'))
    exact ⟨⟨i, hnested⟩, m, hrest⟩

theorem WellFormed.union {t : Tables} {id : UInt16} (hid : id.toNat < t.unions.size) :
    WellFormed t 1 (Emit.union id) := by
  have hoperands : (Emit.u16 id).length = Kind.union.operandSize := Bytes.length_ofNat _ _
  have hin : Kind.union.IdIn t (Emit.u16 id) := by
    change (Emit.u16 id).toNat < _
    rwa [Emit.u16, Bytes.toNat_ofNat_of_lt id.toNat_lt]
  have hnode : WellFormed t 1 (Kind.union.byte :: (Emit.u16 id ++ [])) :=
    .plain rfl hoperands hin .nil
  rwa [List.append_nil] at hnode

/-- The parts of a descriptor that is accepted are read from well-formed ranges. -/
theorem Descriptor.Part.wellFormed {d : Descriptor} (h : d.verify = .ok ()) {o : Outline}
    (ho : d.Part o) :
    ∃ n bs, WellFormed d.tables n bs ∧ o = Outline.ofBytes bs := by
  obtain ⟨hroot, hvariants⟩ := wellFormed_of_verify h
  induction ho with
  | root => exact ⟨1, d.shape, hroot, rfl⟩
  | variant hu hf =>
    obtain ⟨n, hn⟩ := hvariants _ hu _ hf
    exact ⟨n, _, hn, rfl⟩
  | @union id hid =>
    exact ⟨1, Emit.union id, .union hid, (Outline.ofBytes_union id).symm⟩
  | @inner node _ _ _ ih =>
    obtain ⟨n, bs, hbs, houtline⟩ := ih
    obtain ⟨tail, hread, rfl, -⟩ := Outline.ofBytes_eq_cons houtline.symm
    obtain ⟨⟨m, hm⟩, -⟩ := hbs.of_read hread
    exact ⟨m, node.nested, hm, rfl⟩
  | rest _ ih =>
    obtain ⟨n, bs, hbs, houtline⟩ := ih
    obtain ⟨tail, hread, -, rfl⟩ := Outline.ofBytes_eq_cons houtline.symm
    obtain ⟨-, m, hm⟩ := hbs.of_read hread
    exact ⟨m, tail, hm, rfl⟩

/-! ## Layouts that are measured -/

/-- The layouts that are measured over tables: of ranges, of their nodes, of
variants behind a discriminant, of unions, and of the unions that became known while
a range was measured. -/
inductive Tables.Measurement (t : Tables) : Except Fault Layout → Prop where
  | range {n : Nat} {bs : Bytes} (h : WellFormed t n bs) : t.Measurement (Bytes.layout t bs)
  | node {n : Nat} {bs rest : Bytes} {node : Node} (h : WellFormed t n bs)
      (hread : Node.read bs = .ok (node, rest)) :
      t.Measurement (node.layout t (Outline.ofBytes node.nested))
  | variant {u : Union} {v : Nat} (hu : u ∈ t.unions) (hv : v < u.variants.size) :
      t.Measurement (t.variantLayout u v)
  | union {id : UInt16} (hid : id.toNat < t.unions.size) :
      t.Measurement (Node.layout t (.union id) .done)
  | known {n : Nat} {bs : Bytes} {l : Layout} {known : Measure.Known} {id : UInt16}
      {own : Layout} (h : WellFormed t n bs)
      (hmeasure : (Outline.ofBytes bs).measure t = .ok (l, known))
      (hid : known.lookup id = some own) : t.Measurement (.ok own)

/-- The layouts that come about while nodes are appended: of none, of a discriminant,
and of one node more. -/
inductive Tables.Appended (t : Tables) : Layout → Prop where
  | none : t.Appended .empty
  | head (u : Union) : t.Appended (Measure.unionHead u)
  | node {before own after : Layout} {n : Nat} {bs rest : Bytes} {node : Node}
      (h : t.Appended before) (hbs : WellFormed t n bs)
      (hread : Node.read bs = .ok (node, rest))
      (hown : node.layout t (Outline.ofBytes node.nested) = .ok own)
      (hafter : before.append own = .ok after) : t.Appended after

namespace Tables.Verified

variable {t : Tables} (ht : t.Verified)

include ht

theorem node_layout_good {n : Nat} {bs rest : Bytes} {node : Node} (h : WellFormed t n bs)
    (hread : Node.read bs = .ok (node, rest)) :
    Plain.Good (node.layout t (Outline.ofBytes node.nested)) := by
  have hsound := h.outline.1
  rw [Outline.ofBytes_of_read hread] at hsound
  rw [ht.node_layout_eq hsound.1 hsound.2.2.1]
  exact ht.nodeLayout_good hsound.1 hsound.2.2.1

/-- Every layout measured is proper, and what cannot be measured leaves the machine word. -/
theorem measurement_good {r : Except Fault Layout}
    (h : t.Measurement r) : Plain.Good r := by
  cases h with
  | range h => exact ht.layout_good h.outline.1
  | node h hread => exact ht.node_layout_good h hread
  | variant hu hv =>
    have hvariants := ht.sound.variant_sound _ hu
    rw [ht.variantLayout_eq hu]
    exact Plain.variant_good hv hvariants fun fields hf id hid =>
      ht.unionLayout_good ((hvariants fields hf).lt_of_stores hid)
  | union hid =>
    rw [ht.union_layout_eq hid]
    exact ht.unionLayout_good hid
  | @known n bs l known id own h hmeasure hid =>
    have hagrees := ht.measure_agrees h.outline.1
    rw [hmeasure] at hagrees
    have hown := hagrees.2 id own hid
    exact (ht.unionLayout_good (Tables.lt_of_unionLayout hown)).of_ok hown

/-- One more node leaves an alignment of shapes. -/
theorem isAlign_of_appended {l : Layout} (h : t.Appended l) : Word.IsAlign l.align := by
  induction h with
  | none => exact Layout.isAlign_empty
  | head u => exact Measure.isAlign_unionHead u
  | node _ hbs hread hown hafter ih =>
    exact Layout.append_isAlign ih
      ((ht.node_layout_good hbs hread).of_ok hown).isAlign hafter

/-- A fixed vector takes as many strides as it has elements. -/
theorem fixedVec_layout_iff {n : Nat} {bs elem rest : Bytes} {count : UInt16} {plain : Bool}
    {l : Layout} (h : WellFormed t n bs)
    (hread : Node.read bs = .ok (.run (.fixedVec count) plain elem, rest)) :
    Node.layout t (.run (.fixedVec count) plain elem) (Outline.ofBytes elem) = .ok l ↔
      ∃ s own, (Outline.ofBytes elem).spacing t = .ok s ∧
        Bytes.layout t elem = .ok own ∧ s.stride = own.size ∧
        count.toNat * s.stride < Word.limit ∧
        l = ⟨count.toNat * s.stride, own.align⟩ := by
  have hsound := h.outline.1
  rw [Outline.ofBytes_of_read hread] at hsound
  have helem : (Outline.ofBytes elem).Sound t := hsound.2.2.1
  have hplain :
      Node.layout t (.run (.fixedVec count) plain elem) (Outline.ofBytes elem) = .ok l ↔
      ∃ own, Bytes.layout t elem = .ok own ∧ own.copies count.toNat = .ok l := by
    rw [ht.node_layout_eq hsound.1 helem, Bytes.layout, ht.layout_eq helem]
    exact Plain.storageLayout_copies_eq_ok_iff
  rw [hplain]
  constructor
  · rintro ⟨own, hown, hcopies⟩
    obtain ⟨hlt, rfl⟩ := Layout.copies_eq_ok_iff.1 hcopies
    exact ⟨_, own,
      spacing_of_layout ((ht.layout_good helem).of_ok hown) hown, hown, rfl, hlt, rfl⟩
  · rintro ⟨s, own, -, hown, hstride, hlt, rfl⟩
    rw [hstride] at hlt ⊢
    exact ⟨own, hown, Layout.copies_eq_ok_iff.2 ⟨hlt, rfl⟩⟩

/-- Appending a node, and padding what was appended, can leave the machine word but do
nothing else wrong. -/
theorem append_yields {before own : Layout} {n : Nat} {bs rest : Bytes} {node : Node}
    (h : t.Appended before) (hbs : WellFormed t n bs)
    (hread : Node.read bs = .ok (node, rest))
    (hown : node.layout t (Outline.ofBytes node.nested) = .ok own) :
    Yields Fault.Overflow t.Appended (before.append own) := by
  cases happend : before.append own with
  | error f =>
    exact Layout.append_error ((ht.node_layout_good hbs hread).of_ok hown).isAlign happend
  | ok after => exact .node h hbs hread hown happend

theorem padded_yields {l : Layout} (h : t.Appended l) : Plain.Good l.padded := by
  have halign := ht.isAlign_of_appended h
  cases hpad : l.padded with
  | error f => exact Layout.padded_error halign hpad
  | ok padded => exact Layout.padded_proper halign hpad

end Tables.Verified

namespace Descriptor

/-- Of a descriptor that is accepted every layout that is measured is proper, or its
measuring overflows.  The bytes of one node have the layout of the node, a fixed vector
takes a stride for each element, and while nodes are appended the size is rounded up to
alignments of shapes only. -/
theorem layouts_consistent (d : Descriptor) (h : d.verify = .ok ()) :
    (∀ o, d.Part o → ∃ n bs, WellFormed d.tables n bs ∧ o = Outline.ofBytes bs) ∧
    (∀ r, d.tables.Measurement r → Yields Fault.Overflow Layout.Proper r) ∧
    (∀ bs, WellFormed d.tables 1 bs → ∃ node, Node.read bs = .ok (node, []) ∧ ∀ l,
      Bytes.layout d.tables bs = .ok l ↔
        node.layout d.tables (Outline.ofBytes node.nested) = .ok l ∧ l.HasRoom) ∧
    (∀ n bs rest count plain elem, WellFormed d.tables n bs →
      Node.read bs = .ok (.run (.fixedVec count) plain elem, rest) → ∀ l,
        Node.layout d.tables (.run (.fixedVec count) plain elem)
          (Outline.ofBytes elem) = .ok l ↔
          ∃ s own, (Outline.ofBytes elem).spacing d.tables = .ok s ∧
            Bytes.layout d.tables elem = .ok own ∧
            s.stride = own.size ∧ count.toNat * s.stride < Word.limit ∧
              l = ⟨count.toNat * s.stride, own.align⟩) ∧
    (∀ before, d.tables.Appended before → Word.IsAlign before.align ∧
      Yields Fault.Overflow Layout.Proper before.padded ∧
      ∀ n bs node rest own, WellFormed d.tables n bs →
        Node.read bs = .ok (node, rest) →
        node.layout d.tables (Outline.ofBytes node.nested) = .ok own →
          Yields Fault.Overflow d.tables.Appended (before.append own)) := by
  have ht := (verified_of_verify h).tables
  refine ⟨fun o ho => ho.wellFormed h, fun r hr => ht.measurement_good hr, ?_, ?_, ?_⟩
  · intro bs hbs
    obtain ⟨node, hread, houtline, hsound⟩ := hbs.read_single
    refine ⟨node, hread, fun l => ?_⟩
    rw [houtline] at hsound
    rw [Bytes.layout, houtline]
    exact ht.layout_single_iff hsound
  · intro n bs rest count plain elem hbs hread l
    exact ht.fixedVec_layout_iff hbs hread
  · intro before hbefore
    refine ⟨ht.isAlign_of_appended hbefore, ht.padded_yields hbefore, ?_⟩
    intro n bs node rest own hbs hread hown
    exact ht.append_yields hbefore hbs hread hown

/-- Three times a number and a value of a union without bytes. -/
def padded : Descriptor where
  shape := block 3 (Kind.record.byte :: 4 :: 0 :: (Emit.scalar .u32 ++ Emit.union 0))
  tables := ⟨#[⟨#[[]], [0]⟩], #[]⟩

theorem layouts_consistent_padded : padded.verify = .ok () ∧
    Bytes.layout padded.tables padded.shape = .ok ⟨24, 4⟩ ∧
    Node.layout padded.tables (.run (.fixedVec 3) true (padded.shape.drop 6))
      (Outline.ofBytes (padded.shape.drop 6)) =
      .ok ⟨24, 4⟩ ∧
    ∃ s, (Outline.ofBytes (padded.shape.drop 6)).spacing padded.tables = .ok s ∧
      24 = 3 * s.stride := by
  have hverify : padded.verify = .ok () := by decide +kernel
  have hwell : WellFormed padded.tables 1 padded.shape := (wellFormed_of_verify hverify).1
  have hlayout : Bytes.layout padded.tables padded.shape = .ok ⟨24, 4⟩ := by
    decide +kernel
  have hread :
      Node.read padded.shape = .ok (.run (.fixedVec 3) true (padded.shape.drop 6), []) := by
    decide +kernel
  obtain ⟨-, -, hsingle, hfixed, -⟩ := layouts_consistent padded hverify
  obtain ⟨node, hnode, hiff⟩ := hsingle padded.shape hwell
  obtain ⟨rfl, -⟩ := Prod.mk.inj (Except.ok.inj (hread.symm.trans hnode))
  have hown := ((hiff _).1 hlayout).1
  obtain ⟨s, own, hs, -, -, -, heq⟩ := (hfixed _ _ _ _ _ _ hwell hread _).1 hown
  exact ⟨hverify, hlayout, hown, s, hs, (Layout.mk.inj heq).1⟩

end Descriptor

end ShapeCode
