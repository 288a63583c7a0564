import ShapeCode.Proofs.Containment
import ShapeCode.Proofs.RunElements

set_option autoImplicit false

/-!
# Slots: where parts of a value stand, wherever the value does

A walk rounds addresses, so where it finds a part of a value is a matter of the address
of the value.  For a value that may stand where it does (`Layout.Stands`) it is a matter
of nothing else: a slot is a part together with the function that takes an address of
the value to the address of the part (`Slot`), a range has the same slots in whatever
lanes it is walked (`range_slots`), and so has the inside of a spot, whichever memory is
read, as long as the same variant is selected (`inside_slots`).

Every byte of a part is a byte of the value at an offset that no address changes
(`Slot.PartOf`).  A part of no size has none.  It is rounded up from wherever it comes
to stand, and its offset changes with the address.
-/

namespace ShapeCode

/-- A value of the layout may stand at the address: it ends before the last sixteen
bytes of memory, and is aligned if it takes space. -/
structure Layout.Stands (l : Layout) (a : Nat) : Prop where
  room : a + l.size + 16 ≤ Word.limit
  dvd : l.size ≠ 0 → l.align ∣ a

/-- A byte of an element is one of all the elements, which stand one after another. -/
theorem Layout.element_byte {elem : Layout} {count i k : Nat} (hi : i < count)
    (hk : k < elem.size) :
    i * elem.size + k < count * elem.size :=
  calc i * elem.size + k < (i + 1) * elem.size := by
        rw [Nat.succ_mul]
        exact Nat.add_lt_add_left hk _
    _ ≤ count * elem.size := Nat.mul_le_mul_right _ hi

/-- Where elements one after another may stand, each may stand. -/
theorem Layout.Stands.element {elem : Layout} {count i a : Nat}
    (h : Stands ⟨count * elem.size, elem.align⟩ a) (hproper : elem.Proper)
    (hi : i < count) : elem.Stands (a + i * elem.size) := by
  have hroom : a + count * elem.size + 16 ≤ Word.limit := h.room
  have hle : (i + 1) * elem.size ≤ count * elem.size := Nat.mul_le_mul_right _ hi
  rw [Nat.succ_mul] at hle
  refine ⟨by omega,
    fun _ => Nat.dvd_add (h.dvd ?_) (Nat.dvd_mul_left_of_dvd hproper.dvd i)⟩
  simp only
  omega

/-- A part of a value: what stands there, and where, by the address of the value. -/
structure Slot where
  node : Node
  inner : Outline
  layout : Layout
  place : Nat → Nat

namespace Slot

/-- The slot in a value with the given lanes. -/
def spot (s : Slot) (c : Cursor) : Spot := ⟨s.node, s.inner, c.map s.place, s.layout⟩

/-- The slot of a part, in what the part is in. -/
def after (s : Slot) (f : Nat → Nat) : Slot := { s with place := s.place ∘ f }

theorem spot_after (s : Slot) (f : Nat → Nat) (c : Cursor) :
    (s.after f).spot c = s.spot (c.map f) := by
  simp [spot, after]

/-- The slot is one of a value of layout `l`. -/
structure PartOf (t : Tables) (l : Layout) (s : Slot) : Prop where
  ids : s.node.IdsIn t
  single : s.node.holdsOne = true → s.inner.length = 1
  inner : s.inner.Sound t
  layout : t.nodeLayout s.node s.inner = .ok s.layout
  stands : ∀ a, l.Stands a → s.layout.Stands (s.place a)
  bytes : ∀ i < s.layout.size, ∃ j < l.size, ∀ a, l.Stands a → s.place a + i = a + j

/-- What is part of a part is part of the whole. -/
theorem PartOf.after {t : Tables} {l part : Layout} {s : Slot} {f : Nat → Nat}
    (h : s.PartOf t part) (hstands : ∀ a, l.Stands a → part.Stands (f a))
    (hbytes : ∀ i < part.size, ∃ j < l.size, ∀ a, l.Stands a → f a + i = a + j) :
    (s.after f).PartOf t l where
  ids := h.ids
  single := h.single
  inner := h.inner
  layout := h.layout
  stands a ha := h.stands (f a) (hstands a ha)
  bytes := by
    intro i hi
    obtain ⟨k, hk, hinner⟩ := h.bytes i hi
    obtain ⟨j, hj, houter⟩ := hbytes k hk
    refine ⟨j, hj, fun a ha => ?_⟩
    exact (hinner (f a) (hstands a ha)).trans (houter a ha)

end Slot

/-- The value at the spot may stand where it does, in every lane. -/
structure Spot.Stands (t : Tables) (x : Spot) : Prop where
  sound : x.Sound t
  layout : t.nodeLayout x.node x.inner = .ok x.layout
  lane : x.cursor ≠ []
  lanes : ∀ a ∈ x.cursor, x.layout.Stands a

theorem Slot.PartOf.spot {t : Tables} {l : Layout} {s : Slot} (h : s.PartOf t l)
    {c : Cursor} (hc : c ≠ []) (hlanes : ∀ a ∈ c, l.Stands a) :
    (s.spot c).Stands t where
  sound := ⟨h.ids, h.single, h.inner⟩
  layout := h.layout
  lane := by simpa [Slot.spot] using hc
  lanes := by
    intro b hb
    obtain ⟨a, ha, rfl⟩ := List.mem_map.1 hb
    exact h.stands a (hlanes a ha)

/-! ## Lanes -/

/-- The last sixteen bytes of memory start at a multiple of every alignment. -/
theorem Word.roundUp_room {n align : Nat} (h : IsAlign align) (hn : n + 16 ≤ limit) :
    roundUp n align + 16 ≤ limit := by
  unfold roundUp limit at *
  rcases h with rfl | rfl | rfl | rfl <;> omega

/-- Moving forward does not wrap around where there is room. -/
theorem Cursor.advance_map {c : Cursor} {f : Nat → Nat} {n : Nat}
    (h : ∀ a ∈ c, f a + n < Word.limit) :
    advance (c.map f) n = c.map fun a => f a + n := by
  unfold advance
  rw [List.map_map]
  apply List.map_congr_left
  intro a ha
  exact Word.wrap_of_lt (h a ha)

namespace Walk

variable {t : Tables}

/-- Lanes are placed one by one. -/
theorem place_lanes {aligned : Bool} {align : Nat} {c : Cursor} {f g : Nat → Nat}
    (h : ∀ a ∈ c, place aligned align [f a] = .ok [g a]) :
    place aligned align (c.map f) = .ok (c.map g) := by
  cases aligned with
  | false =>
    refine congrArg Except.ok (List.map_congr_left fun a ha => ?_)
    exact List.singleton_inj.1 (Except.ok.inj (h a ha))
  | true =>
    simp only [place, if_true, Cursor.alignUp] at h ⊢
    rw [List.mapM_map]
    refine mapM_eq_ok_of_forall fun a ha => ?_
    obtain ⟨b, bs, hb, hbs, heq⟩ := mapM_cons_eq_ok_iff.1 (h a ha)
    obtain rfl := Except.ok.inj hbs
    obtain rfl := List.singleton_inj.1 heq
    exact hb

theorem elementSpots_of_forall {inner : Outline} {cs : List Cursor}
    {f : Cursor → List Spot} (h : ∀ c ∈ cs, spots t true inner c false = .ok (f c)) :
    elementSpots t inner cs = .ok (cs.flatMap f) := by
  induction cs with
  | nil => rfl
  | cons c rest ih =>
    rw [List.forall_mem_cons] at h
    simp only [elementSpots, h.1, ih h.2, List.flatMap_cons]

end Walk

/-- The elements of a fixed vector follow one another in every lane, as
many as it counts. -/
theorem Span.elements_fixedVec {span : Span} {c : Cursor} {count : Nat} (hc : c ≠ [])
    (hstart : span.start = c) (hstop : span.stop = c.map (· + count * span.stride))
    (hpos : 0 < span.stride) (hlimit : ∀ a ∈ c, a + count * span.stride < Word.limit) :
    span.elements = (List.range count).map fun i => c.map (· + i * span.stride) := by
  have hmemory : span.InMemory := by
    refine ⟨by rw [hstart, hstop, List.length_map], ?_⟩
    rw [hstop, List.forall_mem_map]
    exact hlimit
  have hdistance : span.start.distance span.stop = c.map fun _ => count * span.stride := by
    simp only [hstart, hstop, Cursor.distance, List.zipWith_map_right, List.zipWith_self,
      Nat.add_sub_cancel_left]
  have hcount : span.count = count := by
    apply Span.count_eq_of_forall
    · simpa [hdistance] using hc
    · rw [hdistance, List.forall_mem_map]
      exact fun _ _ => Nat.mul_div_cancel count hpos
  rw [hmemory.elements_eq, hcount, ← hstart]
  rfl

/-! ## Ranges -/

namespace Tables.Verified

variable {t : Tables} (ht : t.Verified)

include ht

/-- The slots of a range of no size, which is rounded up from wherever it stands. -/
theorem void_slots {o : Outline} {before l : Layout} {aligned : Bool} (ho : o.Sound t)
    (hbefore : Word.IsAlign before.align) (hl : t.rangeLayout o before = .ok l)
    (hsize : l.size = 0) :
    ∃ slots : List Slot, (∀ s ∈ slots, s.PartOf t l) ∧
      ∀ c : Cursor, (∀ a ∈ c, a + 16 ≤ Word.limit) →
      Walk.spots t false o c aligned = .ok (slots.map fun s => s.spot c) := by
  induction o generalizing before aligned with
  | done => exact ⟨[], by simp, fun _ _ => rfl⟩
  | broken f => exact False.elim ho
  | cons node inner rest _ ih =>
    obtain ⟨hids, hsingle, hinner, hrest⟩ := ho
    obtain ⟨own, sofar, hown, hsofar, hl⟩ := rangeLayout_cons_eq_ok hl
    have halign := (ht.nodeLayout_proper hids hinner hown).isAlign
    have halign' := Layout.append_isAlign hbefore halign hsofar
    have hle := ht.le_rangeLayout hrest halign' hl
    obtain ⟨-, -, rfl⟩ := (Layout.append_eq_ok_iff halign).1 hsofar
    simp only at hle
    have hsmall := halign.le
    have hzero : own.size = 0 := by omega
    let g : Nat → Nat := fun a => if aligned then Word.roundUp a own.align else a
    have hroom : ∀ a, a + 16 ≤ Word.limit → g a + 16 ≤ Word.limit := by
      intro a ha
      cases aligned with
      | true => exact Word.roundUp_room halign ha
      | false => exact ha
    have hplace : ∀ a, a + 16 ≤ Word.limit →
        Walk.place aligned own.align [a] = .ok [g a] := by
      intro a ha
      cases aligned with
      | true =>
        exact Walk.place_aligned
          (Word.alignUp_eq_ok_iff.2 ⟨halign.isPowerOfTwo, by omega, rfl⟩)
      | false => rfl
    have hstands : ∀ a, l.Stands a → l.Stands (g a) := by
      intro a ha
      have := hroom a (by have := ha.room; omega)
      exact ⟨by omega, fun hne => absurd hsize hne⟩
    have htail : ∃ slots : List Slot, (∀ s ∈ slots, s.PartOf t l) ∧
        ∀ c : Cursor, (∀ a ∈ c, a + 16 ≤ Word.limit) →
        Walk.spots t false rest c true = .ok (slots.map fun s => s.spot c) :=
          ih hrest halign' hl
    obtain ⟨slots, hparts, hspots⟩ := htail
    refine ⟨⟨node, inner, own, g⟩ :: slots.map fun s =>
      s.after g, ?_, fun c hc => ?_⟩
    · rw [List.forall_mem_cons]
      constructor
      · refine ⟨hids, hsingle, hinner, hown,
          fun a ha => ⟨?_, fun hne => absurd hzero hne⟩, fun i hi => ?_⟩
        · have := (hstands a ha).room
          simp only
          omega
        · simp only at hi
          omega
      · intro s hs
        obtain ⟨s', hs', rfl⟩ := List.mem_map.1 hs
        exact (hparts s' hs').after hstands fun i hi => by omega
    · have hfirst : Walk.place aligned own.align (c.map id) = .ok (c.map g) :=
        Walk.place_lanes fun a ha => hplace a (hc a ha)
      rw [List.map_id] at hfirst
      have hnext : Cursor.advance (c.map g) own.size = c.map g := by
        rw [hzero, Cursor.advance_map fun a ha => by have := hroom a (hc a ha); omega]
        rfl
      have hlater := hspots (c.map g) (List.forall_mem_map.2 fun a ha => hroom a (hc a ha))
      simp only [Walk.spots, ht.node_layout_eq hids hinner, hown, hfirst,
        hnext, hlater, Bool.false_eq_true, if_false, List.map_cons, List.map_map,
        Function.comp_def, Slot.spot_after]
      rfl

/-- The slots of a range that takes space, at the offsets where measuring finds them. -/
theorem sized_slots {o : Outline} {before l : Layout} {aligned : Bool} (ho : o.Sound t)
    (hbefore : Word.IsAlign before.align) (hl : t.rangeLayout o before = .ok l)
    (hsize : l.size ≠ 0) (haligned : aligned = true ∨ before.size = 0) :
    ∃ slots : List Slot, (∀ s ∈ slots, s.PartOf t l) ∧
      ∀ c : Cursor, (∀ a ∈ c, l.Stands a) →
      Walk.spots t false o (c.map (· + before.size)) aligned =
        .ok (slots.map fun s => s.spot c) := by
  induction o generalizing before aligned with
  | done => exact ⟨[], by simp, fun _ _ => rfl⟩
  | broken f => exact False.elim ho
  | cons node inner rest _ ih =>
    obtain ⟨hids, hsingle, hinner, hrest⟩ := ho
    obtain ⟨own, sofar, hown, hsofar, hl⟩ := rangeLayout_cons_eq_ok hl
    have halign := (ht.nodeLayout_proper hids hinner hown).isAlign
    have halign' := Layout.append_isAlign hbefore halign hsofar
    have hle := ht.le_rangeLayout hrest halign' hl
    have hwhole := (ht.rangeLayout_proper hrest halign' hl).isAlign
    obtain ⟨-, -, rfl⟩ := (Layout.append_eq_ok_iff halign).1 hsofar
    simp only at hle
    have hround : before.size ≤ Word.roundUp before.size own.align :=
      Word.le_roundUp halign
    have hsmall := halign.le
    have hdvd : ∀ a, l.Stands a → own.align ∣ a := by
      intro a ha
      exact Nat.dvd_trans (halign.dvd_of_le hwhole (by omega)) (ha.dvd hsize)
    obtain ⟨slots, hparts, hspots⟩ := ih hrest halign' hl (.inl rfl)
    refine ⟨⟨node, inner, own, (· + Word.roundUp before.size own.align)⟩ :: slots,
      ?_, fun c hc => ?_⟩
    · rw [List.forall_mem_cons]
      refine ⟨⟨hids, hsingle, hinner, hown, fun a ha => ⟨?_, fun _ => ?_⟩,
        fun i hi => ?_⟩, hparts⟩
      · have := ha.room
        simp only
        omega
      · exact Nat.dvd_add (hdvd a ha) (Word.dvd_roundUp _ _)
      · simp only at hi
        exact ⟨Word.roundUp before.size own.align + i,
          by omega, fun a _ => Nat.add_assoc _ _ _⟩
    · have hplace : Walk.place aligned own.align (c.map (· + before.size)) =
          .ok (c.map (· + Word.roundUp before.size own.align)) := by
        apply Walk.place_lanes
        intro a ha
        have := (hc a ha).room
        exact Walk.place_add halign (hdvd a (hc a ha)) (by omega) haligned
      have hnext :
          Cursor.advance (c.map (· + Word.roundUp before.size own.align)) own.size =
          c.map (· + (Word.roundUp before.size own.align + own.size)) := by
        rw [Cursor.advance_map fun a ha => by have := (hc a ha).room; omega]
        simp only [Nat.add_assoc]
      simp only [Walk.spots, ht.node_layout_eq hids hinner, hown, hplace, hnext,
        hspots c hc, Bool.false_eq_true, if_false, List.map_cons]
      rfl

/-- A range has the same slots wherever its value stands, and in however many lanes. -/
theorem range_slots (aligned : Bool) {o : Outline} {before l : Layout} (ho : o.Sound t)
    (hbefore : Word.IsAlign before.align) (hl : t.rangeLayout o before = .ok l)
    (haligned : aligned = true ∨ before.size = 0) :
    ∃ slots : List Slot, (∀ s ∈ slots, s.PartOf t l) ∧
      ∀ c : Cursor, (∀ a ∈ c, l.Stands a) →
      Walk.spots t false o (c.map (· + before.size)) aligned =
        .ok (slots.map fun s => s.spot c) := by
  by_cases hsize : l.size = 0
  · have hle := (ht.le_rangeLayout ho hbefore hl).1
    obtain ⟨slots, hparts, hspots⟩ :=
      @void_slots _ ht o before l aligned ho hbefore hl hsize
    refine ⟨slots, hparts, fun c hc => ?_⟩
    have hzero : before.size = 0 := by omega
    simp only [hzero, Nat.add_zero, List.map_id']
    refine hspots c fun a ha => ?_
    have := (hc a ha).room
    omega
  · exact ht.sized_slots ho hbefore hl hsize haligned

/-! ## Inside a spot -/

/-- The elements of a fixed vector have the slots of the element range, one
stride after another. -/
theorem fixedVec_slots {count : UInt16} {plain : Bool} {bytes : Bytes} {inner : Outline}
    {l : Layout} (hinner : inner.Sound t) (hone : inner.length = 1)
    (hl : t.nodeLayout (.run (.fixedVec count) plain bytes) inner = .ok l) :
    ∃ stride : Nat, l.size = count.toNat * stride ∧
      (∀ m c, (∀ a ∈ c, l.Stands a) →
        Span.resolve t m (.fixedVec count) plain bytes inner c =
        .ok ⟨.fixedVec count, plain, bytes, stride, c, c.map (· + l.size)⟩) ∧
      ∃ slots : List Slot, (∀ s ∈ slots, s.PartOf t l) ∧ ∀ c, c ≠ [] →
        (∀ a ∈ c, l.Stands a) →
        Walk.elementSpots t inner
            (Span.elements ⟨.fixedVec count, plain, bytes, stride, c,
              c.map (· + l.size)⟩) =
          .ok (slots.map fun s => s.spot c) := by
  obtain ⟨elem, helem, hcopies⟩ := fixedVec_eq_ok hl
  have hproper := ht.rangeLayout_proper hinner Layout.isAlign_empty helem
  obtain ⟨hsize, rfl⟩ := Layout.copies_eq_ok_iff.1 hcopies
  have hlimit : ∀ {c : Cursor},
      (∀ a ∈ c, Layout.Stands ⟨count.toNat * elem.size, elem.align⟩ a) →
      ∀ a ∈ c, a + count.toNat * elem.size < Word.limit := by
    intro c hc a ha
    have : a + count.toNat * elem.size + 16 ≤ Word.limit := (hc a ha).room
    omega
  refine ⟨elem.size, rfl, fun m c hc => ?_, ?_⟩
  · exact resolve_lanes hproper ((ht.layout_eq hinner).trans helem) hsize (hlimit hc)
  · rcases Nat.eq_zero_or_pos elem.size with hzero | hpos
    · refine ⟨[], by simp, fun c _ _ => ?_⟩
      rw [Span.elements_of_stride_zero hzero]
      rfl
    · obtain ⟨slots, hparts, hspots⟩ :=
        ht.range_slots false hinner Layout.isAlign_empty helem (.inr rfl)
      refine ⟨(List.range count.toNat).flatMap fun i => slots.map fun s =>
        s.after (· + i * elem.size), ?_,
        fun c hc hlanes => ?_⟩
      · intro s hs
        obtain ⟨i, hi, hs⟩ := List.mem_flatMap.1 hs
        obtain ⟨s', hs', rfl⟩ := List.mem_map.1 hs
        rw [List.mem_range] at hi
        exact (hparts s' hs').after (fun a ha => ha.element hproper hi) fun k hk =>
          ⟨i * elem.size + k, Layout.element_byte hi hk, fun a _ => Nat.add_assoc _ _ _⟩
      · rw [Span.elements_fixedVec hc rfl rfl hpos (hlimit hlanes)]
        have helems :
            ∀ c' ∈ (List.range count.toNat).map fun i => c.map (· + i * elem.size),
            Walk.spots t true inner c' false = .ok (slots.map fun s => s.spot c') := by
          rw [List.forall_mem_map]
          intro i hi
          rw [Walk.spots_single hinner hone]
          have helem :=
              hspots (c.map (· + i * elem.size)) (List.forall_mem_map.2 fun a ha =>
            (hlanes a ha).element hproper (List.mem_range.1 hi))
          simpa only [Layout.empty, Nat.add_zero, List.map_id'] using helem
        rw [Walk.elementSpots_of_forall helems, List.flatMap_map, List.map_flatMap]
        simp only [List.map_map, Function.comp_def, Slot.spot_after]

/-- The slots of a variant. -/
theorem variant_slots (hhints : t.HintsWidest) (hmeasured : t.VariantsMeasured)
    {id : UInt16} {u : Union} {l : Layout} {v : Nat} (hu : t.union id = .ok u)
    (hl : t.unionLayout id = .ok l) (hv : v < u.variants.size) :
    ∃ slots : List Slot, (∀ s ∈ slots, s.PartOf t l) ∧
      ∀ m c, (∀ a ∈ c, l.Stands a) →
      (Scene.mk t m).variantSpots id v c = .ok (slots.map fun s => s.spot c) := by
  have hfields : u.variant v = .ok u.variants[v] := by simp [Union.variant, hv]
  obtain ⟨lv, hlv, hfit⟩ := ht.variant_fits hhints hmeasured hu hl hfields
  have hsound := ht.sound.of_union hu hfields
  have hhead := Measure.isAlign_unionHead u
  have halign := (ht.rangeLayout_proper hsound hhead hlv).isAlign
  have halign' := ((ht.unionLayout_good (Tables.lt_of_union hu)).of_ok hl).isAlign
  have hpos := ht.union_size_pos hhints hu hl
  have haligned : u.hasDiscriminant = true ∨ (Measure.unionHead u).size = 0 := by
    cases hd : u.hasDiscriminant with
    | true => exact .inl rfl
    | false => simp [Measure.unionHead, hd, Layout.empty]
  have hstands : ∀ a, l.Stands a → lv.Stands a := by
    intro a ha
    have := ha.room
    rcases hfit with ⟨hzero, -⟩ | ⟨hsize, hle⟩
    · exact ⟨by omega, fun hne => absurd hzero hne⟩
    · refine ⟨by omega,
        fun _ => Nat.dvd_trans (halign.dvd_of_le halign' hle) (ha.dvd ?_)⟩
      omega
  have hle : lv.size ≤ l.size := by omega
  obtain ⟨slots, hparts, hspots⟩ := ht.range_slots _ hsound hhead hlv haligned
  refine ⟨slots, fun s hs => ?_, fun m c hc => ?_⟩
  · have hpart : (s.after fun a => a).PartOf t l :=
      (hparts s hs).after hstands fun i hi =>
        ⟨i, Nat.lt_of_lt_of_le hi hle, fun _ _ => rfl⟩
    exact hpart
  · have hstart : (if u.hasDiscriminant then c.advance Word.size else c) =
        c.map (· + (Measure.unionHead u).size) := by
      cases hd : u.hasDiscriminant with
      | true =>
        have hhead := ht.unionHead_le_union hhints hu hl
        simp only [Measure.unionHead, hd, if_true, Placement.discriminant] at hhead ⊢
        refine List.map_congr_left fun a ha => Word.wrap_of_lt ?_
        have := (hc a ha).room
        omega
      | false => simp [Measure.unionHead, hd, Layout.empty]
    simp only [Scene.variantSpots, hu, hfields, hstart]
    exact hspots c fun a ha => hstands a (hc a ha)

end Tables.Verified

end ShapeCode
