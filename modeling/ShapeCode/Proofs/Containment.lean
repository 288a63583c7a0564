import ShapeCode.Emit
import ShapeCode.Proofs.Visits
import ShapeCode.Proofs.WidestHints

set_option autoImplicit false

/-!
# Walked nodes lie inside measured layouts

Measuring folds sizes from zero; a walk rounds addresses and moves on from node to node.
Both come to the same places: a walk over a range from `base` finds behind a prefix of
size `n` what measuring finds at `n`, as long as the alignment of the whole divides
`base` (`spots_of_rangeLayout`).  Inside a union the selected variant need not be the
one that was measured, and fits because the hint names a widest one.

Nodes of no size are another matter.  A union of one variant takes a byte even if the
variant takes none, so what lies inside may start at any address and be rounded up past
the end.  Such nodes stay at or before the next multiple of eight (`spots_of_void`).
-/

namespace ShapeCode

/-! ## Spots in one lane -/

namespace Spot

/-- Where the value starts, in the first lane. -/
def address (x : Spot) : Nat := x.cursor.headD 0

/-- Where the value stops, in the first lane. -/
def stop (x : Spot) : Nat := x.address + x.layout.size

/-- The spot has one lane, its ids lie inside the tables, and its layout is
that of its node. -/
structure Fits (t : Tables) (x : Spot) : Prop where
  cursor : x.cursor = [x.address]
  ids : x.node.IdsIn t
  single : x.node.holdsOne = true → x.inner.length = 1
  inner : x.inner.Sound t
  layout : t.nodeLayout x.node x.inner = .ok x.layout

/-- The value is aligned and lies between two addresses. -/
structure Within (lo hi : Nat) (x : Spot) : Prop where
  dvd : x.layout.align ∣ x.address
  le_address : lo ≤ x.address
  stop_le : x.stop ≤ hi

/-- The value takes no space and does not start behind `hi`. -/
structure Void (hi : Nat) (x : Spot) : Prop where
  size_eq : x.layout.size = 0
  address_le : x.address ≤ hi

/-- Where the contents of the value start: behind the discriminant of a union. -/
def contentStart (t : Tables) (x : Spot) : Nat :=
  match x.node with
  | .union id =>
    match t.union id with
    | .error _ => x.address
    | .ok u => x.address + (Measure.unionHead u).size
  | _ => x.address

theorem address_le_contentStart (t : Tables) (x : Spot) :
    x.address ≤ x.contentStart t := by
  unfold contentStart
  split
  · split
    · exact Nat.le_refl _
    · exact Nat.le_add_right _ _
  · exact Nat.le_refl _

/-- The spots follow one another between two addresses, where those that take no space
may end up behind. -/
structure Placed (t : Tables) (lo hi : Nat) (xs : List Spot) : Prop where
  fits : ∀ x ∈ xs, x.Fits t
  place : ∀ x ∈ xs, x.Within lo hi ∨ x.Void (Word.roundUp hi 8)
  ordered : xs.Pairwise fun x y => y.layout.size ≠ 0 → x.stop ≤ y.address

theorem Placed.of_within {t : Tables} {lo hi : Nat} {xs : List Spot}
    (hfits : ∀ x ∈ xs, x.Fits t) (hwithin : ∀ x ∈ xs, x.Within lo hi)
    (hordered : xs.Pairwise fun x y => x.stop ≤ y.address) : Placed t lo hi xs where
  fits := hfits
  place x hx := .inl (hwithin x hx)
  ordered := by
    apply hordered.imp
    intro x y h _
    exact h

theorem Placed.of_void {t : Tables} {lo hi : Nat} {xs : List Spot}
    (hfits : ∀ x ∈ xs, x.Fits t) (hvoid : ∀ x ∈ xs, x.Void (Word.roundUp hi 8)) :
    Placed t lo hi xs where
  fits := hfits
  place x hx := .inr (hvoid x hx)
  ordered := by
    apply List.pairwise_of_forall_mem_list
    intro x _ y hy hsize
    exact absurd (hvoid y hy).size_eq hsize

end Spot

/-- The fault is a discriminant that selects no variant. -/
def Fault.IsVariant (f : Fault) : Prop := ∃ v n, f = .unknownVariant v n

namespace Walk

theorem place_aligned {align a b : Nat} (h : Word.alignUp a align = .ok b) :
    place true align [a] = .ok [b] := by
  simp [place, Cursor.alignUp, h, bind, Except.bind, pure, Except.pure]

theorem place_unaligned {align : Nat} {c : Cursor} : place false align c = .ok c := rfl

/-- Where a node of a range comes to stand: measured behind `before`, or rounded up. -/
theorem place_add {aligned : Bool} {align base n : Nat} (halign : Word.IsAlign align)
    (hbase : align ∣ base) (hlimit : base + n + align < Word.limit)
    (hn : aligned = true ∨ n = 0) :
    place aligned align [base + n] = .ok [base + Word.roundUp n align] := by
  cases aligned with
  | true =>
    apply place_aligned
    refine Word.alignUp_eq_ok_iff.2 ⟨halign.isPowerOfTwo, hlimit, ?_⟩
    rw [Word.roundUp_add halign hbase]
  | false =>
    obtain rfl := hn.resolve_left Bool.false_ne_true
    rw [Word.roundUp_of_dvd halign (Nat.dvd_zero align)]
    rfl

/-- The first node of a range of one node is the range. -/
theorem spots_single {t : Tables} {o : Outline} {c : Cursor} {aligned : Bool}
    (ho : o.Sound t) (hone : o.length = 1) :
    spots t true o c aligned = spots t false o c aligned := by
  obtain ⟨node, inner, rfl⟩ := ho.eq_single hone
  simp [spots]

end Walk

/-! ## Ranges -/

namespace Tables.Verified

variable {t : Tables} (ht : t.Verified)

include ht

/-- A walk over a range finds its nodes where measuring does, counted from
an aligned base. -/
theorem spots_of_rangeLayout {o : Outline} {before l : Layout} {base : Nat} {aligned : Bool}
    (ho : o.Sound t) (hbefore : Word.IsAlign before.align)
    (hl : t.rangeLayout o before = .ok l) (hbase : l.align ∣ base)
    (hlimit : base + l.size + 8 < Word.limit)
    (haligned : aligned = true ∨ before.size = 0) :
    ∃ xs, Walk.spots t false o [base + before.size] aligned = .ok xs ∧
      (∀ x ∈ xs, x.Fits t) ∧
      (∀ x ∈ xs, x.Within (base + before.size) (base + l.size)) ∧
      xs.Pairwise fun x y => x.stop ≤ y.address := by
  induction o generalizing before aligned with
  | done => exact ⟨[], rfl, by simp, by simp, .nil⟩
  | broken f => exact False.elim ho
  | cons node inner rest _ ih =>
    obtain ⟨hids, hsingle, hinner, hrest⟩ := ho
    obtain ⟨own, sofar, hown, hsofar, hl⟩ := rangeLayout_cons_eq_ok hl
    have hproper := ht.nodeLayout_proper hids hinner hown
    have halign' := Layout.append_isAlign hbefore hproper.isAlign hsofar
    have hle := ht.le_rangeLayout hrest halign' hl
    have hwhole := ht.rangeLayout_proper hrest halign' hl
    obtain ⟨-, -, rfl⟩ := (Layout.append_eq_ok_iff hproper.isAlign).1 hsofar
    simp only at hle
    have hround : before.size ≤ Word.roundUp before.size own.align :=
      Word.le_roundUp hproper.isAlign
    have hsmall := hproper.isAlign.le
    have hdvd : own.align ∣ base :=
      Nat.dvd_trans (hproper.isAlign.dvd_of_le hwhole.isAlign (by omega)) hbase
    have hplace :=
      Walk.place_add hproper.isAlign hdvd (n := before.size) (by omega) haligned
    have hnext : Cursor.advance [base + Word.roundUp before.size own.align] own.size =
        [base + (Word.roundUp before.size own.align + own.size)] := by
      simp only [Cursor.advance, List.map_cons, List.map_nil, Nat.add_assoc]
      rw [Word.wrap_of_lt (by omega)]
    obtain ⟨xs, hxs, hfits, hwithin, hordered⟩ := ih hrest halign' hl (.inl rfl)
    refine ⟨⟨node, inner, [base + Word.roundUp before.size own.align], own⟩ :: xs,
      ?_, ?_, ?_, ?_⟩
    · simp only [Walk.spots, ht.node_layout_eq hids hinner, hown, hplace, hnext, hxs,
        Bool.false_eq_true, if_false]
    · rw [List.forall_mem_cons]
      exact ⟨⟨rfl, hids, hsingle, hinner, hown⟩, hfits⟩
    · rw [List.forall_mem_cons]
      refine ⟨⟨?_, ?_, ?_⟩,
        fun x hx => ⟨(hwithin x hx).dvd, ?_, (hwithin x hx).stop_le⟩⟩
      · exact Nat.dvd_add hdvd (Word.dvd_roundUp _ _)
      · exact Nat.add_le_add_left hround base
      · simp only [Spot.stop, Spot.address, List.headD_cons]
        omega
      · have := (hwithin x hx).le_address
        simp only at this
        omega
    · rw [List.pairwise_cons]
      refine ⟨fun x hx => ?_, hordered⟩
      have := (hwithin x hx).le_address
      simp only [Spot.stop, Spot.address, List.headD_cons] at this ⊢
      omega

/-- A walk over a range of no size stays at or before any multiple of eight. -/
theorem spots_of_void {o : Outline} {before l : Layout} {c hi : Nat} {aligned : Bool}
    (ho : o.Sound t) (hbefore : Word.IsAlign before.align)
    (hl : t.rangeLayout o before = .ok l) (hsize : l.size = 0) (hc : c ≤ hi)
    (hhi : 8 ∣ hi) (hlimit : hi + 8 < Word.limit) :
    ∃ xs, Walk.spots t false o [c] aligned = .ok xs ∧ (∀ x ∈ xs, x.Fits t) ∧
      ∀ x ∈ xs, x.Void hi := by
  induction o generalizing before c aligned with
  | done => exact ⟨[], rfl, by simp, by simp⟩
  | broken f => exact False.elim ho
  | cons node inner rest _ ih =>
    obtain ⟨hids, hsingle, hinner, hrest⟩ := ho
    obtain ⟨own, sofar, hown, hsofar, hl⟩ := rangeLayout_cons_eq_ok hl
    have hproper := ht.nodeLayout_proper hids hinner hown
    have halign' := Layout.append_isAlign hbefore hproper.isAlign hsofar
    have hle := ht.le_rangeLayout hrest halign' hl
    obtain ⟨-, -, rfl⟩ := (Layout.append_eq_ok_iff hproper.isAlign).1 hsofar
    simp only at hle
    have hsmall := hproper.isAlign.le
    have hzero : own.size = 0 := by omega
    obtain ⟨a, hplace, ha⟩ : ∃ a, Walk.place aligned own.align [c] = .ok [a] ∧
        a ≤ hi := by
      cases aligned with
      | true =>
        refine ⟨Word.roundUp c own.align, Walk.place_aligned ?_, ?_⟩
        · exact Word.alignUp_eq_ok_iff.2 ⟨hproper.isAlign.isPowerOfTwo, by omega, rfl⟩
        · have hdvd : own.align ∣ hi :=
            Nat.dvd_trans (hproper.isAlign.dvd_of_le (.inr (.inr (.inr rfl))) hsmall) hhi
          have hmono : Word.roundUp c own.align ≤ Word.roundUp hi own.align :=
            Word.roundUp_mono hc
          rwa [Word.roundUp_of_dvd hproper.isAlign hdvd] at hmono
      | false => exact ⟨c, rfl, hc⟩
    have hnext : Cursor.advance [a] own.size = [a] := by
      simp only [Cursor.advance, List.map_cons, List.map_nil, hzero, Nat.add_zero]
      rw [Word.wrap_of_lt (by omega)]
    have htail : ∃ xs, Walk.spots t false rest [a] true = .ok xs ∧
        (∀ x ∈ xs, x.Fits t) ∧
        ∀ x ∈ xs, x.Void hi :=
      ih hrest halign' hl ha
    obtain ⟨xs, hxs, hfits, hvoid⟩ := htail
    refine ⟨⟨node, inner, [a], own⟩ :: xs, ?_, ?_, ?_⟩
    · simp only [Walk.spots, ht.node_layout_eq hids hinner, hown, hplace, hnext, hxs,
        Bool.false_eq_true, if_false]
    · rw [List.forall_mem_cons]
      exact ⟨⟨rfl, hids, hsingle, hinner, hown⟩, hfits⟩
    · rw [List.forall_mem_cons]
      exact ⟨⟨hzero, ha⟩, hvoid⟩

/-! ## Elements -/

/-- The spots of the elements that follow one another from an aligned
address up to a stop. -/
theorem elementSpots_of_layout {span : Span} {inner : Outline} {elem : Layout} {stop : Nat}
    (hinner : inner.Sound t) (hone : inner.length = 1)
    (helem : t.rangeLayout inner .empty = .ok elem) (hstride : span.stride = elem.size)
    (hstop : span.stop = [stop]) (hlimit : stop + 8 < Word.limit) {bound a : Nat}
    (hdvd : elem.align ∣ a) :
    ∃ xs, Walk.elementSpots t inner (span.elementsFrom bound [a]) = .ok xs ∧
      (∀ x ∈ xs, x.Fits t) ∧
      (∀ x ∈ xs, x.Within a stop) ∧ xs.Pairwise fun x y => x.stop ≤ y.address := by
  have hproper := ht.rangeLayout_proper hinner Layout.isAlign_empty helem
  induction bound generalizing a with
  | zero => exact ⟨[], rfl, by simp, by simp, .nil⟩
  | succ bound ih =>
    simp only [Span.elementsFrom]
    by_cases hhas : span.hasElement [a] = true
    · rw [if_pos hhas]
      have hfits : elem.size ≠ 0 ∧ elem.size ≤ stop - a := by
        simpa [Span.hasElement, Cursor.fits, Cursor.distance, hstride, hstop] using hhas
      have hfirst : ∃ xs, Walk.spots t false inner [a] false = .ok xs ∧
          (∀ x ∈ xs, x.Fits t) ∧
          (∀ x ∈ xs, x.Within a (a + elem.size)) ∧
          xs.Pairwise fun x y => x.stop ≤ y.address :=
        ht.spots_of_rangeLayout hinner Layout.isAlign_empty helem hdvd (by omega) (.inr rfl)
      obtain ⟨xs, hxs, hfitsX, hwithinX, horderedX⟩ := hfirst
      have hnext : Cursor.advance [a] span.stride = [a + elem.size] := by
        simp only [Cursor.advance, List.map_cons, List.map_nil, hstride]
        rw [Word.wrap_of_lt (by omega)]
      obtain ⟨ys, hys, hfitsY, hwithinY, horderedY⟩ :=
        @ih (a + elem.size) (Nat.dvd_add hdvd hproper.dvd)
      refine ⟨xs ++ ys, ?_, ?_, ?_, ?_⟩
      · simp only [hnext, Walk.elementSpots, Walk.spots_single hinner hone, hxs, hys]
      · rw [List.forall_mem_append]
        exact ⟨hfitsX, hfitsY⟩
      · rw [List.forall_mem_append]
        refine ⟨fun x hx => ⟨(hwithinX x hx).dvd, (hwithinX x hx).le_address, ?_⟩,
          fun y hy => ⟨(hwithinY y hy).dvd, ?_, (hwithinY y hy).stop_le⟩⟩
        · have := (hwithinX x hx).stop_le
          omega
        · have := (hwithinY y hy).le_address
          omega
      · rw [List.pairwise_append]
        refine ⟨horderedX, horderedY, fun x hx y hy => ?_⟩
        exact Nat.le_trans (hwithinX x hx).stop_le (hwithinY y hy).le_address
    · rw [if_neg hhas]
      exact ⟨[], rfl, by simp, by simp, .nil⟩

/-! ## Inside a spot -/

omit ht in
theorem fixedVec_eq_ok {count : UInt16} {plain : Bool} {bytes : Bytes} {inner : Outline}
    {l : Layout} (h : t.nodeLayout (.run (.fixedVec count) plain bytes) inner = .ok l) :
    ∃ elem, t.rangeLayout inner .empty = .ok elem ∧
      elem.copies count.toNat = .ok l := by
  simp only [nodeLayout, Node.storage, Plain.storageLayout] at h
  split at h
  · cases h
  · rename_i elem helem
    exact ⟨elem, helem, h⟩

omit ht in
/-- A fixed vector stands where its elements do, in every lane. -/
theorem resolve_lanes {m : Memory} {count : UInt16} {plain : Bool} {bytes : Bytes}
    {inner : Outline} {elem : Layout} {c : Cursor} (hproper : elem.Proper)
    (helem : inner.layout t = .ok elem) (hsize : count.toNat * elem.size < Word.limit)
    (hlimit : ∀ a ∈ c, a + count.toNat * elem.size < Word.limit) :
    Span.resolve t m (.fixedVec count) plain bytes inner c =
      .ok ⟨.fixedVec count, plain, bytes, elem.size, c,
        c.map (· + count.toNat * elem.size)⟩ := by
  have hmul : Word.mul count.toNat elem.size = .ok (count.toNat * elem.size) :=
    Word.mul_eq_ok_iff.2 ⟨hsize, rfl⟩
  have hstop : c.mapM (Span.laneStop m ⟨elem.size,
      Word.roundUp (2 * Word.size) elem.align⟩ (.fixedVec count)) =
      .ok (c.map (· + count.toNat * elem.size)) := by
    refine mapM_eq_ok_of_forall fun a ha => ?_
    simp only [Span.laneStop, hmul, Word.wrap_of_lt (hlimit a ha)]
  have hstart : c.map
      (Span.laneStart m (Word.roundUp (2 * Word.size) elem.align) (.fixedVec count)) = c :=
    List.map_id c
  simp only [Span.resolve, spacing_of_layout hproper helem, hstop, hstart]

omit ht in
/-- The elements of a measured fixed vector lie in its layout. -/
theorem resolve_fixedVec {m : Memory} {count : UInt16} {plain : Bool} {bytes : Bytes}
    {inner : Outline} {elem : Layout} {a : Nat} (hproper : elem.Proper)
    (helem : inner.layout t = .ok elem)
    (hlimit : a + count.toNat * elem.size < Word.limit) :
    Span.resolve t m (.fixedVec count) plain bytes inner [a] =
      .ok ⟨.fixedVec count, plain, bytes, elem.size, [a],
        [a + count.toNat * elem.size]⟩ :=
  resolve_lanes hproper helem (by omega) (by simpa using hlimit)

/-- A range has its place between two addresses if there is room for it, or if it
takes no space. -/
theorem range_placed {o : Outline} {before l : Layout} {base hi : Nat} {aligned : Bool}
    (ho : o.Sound t) (hbefore : Word.IsAlign before.align)
    (hl : t.rangeLayout o before = .ok l)
    (hroom : (l.size = 0 ∧ base ≤ hi) ∨ (l.align ∣ base ∧ base + l.size ≤ hi))
    (hlimit : hi + 16 < Word.limit) (haligned : aligned = true ∨ before.size = 0) :
    ∃ ys, Walk.spots t false o [base + before.size] aligned = .ok ys ∧
      Spot.Placed t (base + before.size) hi ys := by
  have hle := (ht.le_rangeLayout ho hbefore hl).1
  rcases hroom with ⟨hzero, hbase⟩ | ⟨hbase, hstop⟩
  · have h8 : Word.IsAlign 8 := .inr (.inr (.inr rfl))
    have hnext : hi ≤ Word.roundUp hi 8 := Word.le_roundUp h8
    have hbound : Word.roundUp hi 8 < hi + 8 := Word.roundUp_lt h8
    obtain ⟨ys, hys, hfits, hvoid⟩ :=
      @spots_of_void _ ht o before l (base + before.size) (Word.roundUp hi 8) aligned ho
        hbefore hl hzero (by omega) (Word.dvd_roundUp _ _) (by omega)
    exact ⟨ys, hys, .of_void hfits hvoid⟩
  · obtain ⟨ys, hys, hfits, hwithin, hordered⟩ :=
      ht.spots_of_rangeLayout ho hbefore hl hbase (by omega) haligned
    refine ⟨ys, hys, .of_within hfits (fun y hy =>
      ⟨(hwithin y hy).dvd, (hwithin y hy).le_address, ?_⟩) hordered⟩
    have := (hwithin y hy).stop_le
    omega

/-- The fields of a variant have their place behind the discriminant. -/
theorem variant_placed (hhints : t.HintsWidest) (hmeasured : t.VariantsMeasured)
    {m : Memory} {id : UInt16} {u : Union} {l : Layout} {a v : Nat}
    (hu : t.union id = .ok u) (hl : t.unionLayout id = .ok l) (hdvd : l.align ∣ a)
    (hlimit : a + l.size + 16 < Word.limit) :
    Yields Fault.IsVariant (Spot.Placed t (a + (Measure.unionHead u).size) (a + l.size))
      ((Scene.mk t m).variantSpots id v [a]) := by
  unfold Scene.variantSpots
  simp only [hu]
  cases hfields : u.variant v with
  | error f =>
    unfold Union.variant at hfields
    split at hfields
    · cases hfields
    · exact ⟨_, _, (Except.error.inj hfields).symm⟩
  | ok fields =>
    obtain ⟨lv, hlv, hfit⟩ := ht.variant_fits hhints hmeasured hu hl hfields
    have hsound := ht.sound.of_union hu hfields
    have hhead := Measure.isAlign_unionHead u
    have hroom : (lv.size = 0 ∧ a ≤ a + l.size) ∨
        (lv.align ∣ a ∧ a + lv.size ≤ a + l.size) := by
      rcases hfit with ⟨hzero, -⟩ | ⟨hsize, halign⟩
      · exact .inl ⟨hzero, Nat.le_add_right _ _⟩
      · refine .inr ⟨Nat.dvd_trans ?_ hdvd, by omega⟩
        exact (ht.rangeLayout_proper hsound hhead hlv).isAlign.dvd_of_le
          ((ht.unionLayout_good (Tables.lt_of_union hu)).of_ok hl).isAlign halign
    have haligned : u.hasDiscriminant = true ∨ (Measure.unionHead u).size = 0 := by
      cases hd : u.hasDiscriminant with
      | true => exact .inl rfl
      | false => simp [Measure.unionHead, hd, Layout.empty]
    obtain ⟨ys, hys, hplaced⟩ := ht.range_placed hsound hhead hlv hroom hlimit haligned
    have hstart : (if u.hasDiscriminant then Cursor.advance [a] Word.size else [a]) =
        [a + (Measure.unionHead u).size] := by
      cases hd : u.hasDiscriminant with
      | true =>
        have h8 : Word.wrap (a + Word.size) = a + Word.size := by
          apply Word.wrap_of_lt
          unfold Word.size
          omega
        simp [Measure.unionHead, hd, Cursor.advance, Placement.discriminant, h8]
      | false => simp [Measure.unionHead, hd, Layout.empty]
    simp only [hstart, hys]
    exact hplaced

/-- Inside a spot that stands where measuring says, so do the spots, as long as its
discriminant exists. -/
theorem inside_placed (hhints : t.HintsWidest) (hmeasured : t.VariantsMeasured) {m : Memory}
    {x : Spot} (hx : x.Fits t) (hdvd : x.layout.align ∣ x.address)
    (hlimit : x.stop + 16 < Word.limit) :
    Yields Fault.IsVariant (Spot.Placed t (x.contentStart t) x.stop)
        ((Scene.mk t m).inside x) := by
  obtain ⟨node, inner, c, l⟩ := x
  obtain ⟨hcursor, hids, hsingle, hinner, hlayout⟩ := hx
  simp only [Spot.stop] at hlimit ⊢
  generalize haddress : Spot.address ⟨node, inner, c, l⟩ = a at *
  simp only at hcursor hids hsingle hinner hlayout hdvd hlimit
  subst hcursor
  have hnone : Spot.Placed t a (a + l.size) [] := ⟨by simp, by simp, .nil⟩
  cases node with
  | scalar | handle | pointer => exact hnone
  | record fields | resource id fields =>
    obtain ⟨ys, hys, hplaced⟩ :=
      @range_placed _ ht inner .empty l a (a + l.size) false hinner Layout.isAlign_empty
        hlayout (.inr ⟨hdvd, Nat.le_refl _⟩) hlimit (.inr rfl)
    have hinside : Walk.spots t false inner [a] false = .ok ys := hys
    simp only [Scene.inside, hinside]
    exact hplaced
  | union id =>
    have hu := Tables.union_of_lt hids
    simp only [Scene.inside, Spot.contentStart, hu]
    cases hd : (Scene.mk t m).discriminants t.unions[id.toNat] [a] with
    | nil => exact ⟨by simp, by simp, .nil⟩
    | cons selected more =>
      have hplaced :=
        ht.variant_placed hhints hmeasured (m := m) (v := selected) hu hlayout hdvd hlimit
      rw [haddress]
      exact hplaced
  | run form plain elem =>
    cases form with
    | vec | unboxedVec | slice => exact hnone
    | fixedVec count =>
      have hone := hsingle rfl
      obtain ⟨el, hel, hcopies⟩ := fixedVec_eq_ok hlayout
      have hproper := ht.rangeLayout_proper hinner Layout.isAlign_empty hel
      have helem : inner.layout t = .ok el := (ht.layout_eq hinner).trans hel
      obtain ⟨-, rfl⟩ := Layout.copies_eq_ok_iff.1 hcopies
      simp only at hlimit hdvd
      let span : Span :=
        ⟨.fixedVec count, plain, elem, el.size, [a], [a + count.toNat * el.size]⟩
      have hspan : Span.resolve t m (.fixedVec count) plain elem inner [a] = .ok span :=
        resolve_fixedVec hproper helem (by omega)
      have helems : ∃ ys, Walk.elementSpots t inner span.elements = .ok ys ∧
          (∀ y ∈ ys, y.Fits t) ∧
          (∀ y ∈ ys, y.Within a (a + count.toNat * el.size)) ∧
          ys.Pairwise fun y z => y.stop ≤ z.address :=
        ht.elementSpots_of_layout hinner (hsingle rfl) hel rfl rfl (by omega) hdvd
      obtain ⟨ys, hys, hfits, hwithin, hordered⟩ := helems
      simp only [Scene.inside, hspan, Spot.contentStart, haddress, hys]
      exact .of_within hfits hwithin hordered

/-- Inside a spot of no size nothing takes space, and nothing starts behind a multiple
of eight before which the spot itself starts. -/
theorem inside_void (hhints : t.HintsWidest) {m : Memory} {x : Spot} {hi : Nat}
    (hx : x.Fits t) (hvoid : x.Void hi) (hdvd : 8 ∣ hi) (hlimit : hi + 8 < Word.limit) :
    ∃ ys, (Scene.mk t m).inside x = .ok ys ∧ (∀ y ∈ ys, y.Fits t) ∧
      ∀ y ∈ ys, y.Void hi := by
  obtain ⟨node, inner, c, l⟩ := x
  obtain ⟨hcursor, hids, hsingle, hinner, hlayout⟩ := hx
  obtain ⟨hsize, haddress⟩ := hvoid
  generalize Spot.address ⟨node, inner, c, l⟩ = a at *
  simp only at hcursor hids hsingle hinner hlayout hsize
  subst hcursor
  cases node with
  | scalar | handle | pointer => exact ⟨[], rfl, by simp, by simp⟩
  | record fields | resource id fields =>
    exact ht.spots_of_void hinner Layout.isAlign_empty hlayout hsize haddress hdvd hlimit
  | union id =>
    have hpos := ht.union_size_pos hhints (Tables.union_of_lt hids) hlayout
    omega
  | run form plain elem =>
    cases form with
    | vec | unboxedVec | slice => exact ⟨[], rfl, by simp, by simp⟩
    | fixedVec count =>
      obtain ⟨el, hel, hcopies⟩ := fixedVec_eq_ok hlayout
      have hproper := ht.rangeLayout_proper hinner Layout.isAlign_empty hel
      have helem : inner.layout t = .ok el := (ht.layout_eq hinner).trans hel
      obtain ⟨-, rfl⟩ := Layout.copies_eq_ok_iff.1 hcopies
      simp only at hsize
      have hspan : Span.resolve t m (.fixedVec count) plain elem inner [a] =
          .ok ⟨.fixedVec count, plain, elem, el.size, [a],
            [a + count.toNat * el.size]⟩ :=
        resolve_fixedVec hproper helem (by omega)
      refine ⟨[], ?_, by simp, by simp⟩
      simp only [Scene.inside, hspan]
      simp [Span.elements, Span.elementBound, Cursor.distance, hsize,
        Span.elementsFrom, Walk.elementSpots]

/-- Whatever a walk visits inline stands where measuring says. -/
theorem visited_place (hhints : t.HintsWidest) (hmeasured : t.VariantsMeasured) {m : Memory}
    {o : Outline} {l : Layout} {p : Nat} (ho : o.Sound t)
    (hl : t.rangeLayout o .empty = .ok l) (hp : l.align ∣ p)
    (hlimit : p + l.size + 16 < Word.limit) {x : Spot}
    (hx : (Scene.mk t m).Visited o [p] x) :
    x.Fits t ∧ (x.Within p (p + l.size) ∨ x.Void (Word.roundUp (p + l.size) 8)) := by
  have h8 : Word.IsAlign 8 := .inr (.inr (.inr rfl))
  induction hx with
  | @root xs x hxs hmem =>
    have hrange : ∃ ys, Walk.spots t false o [p] false = .ok ys ∧
        Spot.Placed t p (p + l.size) ys :=
      ht.range_placed ho Layout.isAlign_empty hl
        (.inr ⟨hp, Nat.le_refl _⟩) hlimit (.inr rfl)
    obtain ⟨ys, hys, hplaced⟩ := hrange
    obtain rfl := Except.ok.inj (hxs.symm.trans hys)
    exact ⟨hplaced.fits x hmem, hplaced.place x hmem⟩
  | @inside x y ys _ hys hmem ih =>
    obtain ⟨hfits, hwithin | hvoid⟩ := ih
    · have hle := hwithin.stop_le
      have hplaced :=
        (ht.inside_placed hhints hmeasured hfits hwithin.dvd (by omega)).of_ok hys
      refine ⟨hplaced.fits y hmem, ?_⟩
      rcases hplaced.place y hmem with hy | hy
      · refine .inl ⟨hy.dvd, ?_, Nat.le_trans hy.stop_le hle⟩
        exact Nat.le_trans hwithin.le_address
          (Nat.le_trans (x.address_le_contentStart t) hy.le_address)
      · exact .inr ⟨hy.size_eq, Nat.le_trans hy.address_le (Word.roundUp_mono hle)⟩
    · have hround : Word.roundUp (p + l.size) 8 < p + l.size + 8 := Word.roundUp_lt h8
      obtain ⟨zs, hzs, hfitsAll, hvoidAll⟩ :=
        ht.inside_void hhints hfits hvoid (Word.dvd_roundUp _ _) (by omega)
      obtain rfl := Except.ok.inj (hys.symm.trans hzs)
      exact ⟨hfitsAll y hmem, .inr (hvoidAll y hmem)⟩

end Tables.Verified

end ShapeCode
