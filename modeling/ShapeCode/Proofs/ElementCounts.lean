import ShapeCode.Proofs.TreeOrder

set_option autoImplicit false

/-!
# How many elements a run has

What is handed out of a run lies inside it: an element and all its bytes are between
start and stop in every lane.  A run that reaches no end of memory stops as far behind
its start as it states, so it has as many elements as its stated length has strides, and
a fixed vector has its count (`Span.elements_counted`).
-/

namespace ShapeCode.Span

variable {span : Span} {i : Nat}

/-! ## Inside the run -/

theorem InMemory.inside (h : span.InMemory) (hi : i < span.count) :
    ∀ lane ∈ span.start.zip span.stop,
      lane.1 + i * span.stride + span.stride ≤ lane.2 := by
  intro lane hlane
  have hpos : 0 < span.stride := by
    apply Nat.pos_of_ne_zero
    intro hzero
    rw [count_of_stride_zero hzero] at hi
    exact absurd hi (Nat.not_lt_zero i)
  have hdistance : lane.2 - lane.1 ∈ span.start.distance span.stop := by
    rw [Cursor.distance, ← List.map_uncurry_zip_eq_zipWith]
    exact List.mem_map_of_mem hlane
  have hroom : span.stride ≤ lane.2 - lane.1 - i * span.stride :=
    (fits_count hpos).2 ((h.lt_count_iff.1 hi).2 _ hdistance)
  omega

/-! ## As many as stated -/

/-- Where the elements of a run at `address` start, if this is no wrapped address. -/
def statedStart (mem : Memory) (offset : Nat) : RunForm → (address : Nat) → Nat
  | .vec, a => mem.word a + offset
  | .unboxedVec, a => a + offset
  | .slice _, a => mem.word a
  | .fixedVec _, a => a

/-- The run ends before the end of memory in every lane. -/
def EndsInMemory (mem : Memory) (spacing : Spacing) (form : RunForm) (c : Cursor) : Prop :=
  ∀ a ∈ c, statedStart mem spacing.dataOffset form a +
    statedLength mem spacing.stride form a < Word.limit

variable {t : Tables} {m : Memory} {form : RunForm} {plain : Bool} {elem : Bytes}
  {inner : Outline} {c : Cursor}
  {spacing : Spacing} {a : Nat}

theorem laneStart_eq_statedStart
    (h : statedStart m spacing.dataOffset form a < Word.limit) :
    laneStart m spacing.dataOffset form a = statedStart m spacing.dataOffset form a := by
  cases form with
  | slice | fixedVec => rfl
  | vec | unboxedVec => exact Word.wrap_of_lt h

/-- A run that ends before the end of memory can be resolved. -/
theorem laneStop_of_lt
    (h : statedStart m spacing.dataOffset form a +
      statedLength m spacing.stride form a < Word.limit) :
    laneStop m spacing form a =
      .ok (statedStart m spacing.dataOffset form a +
        statedLength m spacing.stride form a) := by
  cases form with
  | slice isStr => exact congrArg Except.ok (Word.wrap_of_lt h)
  | fixedVec count =>
    simp only [statedStart, statedLength] at h ⊢
    have hmul : Word.mul count.toNat spacing.stride = .ok (count.toNat * spacing.stride) :=
      Word.mul_eq_ok_iff.2 ⟨by omega, rfl⟩
    simp only [laneStop, hmul, Word.wrap_of_lt h]
  | vec =>
    simp only [statedStart, statedLength, Nat.add_assoc] at h ⊢
    have hadd : Word.add spacing.dataOffset (m.word (m.word a)) =
        .ok (spacing.dataOffset + m.word (m.word a)) :=
          Word.add_eq_ok_iff.2 ⟨by omega, rfl⟩
    simp only [laneStop, hadd, Word.wrap_of_lt h]
  | unboxedVec =>
    simp only [statedStart, statedLength, Nat.add_assoc] at h ⊢
    have hadd : Word.add spacing.dataOffset (m.word a) =
        .ok (spacing.dataOffset + m.word a) :=
      Word.add_eq_ok_iff.2 ⟨by omega, rfl⟩
    simp only [laneStop, hadd, Word.wrap_of_lt h]

/-- The run with its starts and stops as they are stated. -/
def stated (m : Memory) (form : RunForm) (plain : Bool) (elem : Bytes) (spacing : Spacing)
    (c : Cursor) : Span where
  form := form
  plain := plain
  elem := elem
  stride := spacing.stride
  start := c.map (statedStart m spacing.dataOffset form)
  stop :=
    c.map fun a =>
      statedStart m spacing.dataOffset form a + statedLength m spacing.stride form a

theorem resolve_eq_stated (hspacing : inner.spacing t = .ok spacing)
    (hends : EndsInMemory m spacing form c) :
    resolve t m form plain elem inner c = .ok (stated m form plain elem spacing c) := by
  have hstop := mapM_eq_ok_of_forall fun a ha => laneStop_of_lt (hends a ha)
  have hstart : c.map (laneStart m spacing.dataOffset form) =
      c.map (statedStart m spacing.dataOffset form) :=
    List.map_congr_left fun a ha =>
      laneStart_eq_statedStart (Nat.lt_of_le_of_lt (Nat.le_add_right _ _) (hends a ha))
  simp only [resolve, hspacing, hstop, hstart, stated]

theorem inMemory_stated (hends : EndsInMemory m spacing form c) :
    (stated m form plain elem spacing c).InMemory where
  lanes := by simp [stated]
  stop := List.forall_mem_map.2 hends

theorem count_stated :
    (stated m form plain elem spacing c).count =
      (c.map fun a => statedLength m spacing.stride form a / spacing.stride).min?.getD 0 :=
        by
  simp [count, stated, Cursor.distance, List.zipWith_map,
    List.zipWith_self, Function.comp_def]

theorem count_stated_fixedVec {n : UInt16} (hpos : 0 < spacing.stride) (hne : c ≠ []) :
    (stated m (.fixedVec n) plain elem spacing c).count = n.toNat := by
  have hmap : (c.map fun a =>
      statedLength m spacing.stride (.fixedVec n) a / spacing.stride) =
      List.replicate c.length n.toNat := by
    simp [statedLength, Nat.mul_div_cancel _ hpos]
  rw [count_stated, hmap,
    List.min?_replicate_of_pos (List.length_pos_iff.2 hne), Option.getD_some]

/-- Of a run are handed out as many elements as fit before the end in the lane where
these are the fewest, one stride after another, each inside the run in every lane; the
addresses never wrap around, and however many are looked for there are no more.
Elements of no size are none.

A run at a cursor that ends before the end of memory has as many elements as the
length that it states has strides, in the lane where these are the fewest; so a fixed
vector has its count. -/
theorem elements_counted :
    (∀ span : Span, span.InMemory →
      span.elements = (List.range span.count).map span.elementAt ∧
      (∀ bound, span.count ≤ bound →
        span.elementsFrom bound span.start = span.elements) ∧
      (∀ i, span.hasElement (span.elementAt i) = true ↔ i < span.count) ∧
      ∀ i < span.count,
        (span.elementAt i).advance span.stride = span.elementAt (i + 1) ∧
        ∀ lane ∈ span.start.zip span.stop,
          lane.1 + i * span.stride + span.stride ≤ lane.2) ∧
    (∀ span : Span, span.stride = 0 → span.elements = []) ∧
    ∀ (t : Tables) (m : Memory) (form : RunForm) (plain : Bool) (elem : Bytes)
      (inner : Outline) (c : Cursor) (spacing : Spacing),
      inner.spacing t = .ok spacing → 0 < spacing.stride →
      c ≠ [] → EndsInMemory m spacing form c →
      ∃ span, resolve t m form plain elem inner c = .ok span ∧ span.InMemory ∧
        span.elements.length = (c.map fun a =>
          statedLength m spacing.stride form a / spacing.stride).min?.getD 0 ∧
        ∀ n, form = .fixedVec n → span.elements.length = n.toNat := by
  refine ⟨fun span h =>
    ⟨h.elements_eq, fun bound hbound => ?_, fun i => h.hasElement_elementAt,
    fun i hi => ⟨h.advance_elementAt hi,
      h.inside hi⟩⟩, fun span => elements_of_stride_zero, ?_⟩
  · rw [h.elementsFrom_start hbound, h.elements_eq]
  · intro t m form plain elem inner c spacing hspacing hpos hne hends
    have h : (stated m form plain elem spacing c).InMemory := inMemory_stated hends
    have hlength : (stated m form plain elem spacing c).elements.length =
        (stated m form plain elem spacing c).count := by
      rw [h.elements_eq, List.length_map, List.length_range]
    refine ⟨_, resolve_eq_stated hspacing hends, h,
      hlength.trans count_stated, fun n hn => ?_⟩
    subst hn
    exact hlength.trans (count_stated_fixedVec hpos hne)

/-- Nine bytes and six, each with a terminator that is none of the elements. -/
def twoTexts : Memory :=
  (Memory.zero.write 64 #[232, 3, 0, 0, 0, 0, 0, 0, 9]).write 80
    #[208, 7, 0, 0, 0, 0, 0, 0, 6]

/-- Three elements fit before the last byte of memory and two in the other lane; of two
texts as units of two bytes, one has four and the other has two. -/
theorem elements_counted_lanes :
    (⟨.slice false, true, [1], 3, [Word.limit - 11, 40], [Word.limit - 1, 47]⟩ :
        Span).elements =
      [[Word.limit - 11, 40], [Word.limit - 8, 43]] ∧
    ∃ span, resolve ⟨#[], #[]⟩ twoTexts (.slice true) true
        [1] (Outline.ofBytes [1]) [64, 80] = .ok span ∧
      span.elements.length = 2 := by
  obtain ⟨hspans, -, hruns⟩ := elements_counted
  have hspacing : (Outline.ofBytes [1]).spacing ⟨#[], #[]⟩ = .ok ⟨2, 16⟩ := by
    decide +kernel
  have hends : EndsInMemory twoTexts ⟨2, 16⟩ (.slice true) [64, 80] := by
    unfold EndsInMemory
    decide +kernel
  obtain ⟨span, hspan, -, hlength, -⟩ :=
    hruns _ twoTexts (.slice true) true [1] _ [64, 80] _ hspacing
      (by decide) (by decide) hends
  refine ⟨?_, span, hspan, hlength.trans (by decide +kernel)⟩
  exact (hspans ⟨.slice false, true, [1], 3, [Word.limit - 11, 40],
    [Word.limit - 1, 47]⟩ ⟨rfl, by decide⟩).1

end ShapeCode.Span
