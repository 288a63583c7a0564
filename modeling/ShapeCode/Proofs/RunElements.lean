import ShapeCode.Span

set_option autoImplicit false

/-!
# The elements of a run, counted

Elements are found by going from one to the next while another fits before the end in every
lane.  They are the multiples of the stride from the start on, as many as fit in the lane
with the least room (`Span.elements_eq`), and no address among them wraps around.
-/

namespace ShapeCode

theorem lt_min?_iff {ns : List Nat} {i : Nat} :
    i < ns.min?.getD 0 ↔ ns ≠ [] ∧ ∀ n ∈ ns, i < n := by
  cases hmin : ns.min? with
  | none => simp [List.min?_eq_none_iff.1 hmin]
  | some m =>
    have hne : ns ≠ [] := by
      rintro rfl
      cases hmin
    have hle : i < m ↔ ∀ n ∈ ns, i < n := List.le_min?_iff (x := i + 1) hmin
    simp only [Option.getD_some, hle, hne, ne_eq, not_false_eq_true, true_and]

namespace Cursor

variable {c stop : Cursor} {n : Nat}

theorem fits_iff :
    c.fits stop n = true ↔ c ≠ [] ∧ ∀ d ∈ c.distance stop, n ≤ d := by
  simp [fits]

/-- A cursor that has moved on is nearer to the end. -/
theorem distance_map_add (k : Nat) :
    distance (c.map (· + k)) stop = (c.distance stop).map (· - k) := by
  simp only [distance, List.zipWith_map_left, List.map_zipWith, Nat.sub_sub]

/-- Where something fits before an end that is no wrapped address, moving past it does
not wrap around. -/
theorem advance_of_fits (hpos : 0 < n) (hstop : ∀ e ∈ stop, e < Word.limit)
    (hlength : c.length ≤ stop.length) (h : ∀ d ∈ c.distance stop, n ≤ d) :
    c.advance n = c.map (· + n) := by
  induction c generalizing stop with
  | nil => rfl
  | cons a rest ih =>
    cases stop with
    | nil => simp at hlength
    | cons e stop =>
      simp only [distance, List.zipWith_cons_cons, List.forall_mem_cons] at h
      rw [List.forall_mem_cons] at hstop
      have hwrap : Word.wrap (a + n) = a + n := Word.wrap_of_lt (by omega)
      have hrest : advance rest n = rest.map (· + n) :=
        ih hstop.2 (by simpa using hlength) h.2
      simp only [advance, List.map_cons, hwrap] at hrest ⊢
      rw [hrest]

end Cursor

namespace Span

/-! ## Where elements are, and how many -/

/-- The cursor `i` strides behind the start, if no address wraps around. -/
def elementAt (span : Span) (i : Nat) : Cursor := span.start.map (· + i * span.stride)

/-- How many elements fit before the end, in the lane where these are the fewest. -/
def count (span : Span) : Nat :=
  ((span.start.distance span.stop).map (· / span.stride)).min?.getD 0

/-- The span has a start and an end in each of its lanes, and its ends are addresses. -/
structure InMemory (span : Span) : Prop where
  lanes : span.start.length = span.stop.length
  stop : ∀ e ∈ span.stop, e < Word.limit

variable {span : Span} {a b e f i : Nat}

@[simp] theorem elementAt_zero : span.elementAt 0 = span.start := by simp [elementAt]

theorem elementAt_succ :
    (span.elementAt i).map (· + span.stride) = span.elementAt (i + 1) := by
  simp only [elementAt, List.map_map, Function.comp_def, Nat.add_assoc, Nat.succ_mul]

/-- How many strides fit in a distance. -/
theorem fits_count {d stride : Nat} (hpos : 0 < stride) :
    stride ≤ d - i * stride ↔ i < d / stride := by
  rw [← Nat.succ_le_iff, Nat.le_div_iff_mul_le hpos, Nat.succ_mul]
  omega

theorem count_of_stride_zero (hzero : span.stride = 0) : span.count = 0 := by
  apply Nat.eq_zero_of_not_pos
  rw [count, lt_min?_iff]
  rintro ⟨hne, hall⟩
  obtain ⟨n, hn⟩ := List.exists_mem_of_ne_nil _ hne
  obtain ⟨d, -, rfl⟩ := List.mem_map.1 hn
  simpa [hzero] using hall _ hn

/-- Looking for elements up to the bound leaves none out: each takes a byte of
the first lane. -/
theorem count_le_elementBound : span.count ≤ span.elementBound span.start := by
  apply Nat.le_of_not_lt
  rw [count, lt_min?_iff]
  rintro ⟨hne, hall⟩
  cases hdistance : span.start.distance span.stop with
  | nil => simp [hdistance] at hne
  | cons d rest =>
    have hlt := hall (d / span.stride) (by simp [hdistance])
    simp only [elementBound, hdistance, List.headD_cons] at hlt
    exact Nat.not_lt.2 (Nat.div_le_self d span.stride) hlt

/-- Where all lanes have room for as many elements, so many are counted. -/
theorem count_eq_of_forall {n : Nat} (hne : span.start.distance span.stop ≠ [])
    (h : ∀ d ∈ span.start.distance span.stop, d / span.stride = n) :
    span.count = n := by
  have hmap : (span.start.distance span.stop).map (· / span.stride) =
      List.replicate (span.start.distance span.stop).length n :=
        List.map_eq_replicate_iff.2 h
  have hpos := List.length_pos_iff.2 hne
  rw [count, hmap, List.min?_replicate_of_pos hpos, Option.getD_some]

namespace InMemory

variable (h : span.InMemory)

include h

theorem lt_count_iff :
    i < span.count ↔ span.start ≠ [] ∧
      ∀ d ∈ span.start.distance span.stop, i < d / span.stride := by
  have hne : span.start.distance span.stop ≠ [] ↔ span.start ≠ [] := by
    rw [← List.length_pos_iff, ← List.length_pos_iff, Cursor.distance,
      List.length_zipWith, h.lanes, Nat.min_self]
  rw [count, lt_min?_iff, ← hne, List.forall_mem_map, ne_eq, List.map_eq_nil_iff]

/-- There is another element behind `i` of them exactly if more than `i` are counted. -/
theorem hasElement_elementAt :
    span.hasElement (span.elementAt i) = true ↔ i < span.count := by
  rcases Nat.eq_zero_or_pos span.stride with hzero | hpos
  · simp [hasElement, count_of_stride_zero hzero, hzero]
  · have hfits : (span.elementAt i).fits span.stop span.stride = true ↔
        i < span.count := by
      rw [h.lt_count_iff, Cursor.fits_iff, elementAt, Cursor.distance_map_add,
        List.forall_mem_map, ne_eq, List.map_eq_nil_iff]
      simp only [fits_count hpos]
    simp [hasElement, hfits, Nat.ne_of_gt hpos]

/-- Going on from an element leads to the next, around no end of memory. -/
theorem advance_elementAt (hi : i < span.count) :
    (span.elementAt i).advance span.stride = span.elementAt (i + 1) := by
  have hsome := h.hasElement_elementAt.2 hi
  simp only [hasElement, Bool.and_eq_true, bne_iff_ne, ne_eq] at hsome
  obtain ⟨hpos, hfits⟩ := hsome
  have hlength : (span.elementAt i).length ≤ span.stop.length := by
    simp [elementAt, h.lanes]
  rw [Cursor.advance_of_fits (Nat.pos_of_ne_zero hpos) h.stop hlength
    (Cursor.fits_iff.1 hfits).2, elementAt_succ]

/-- From an element on, those that are counted follow one another. -/
theorem elementsFrom_elementAt {bound : Nat} (hbound : span.count ≤ i + bound) :
    span.elementsFrom bound (span.elementAt i) =
        (List.range' i (span.count - i)).map span.elementAt := by
  induction bound generalizing i with
  | zero =>
    have hnone : span.count - i = 0 := Nat.sub_eq_zero_of_le hbound
    rw [elementsFrom, hnone]
    rfl
  | succ bound ih =>
    by_cases hi : i < span.count
    · have hmore : span.count - i = span.count - (i + 1) + 1 := by omega
      rw [elementsFrom, if_pos (h.hasElement_elementAt.2 hi), h.advance_elementAt hi,
        ih (by omega), hmore, List.range'_succ, List.map_cons]
    · have hnone : ¬ span.hasElement (span.elementAt i) = true :=
        mt h.hasElement_elementAt.1 hi
      rw [elementsFrom, if_neg hnone, Nat.sub_eq_zero_of_le (Nat.le_of_not_lt hi)]
      rfl

/-- Whatever bound is put on the elements that are looked for, none is left out if it
is large enough. -/
theorem elementsFrom_start {bound : Nat} (hbound : span.count ≤ bound) :
    span.elementsFrom bound span.start = (List.range span.count).map span.elementAt := by
  have hfrom := h.elementsFrom_elementAt (i := 0) (Nat.zero_add bound ▸ hbound)
  rwa [elementAt_zero, Nat.sub_zero, ← List.range_eq_range'] at hfrom

theorem elements_eq : span.elements = (List.range span.count).map span.elementAt :=
  h.elementsFrom_start count_le_elementBound

end InMemory

/-- Elements of no size are not found, whatever the lanes. -/
theorem elements_of_stride_zero (hzero : span.stride = 0) : span.elements = [] := by
  unfold elements
  cases span.elementBound span.start with
  | zero => rfl
  | succ bound => simp [elementsFrom, hasElement, hzero]

/-- In one lane, as many elements as fit follow one another. -/
theorem elements_one (hstart : span.start = [a]) (hstop : span.stop = [e])
    (hlimit : e < Word.limit) :
    span.elements = (List.range ((e - a) / span.stride)).map fun i =>
        [a + i * span.stride] := by
  have h : span.InMemory := ⟨by simp [hstart, hstop], by simpa [hstop] using hlimit⟩
  have hcount : span.count = (e - a) / span.stride := by
    simp [count, Cursor.distance, hstart, hstop]
  rw [h.elements_eq, hcount]
  simp [elementAt, hstart]

/-- In two lanes, as many elements as fit in both follow one another. -/
theorem elements_two (hstart : span.start = [a, b]) (hstop : span.stop = [e, f])
    (hlimit : e < Word.limit) (hlimit' : f < Word.limit) :
    span.elements = (List.range (min ((e - a) / span.stride) ((f - b) / span.stride))).map
      fun i => [a + i * span.stride, b + i * span.stride] := by
  have h : span.InMemory := ⟨by simp [hstart, hstop], by simp [hstop, hlimit, hlimit']⟩
  have hcount : span.count = min ((e - a) / span.stride) ((f - b) / span.stride) := by
    simp [count, Cursor.distance, hstart, hstop]
  rw [h.elements_eq, hcount]
  simp [elementAt, hstart]

end Span

end ShapeCode
