import ShapeCode.Proofs.Contents
import ShapeCode.Proofs.Lanes
import ShapeCode.Proofs.RunElements
import ShapeCode.Proofs.ValueTree

set_option autoImplicit false

/-!
# Two lanes are two walks of one lane

A walk over two lanes stands where two walks of one lane stand, node by node: it can
place a value if both can, and what it finds inside a pair of spots are the pairs of
what the two find, up to the shorter of two runs (`Scene.contents_pair_eq_ok_iff`).
This holds at spots whose heads have one key: where a union selects one variant in both
lanes, and a pointer is null in both or in none.  Elsewhere the lanes part, and the
order of the two values is decided.
-/

namespace ShapeCode

/-! ## Pairs of spots -/

/-- The spot in the lanes of both. -/
def Spot.pair (x y : Spot) : Spot := { x with cursor := x.cursor ++ y.cursor }

/-- Two spots at one node, each of one lane. -/
structure Spot.Twin (x y : Spot) : Prop where
  node : x.node = y.node
  inner : x.inner = y.inner
  left : ∃ a, x.cursor = [a]
  right : ∃ b, y.cursor = [b]

theorem Spot.Twin.eq_mk {x y : Spot} (h : x.Twin y) :
    ∃ node inner a b l l', x = ⟨node, inner, [a], l⟩ ∧
      y = ⟨node, inner, [b], l'⟩ := by
  obtain ⟨node, inner, c, l⟩ := x
  obtain ⟨_, _, c', l'⟩ := y
  obtain ⟨rfl, rfl, ⟨a, rfl⟩, ⟨b, rfl⟩⟩ := h
  exact ⟨node, inner, a, b, l, l', rfl, rfl⟩

/-- Spots that stand side by side are at one node. -/
def Twins : List Spot → List Spot → Prop
  | x :: xs, y :: ys => x.Twin y ∧ Twins xs ys
  | _, _ => True

theorem Twins.of_forall {xs ys : List Spot}
    (h : ∀ x ∈ xs, ∀ y ∈ ys, x.Twin y) : Twins xs ys := by
  induction xs generalizing ys with
  | nil => cases ys <;> trivial
  | cons x xs ih =>
    cases ys with
    | nil => trivial
    | cons y ys =>
      refine ⟨h x List.mem_cons_self y List.mem_cons_self, ih fun x' hx' y' hy' => ?_⟩
      exact h x' (List.mem_cons_of_mem x hx') y' (List.mem_cons_of_mem y hy')

theorem Spot.Sound.pair {t : Tables} {x : Spot} (hx : x.Sound t)
    (y : Spot) : (x.pair y).Sound t :=
  ⟨hx.ids, hx.single, hx.inner⟩

namespace Walk

variable {t : Tables} {single aligned : Bool} {a b : Nat}

theorem spots_cons_eq_ok_iff {node : Node} {inner rest : Outline} {c : Cursor}
    {xs : List Spot} :
    spots t single (.cons node inner rest) c aligned = .ok xs ↔
      ∃ l c', node.layout t inner = .ok l ∧ place aligned l.align c = .ok c' ∧
        ((single = true ∧ xs = [⟨node, inner, c', l⟩]) ∨
          (single = false ∧
            ∃ later, spots t false rest (c'.advance l.size) true = .ok later ∧
            xs = ⟨node, inner, c', l⟩ :: later)) := by
  constructor
  · intro h
    simp only [spots] at h
    split at h
    · cases h
    · rename_i l hl
      split at h
      · cases h
      · rename_i c' hplace
        refine ⟨l, c', hl, hplace, ?_⟩
        cases single with
        | true => exact .inl ⟨rfl, (Except.ok.inj h).symm⟩
        | false =>
          simp only [Bool.false_eq_true, if_false] at h
          split at h
          · cases h
          · rename_i later hlater
            exact .inr ⟨rfl, later, hlater, (Except.ok.inj h).symm⟩
  · rintro ⟨l, c', hl, hplace, ⟨rfl, rfl⟩ | ⟨rfl, later, hlater, rfl⟩⟩
    · simp [spots, hl, hplace]
    · simp [spots, hl, hplace, hlater]

/-- Two lanes can be placed if each can. -/
theorem place_two_eq_ok_iff {align : Nat} {c : Cursor} :
    place aligned align [a, b] = .ok c ↔
      ∃ a' b', place aligned align [a] = .ok [a'] ∧
        place aligned align [b] = .ok [b'] ∧ c = [a', b'] := by
  cases aligned with
  | false =>
    simp only [place, Bool.false_eq_true, if_false, Except.ok.injEq,
      List.cons.injEq, and_true]
    constructor
    · intro h
      exact ⟨a, b, rfl, rfl, h.symm⟩
    · rintro ⟨a', b', rfl, rfl, rfl⟩
      rfl
  | true =>
    simp only [place, if_true, Cursor.alignUp, mapM_cons_eq_ok_iff]
    constructor
    · rintro ⟨a', later, ha, ⟨b', last, hb, hlast, rfl⟩, rfl⟩
      obtain rfl := Except.ok.inj hlast
      exact ⟨a', b', ⟨a', [], ha, rfl, rfl⟩, ⟨b', [], hb, rfl, rfl⟩, rfl⟩
    · rintro ⟨a', b', ⟨_, _, ha, hnil, ha'⟩, ⟨_, _, hb, hnil', hb'⟩, rfl⟩
      obtain rfl := Except.ok.inj hnil
      obtain rfl := Except.ok.inj hnil'
      obtain rfl := List.singleton_inj.1 ha'
      obtain rfl := List.singleton_inj.1 hb'
      exact ⟨_, _, ha, ⟨_, _, hb, rfl, rfl⟩, rfl⟩

/-- The spots of two lanes are the pairs of the spots of each. -/
theorem spots_two_eq_ok_iff {o : Outline} {zs : List Spot} :
    spots t single o [a, b] aligned = .ok zs ↔
      ∃ xs ys, spots t single o [a] aligned = .ok xs ∧
        spots t single o [b] aligned = .ok ys ∧
        zs = List.zipWith Spot.pair xs ys := by
  induction o generalizing single aligned a b zs with
  | done => cases single <;> simp [spots, eq_comm]
  | broken f => simp [spots]
  | cons node inner rest _ ih =>
    constructor
    · intro h
      obtain ⟨l, c, hl, hplace, hzs⟩ := spots_cons_eq_ok_iff.1 h
      obtain ⟨a', b', ha, hb, rfl⟩ := place_two_eq_ok_iff.1 hplace
      rcases hzs with ⟨rfl, rfl⟩ | ⟨rfl, later, hlater, rfl⟩
      · exact ⟨_, _, spots_cons_eq_ok_iff.2 ⟨l, _, hl, ha, .inl ⟨rfl, rfl⟩⟩,
          spots_cons_eq_ok_iff.2 ⟨l, _, hl, hb, .inl ⟨rfl, rfl⟩⟩, rfl⟩
      · obtain ⟨xs, ys, hxs, hys, rfl⟩ := ih.1 hlater
        exact ⟨_, _,
          spots_cons_eq_ok_iff.2 ⟨l, _, hl, ha, .inr ⟨rfl, xs, hxs, rfl⟩⟩,
          spots_cons_eq_ok_iff.2 ⟨l, _, hl, hb, .inr ⟨rfl, ys, hys, rfl⟩⟩, rfl⟩
    · rintro ⟨xs, ys, hxs, hys, rfl⟩
      obtain ⟨l, c, hl, ha, hleft⟩ := spots_cons_eq_ok_iff.1 hxs
      obtain ⟨l', c', hl', hb, hright⟩ := spots_cons_eq_ok_iff.1 hys
      obtain rfl := Except.ok.inj (hl.symm.trans hl')
      obtain ⟨a', rfl⟩ := place_single ha
      obtain ⟨b', rfl⟩ := place_single hb
      have hplace := place_two_eq_ok_iff.2 ⟨a', b', ha, hb, rfl⟩
      rcases hleft with ⟨rfl, rfl⟩ | ⟨rfl, left, hleft, rfl⟩
      · rcases hright with ⟨-, rfl⟩ | ⟨hsingle, -⟩
        · exact spots_cons_eq_ok_iff.2 ⟨l, _, hl, hplace, .inl ⟨rfl, rfl⟩⟩
        · cases hsingle
      · rcases hright with ⟨hsingle, -⟩ | ⟨-, right, hright, rfl⟩
        · cases hsingle
        · exact spots_cons_eq_ok_iff.2 ⟨l, _, hl, hplace,
            .inr ⟨rfl, _, ih.2 ⟨left, right, hleft, hright, rfl⟩, rfl⟩⟩

/-- Two walks over one range come to the same nodes. -/
theorem twins_of_spots {o : Outline} {xs ys : List Spot}
    (hxs : spots t single o [a] aligned = .ok xs)
    (hys : spots t single o [b] aligned = .ok ys) :
    Twins xs ys ∧ xs.length = ys.length := by
  induction o generalizing single aligned a b xs ys with
  | done =>
    cases single with
    | true => cases hxs
    | false =>
      obtain rfl := Except.ok.inj hxs
      obtain rfl := Except.ok.inj hys
      exact ⟨trivial, rfl⟩
  | broken f => cases hxs
  | cons node inner rest _ ih =>
    obtain ⟨l, c, hl, ha, hleft⟩ := spots_cons_eq_ok_iff.1 hxs
    obtain ⟨l', c', hl', hb, hright⟩ := spots_cons_eq_ok_iff.1 hys
    obtain ⟨a', rfl⟩ := place_single ha
    obtain ⟨b', rfl⟩ := place_single hb
    have htwin : Spot.Twin ⟨node, inner, [a'], l⟩ ⟨node, inner, [b'], l'⟩ :=
      ⟨rfl, rfl, ⟨a', rfl⟩, ⟨b', rfl⟩⟩
    rcases hleft with ⟨rfl, rfl⟩ | ⟨rfl, left, hleft, rfl⟩
    · rcases hright with ⟨-, rfl⟩ | ⟨hsingle, -⟩
      · exact ⟨⟨htwin, trivial⟩, rfl⟩
      · cases hsingle
    · rcases hright with ⟨hsingle, -⟩ | ⟨-, right, hright, rfl⟩
      · cases hsingle
      · obtain ⟨htwins, hlength⟩ := ih hleft hright
        exact ⟨⟨htwin, htwins⟩, by simp [hlength]⟩

end Walk

/-! ## Runs -/

namespace Span

variable {t : Tables} {m : Memory} {form : RunForm} {plain : Bool} {elem : Bytes}
  {inner : Outline} {a b : Nat}
  {span : Span}

theorem resolve_one_eq_ok_iff :
    resolve t m form plain elem inner [a] = .ok span ↔
      ∃ spacing e, inner.spacing t = .ok spacing ∧ laneStop m spacing form a = .ok e ∧
        span = ⟨form, plain, elem, spacing.stride,
          [laneStart m spacing.dataOffset form a], [e]⟩ := by
  unfold resolve
  cases inner.spacing t with
  | error f => simp
  | ok spacing =>
    simp only [Except.ok.injEq, List.mapM_cons, List.mapM_nil]
    cases ha : laneStop m spacing form a with
    | error f => simp [ha, bind, Except.bind]
    | ok e => simp [ha, bind, Except.bind, pure, Except.pure, eq_comm]

/-- The elements of two runs side by side. -/
def pair (span other : Span) : Span :=
  { span with start := span.start ++ other.start, stop := span.stop ++ other.stop }

/-- A run of two lanes can be resolved if each can. -/
theorem resolve_two_eq_ok_iff :
    resolve t m form plain elem inner [a, b] = .ok span ↔
      ∃ left right, resolve t m form plain elem inner [a] = .ok left ∧
        resolve t m form plain elem inner [b] = .ok right ∧ span = left.pair right := by
  unfold resolve
  cases inner.spacing t with
  | error f => simp
  | ok spacing =>
    simp only [List.mapM_cons, List.mapM_nil]
    cases laneStop m spacing form a with
    | error f => simp [bind, Except.bind]
    | ok e =>
      cases laneStop m spacing form b with
      | error f => simp [bind, Except.bind]
      | ok f => simp [bind, Except.bind, pure, Except.pure, pair, eq_comm]

theorem laneStop_lt {spacing : Spacing} {e : Nat}
    (h : laneStop m spacing form a = .ok e) : e < Word.limit := by
  cases form with
  | slice isStr =>
    obtain rfl := Except.ok.inj h
    exact Word.wrap_lt _
  | vec | unboxedVec | fixedVec =>
    simp only [laneStop] at h
    split at h
    · cases h
    · obtain rfl := Except.ok.inj h
      exact Word.wrap_lt _

end Span

theorem zipWith_range {α : Type} (f : Nat → Nat → α) (m n : Nat) :
    List.zipWith f (List.range m) (List.range n) =
        (List.range (min m n)).map fun i => f i i := by
  apply List.ext_getElem
  · simp
  · simp

theorem ValueTree.head_pointer (m : Memory) (form : PointerForm) (bytes : Bytes) (a : Nat) :
    head m (.pointer form bytes) [a] (.pointer ([a].map m.word)) =
      if m.word a = 0 then .null form else .pointer form := by
  simp [head, @eq_comm _ 0]

/-- Two pointers have one key if both are null or neither is. -/
theorem ValueTree.key_pointer_eq_iff {m : Memory} {form : PointerForm} {bytes : Bytes}
    {a b : Nat} :
    (head m (.pointer form bytes) [a] (.pointer ([a].map m.word))).key =
        (head m (.pointer form bytes) [b] (.pointer ([b].map m.word))).key ↔
        (m.word a = 0 ↔ m.word b = 0) := by
  rw [head_pointer, head_pointer]
  by_cases ha : m.word a = 0 <;> by_cases hb : m.word b = 0 <;> simp [ha, hb, Head.key]

namespace Scene

variable {s : Scene} {node : Node} {inner : Outline} {l l' : Layout} {a b : Nat}

/-- The elements of a run in two lanes are the pairs of the elements in each, up to
the shorter run. -/
theorem contents_run (ht : s.tables.Verified) {form : RunForm} {plain : Bool} {elem : Bytes}
    {left right : Span} (hx : Spot.Sound s.tables ⟨.run form plain elem, inner, [a], l⟩)
    (hleft : Span.resolve s.tables s.mem form plain elem inner [a] = .ok left)
    (hright : Span.resolve s.tables s.mem form plain elem inner [b] = .ok right) :
    ∃ xs ys, s.contents ⟨.run form plain elem, inner, [a], l⟩ = .ok xs ∧
      s.contents ⟨.run form plain elem, inner, [b], l'⟩ = .ok ys ∧
      s.contents ⟨.run form plain elem, inner, [a, b], l⟩ =
        .ok (List.zipWith Spot.pair xs ys) ∧ Twins xs ys ∧
      ∃ stride, xs.length = (left.start.distance left.stop).headD 0 / stride ∧
        ys.length = (right.start.distance right.stop).headD 0 / stride := by
  have htwo := Span.resolve_two_eq_ok_iff.2 ⟨left, right, hleft, hright, rfl⟩
  obtain ⟨spacing, e, hspacing, he, rfl⟩ := Span.resolve_one_eq_ok_iff.1 hleft
  obtain ⟨spacing', f, hspacing', hf, rfl⟩ := Span.resolve_one_eq_ok_iff.1 hright
  obtain rfl := Except.ok.inj (hspacing.symm.trans hspacing')
  obtain ⟨node, elem', layout, -, hspots⟩ :=
    ht.elementSpots_of_spacing hx.inner (hx.single rfl) hspacing
  change ∀ cs, Walk.elementSpots s.tables inner cs = _ at hspots
  simp only [contents, hleft, hright, htwo, hspots]
  rw [Span.elements_one rfl rfl (Span.laneStop_lt he),
    Span.elements_one rfl rfl (Span.laneStop_lt hf),
    Span.elements_two rfl rfl (Span.laneStop_lt he) (Span.laneStop_lt hf)]
  refine ⟨_, _, rfl, rfl, ?_, ?_, spacing.stride,
    by simp [Cursor.distance], by simp [Cursor.distance]⟩
  · simp only [List.map_map, List.zipWith_map, zipWith_range]
    rfl
  · apply Twins.of_forall
    simp only [List.map_map, List.mem_map, Function.comp_apply]
    rintro _ ⟨i, -, rfl⟩ _ ⟨j, -, rfl⟩
    exact ⟨rfl, rfl, ⟨_, rfl⟩, ⟨_, rfl⟩⟩

/-! ## Contents of pairs -/

/-- What is read of the value at a spot of one lane. -/
def head (s : Scene) (x : Spot) : Except Fault Head :=
  match s.content x.node x.inner x.cursor with
  | .error f => .error f
  | .ok content => .ok (ValueTree.head s.mem x.node x.cursor content)

theorem head_eq_ok_iff {x : Spot} {h : Head} :
    s.head x = .ok h ↔ ∃ content, s.content x.node x.inner x.cursor = .ok content ∧
      h = ValueTree.head s.mem x.node x.cursor content := by
  unfold head
  cases s.content x.node x.inner x.cursor with
  | error f => simp
  | ok content => simp [eq_comm]

/-- The discriminant of a union in one lane. -/
def discriminant (s : Scene) (u : Union) (a : Nat) : Nat :=
  if u.hasDiscriminant then s.mem.word a else 0

theorem discriminants_eq_map (u : Union) (c : Cursor) :
    s.discriminants u c = c.map (s.discriminant u) := by
  unfold discriminants discriminant Cursor.splat
  split <;> rfl

/-- A run that has contents can be resolved. -/
theorem span_of_contents_run {form : RunForm} {plain : Bool} {elem : Bytes} {c : Cursor}
    {xs : List Spot} (h : s.contents ⟨.run form plain elem, inner, c, l⟩ = .ok xs) :
    ∃ span, Span.resolve s.tables s.mem form plain elem inner c = .ok span := by
  simp only [contents] at h
  split at h
  · cases h
  · exact ⟨_, by assumption⟩

/-- Where two heads have one key, what is inside is one range in both lanes, unless it
is the elements of runs. -/
theorem contents_eq_spots {h k : Head} (hh : s.head ⟨node, inner, [a], l⟩ = .ok h)
    (hk : s.head ⟨node, inner, [b], l'⟩ = .ok k) (hkey : h.key = k.key)
    (hrun : ∀ form plain elem, node ≠ .run form plain elem) :
    ∃ single o a' b' aligned, s.contents ⟨node, inner, [a], l⟩ =
        Walk.spots s.tables single o [a'] aligned ∧
      s.contents ⟨node, inner, [b], l'⟩ = Walk.spots s.tables single o [b'] aligned ∧
      s.contents ⟨node, inner, [a, b], l⟩ =
        Walk.spots s.tables single o [a', b'] aligned := by
  obtain ⟨cx, hcx, rfl⟩ := head_eq_ok_iff.1 hh
  obtain ⟨cy, hcy, rfl⟩ := head_eq_ok_iff.1 hk
  cases node with
  | scalar | handle => exact ⟨false, .done, a, b, false, rfl, rfl, rfl⟩
  | record | resource => exact ⟨false, inner, a, b, false, rfl, rfl, rfl⟩
  | run form plain elem => exact absurd rfl (hrun form plain elem)
  | union id =>
    obtain ⟨u, hu, rfl⟩ := content_union_eq_ok_iff.1 hcx
    obtain ⟨u', hu', rfl⟩ := content_union_eq_ok_iff.1 hcy
    obtain rfl := Except.ok.inj (hu.symm.trans hu')
    have hselected : s.discriminant u a = s.discriminant u b := by
      simpa [ValueTree.head, Head.key, discriminants_eq_map, Int.natCast_inj] using hkey
    simp only [contents, inside, variantSpots, hu, discriminants_eq_map, List.map_cons,
      List.map_nil, ← hselected]
    cases u.variant (s.discriminant u a) with
    | error f => exact ⟨false, .broken f, a, b, false, rfl, rfl, rfl⟩
    | ok fields =>
      cases u.hasDiscriminant with
      | true => exact ⟨false, _, _, _, true, rfl, rfl, rfl⟩
      | false => exact ⟨false, _, a, b, false, rfl, rfl, rfl⟩
  | pointer form bytes =>
    obtain rfl := Except.ok.inj hcx
    obtain rfl := Except.ok.inj hcy
    have hnull := ValueTree.key_pointer_eq_iff.1 hkey
    by_cases ha : s.mem.word a = 0
    · refine ⟨false, .done, a, b, false, ?_, ?_, ?_⟩
        <;> simp [contents, Walk.spots, ha, hnull.1 ha]
    · have hb := mt hnull.2 ha
      simp only [contents, target, List.map_cons, List.map_nil, List.contains_cons,
        List.contains_nil, Bool.or_false, beq_iff_eq, Bool.or_eq_true, Ne.symm ha,
        Ne.symm hb, or_self, if_false]
      cases s.targetOffset form inner with
      | error f => exact ⟨false, .broken f, a, b, false, rfl, rfl, rfl⟩
      | ok offset => exact ⟨true, inner, _, _, false, rfl, rfl, rfl⟩

variable {x y : Spot} {h k : Head} {xs ys zs : List Spot}

/-- Where two heads have one key, what is inside a pair of spots are the pairs of what
is inside each. -/
theorem contents_pair_eq_ok_iff (ht : s.tables.Verified) (hx : x.Sound s.tables)
    (hxy : x.Twin y) (hh : s.head x = .ok h) (hk : s.head y = .ok k)
    (hkey : h.key = k.key) :
    s.contents (x.pair y) = .ok zs ↔
      ∃ xs ys, s.contents x = .ok xs ∧ s.contents y = .ok ys ∧
        zs = List.zipWith Spot.pair xs ys := by
  obtain ⟨node, inner, a, b, l, l', rfl, rfl⟩ := hxy.eq_mk
  by_cases hrun : ∃ form plain elem, node = .run form plain elem
  · -- The lanes of a run are resolved apart, and then its elements are known.
    obtain ⟨form, plain, elem, rfl⟩ := hrun
    constructor
    · intro hzs
      obtain ⟨span, hspan⟩ := span_of_contents_run hzs
      obtain ⟨left, right, hleft, hright, -⟩ := Span.resolve_two_eq_ok_iff.1 hspan
      obtain ⟨xs, ys, hxs, hys, hpairs, -⟩ := contents_run ht hx hleft hright
      exact ⟨xs, ys, hxs, hys, Except.ok.inj (hzs.symm.trans hpairs)⟩
    · rintro ⟨xs, ys, hxs, hys, rfl⟩
      obtain ⟨left, hleft⟩ := span_of_contents_run hxs
      obtain ⟨right, hright⟩ := span_of_contents_run hys
      obtain ⟨xs', ys', hxs', hys', hpairs, -⟩ := contents_run ht hx hleft hright
      obtain rfl := Except.ok.inj (hxs.symm.trans hxs')
      obtain rfl := Except.ok.inj (hys.symm.trans hys')
      exact hpairs
  · push Not at hrun
    obtain ⟨single, o, a', b', aligned, hleft, hright, hpair⟩ :=
      contents_eq_spots hh hk hkey hrun
    rw [hleft, hright]
    exact hpair ▸ Walk.spots_two_eq_ok_iff

/-- Where two heads have one key, what is inside is at one node side by side, and only
the longer of two runs has more elements. -/
theorem twins_of_contents (ht : s.tables.Verified) (hx : x.Sound s.tables) (hxy : x.Twin y)
    (hh : s.head x = .ok h) (hk : s.head y = .ok k) (hkey : h.key = k.key)
    (hxs : s.contents x = .ok xs) (hys : s.contents y = .ok ys) :
    Twins xs ys ∧ (xs.length < ys.length → h.length < k.length) ∧
      (ys.length < xs.length → k.length < h.length) := by
  obtain ⟨node, inner, a, b, l, l', rfl, rfl⟩ := hxy.eq_mk
  by_cases hrun : ∃ form plain elem, node = .run form plain elem
  · obtain ⟨form, plain, elem, rfl⟩ := hrun
    obtain ⟨left, hleft⟩ := span_of_contents_run hxs
    obtain ⟨right, hright⟩ := span_of_contents_run hys
    obtain ⟨xs', ys', hxs', hys', -, htwins, stride, hlength, hlength'⟩ :=
      contents_run ht hx hleft hright
    obtain rfl := Except.ok.inj (hxs.symm.trans hxs')
    obtain rfl := Except.ok.inj (hys.symm.trans hys')
    -- The length in bytes of a run is what its elements are counted from.
    simp only [head, content, hleft, hright, Except.ok.injEq] at hh hk
    rw [← hh, ← hk, hlength, hlength']
    exact ⟨htwins, Nat.lt_of_div_lt_div, Nat.lt_of_div_lt_div⟩
  · push Not at hrun
    obtain ⟨single, o, a', b', aligned, hleft, hright, -⟩ :=
      contents_eq_spots hh hk hkey hrun
    rw [hleft] at hxs
    rw [hright] at hys
    obtain ⟨htwins, hlength⟩ := Walk.twins_of_spots hxs hys
    exact ⟨htwins, by omega, by omega⟩

end Scene

end ShapeCode
