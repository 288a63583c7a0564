import ShapeCode.Proofs.LittleEndian
import ShapeCode.Proofs.TwoLanes
import ShapeCode.Value.Order

set_option autoImplicit false

/-!
# One step of a comparison

A comparison looks at a pair of spots and compares what it reads of each: two heads, by
their keys.  If these are the same it goes on inside, and what is inside decides, or else
the lengths of two runs do (`Compared`).  This is so for shapes without floating-point
numbers, which are ordered by no key: a number that is none is not equal to itself.
-/

namespace ShapeCode

/-! ## Shapes without floats -/

/-- Whether the node is a floating-point number. -/
def Node.isFloat : Node → Bool
  | .scalar .f32 | .scalar .f64 => true
  | _ => false

/-- Whether no node is a floating-point number, at any depth. -/
def Outline.floatFree : Outline → Bool
  | .done | .broken _ => true
  | .cons node inner rest => !node.isFloat && inner.floatFree && rest.floatFree

/-- No variant of a union has a floating-point number. -/
def Tables.FloatFree (t : Tables) : Prop :=
  ∀ u ∈ t.unions, ∀ fields ∈ u.variants, (Outline.ofBytes fields).floatFree = true

instance (t : Tables) : Decidable t.FloatFree :=
  inferInstanceAs (Decidable (∀ u ∈ t.unions, ∀ fields ∈ u.variants,
    (Outline.ofBytes fields).floatFree = true))

/-- Neither the root nor any variant has a floating-point number. -/
structure Descriptor.FloatFree (d : Descriptor) : Prop where
  root : (Outline.ofBytes d.shape).floatFree = true
  tables : d.tables.FloatFree

/-- There is no floating-point number at the spot and none in its nested range. -/
structure Spot.FloatFree (x : Spot) : Prop where
  node : x.node.isFloat = false
  inner : x.inner.floatFree = true

theorem Outline.floatFree_spot {o : Outline} (ho : o.floatFree = true) {x : Spot}
    (hx : o.Has x.node x.inner) : x.FloatFree := by
  induction o with
  | done => exact False.elim hx
  | broken f => exact False.elim hx
  | cons node inner rest _ ih =>
    simp only [floatFree, Bool.and_eq_true, Bool.not_eq_true'] at ho
    rcases hx with ⟨hnode, hinner⟩ | hx
    · exact ⟨hnode ▸ ho.1.1, hinner ▸ ho.1.2⟩
    · exact ih ho.2 hx

theorem Spot.FloatFree.contents {s : Scene} (ht : s.tables.FloatFree) {x : Spot}
    (hx : x.FloatFree) {ys : List Spot} (hys : s.contents x = .ok ys) :
    ∀ y ∈ ys, y.FloatFree := by
  intro y hy
  rcases Scene.has_of_contents hys hy
    with ⟨-, hhas⟩ | ⟨id, u, v, fields, -, hu, hfields, hhas⟩
  · exact Outline.floatFree_spot hx.inner hhas
  · exact Outline.floatFree_spot
      (ht u (Tables.mem_of_union hu) fields (Union.mem_of_variant hfields)) hhas

/-! ## Keys -/

theorem Scalar.signed_eq_toInt {width n : Nat} (h : n < 256 ^ width) :
    signed width n = (BitVec.ofNat (8 * width) n).toInt := by
  have hpow : 256 ^ width = 2 ^ (8 * width) := Nat.pow_mul 2 8 width ▸ rfl
  rw [BitVec.toInt_eq_toNat_cond, BitVec.toNat_ofNat,
    Nat.mod_eq_of_lt (hpow ▸ h), ← hpow]
  rfl

theorem compare_natCast (a b : Nat) : compare (a : Int) (b : Int) = compare a b := by
  rcases Nat.lt_trichotomy a b with h | h | h
  · rw [Nat.compare_eq_lt.2 h, Int.compare_eq_lt.2 (Int.ofNat_lt.2 h)]
  · rw [h, Nat.compare_eq_eq.2 rfl, Int.compare_eq_eq.2 rfl]
  · rw [Nat.compare_eq_gt.2 h, Int.compare_eq_gt.2 (Int.ofNat_lt.2 h)]

theorem then_of_ne {o : Ordering} (h : o ≠ .eq) (o' : Ordering) : o.then o' = o := by
  cases o with
  | eq => exact absurd rfl h
  | lt | gt => rfl

/-- Scalars that are no floats are ordered by what they stand for. -/
theorem Scalar.order_eq_compare {s : Scalar} (hs : (Node.scalar s).isFloat = false)
    {a b : Nat} (ha : a < 256 ^ s.size) (hb : b < 256 ^ s.size) :
    s.order a b = compare (s.reading a) (s.reading b) := by
  cases s with
  | f32 | f64 => cases hs
  | unit => rfl
  | bool | char | u8 | u16 | u32 | u64 => exact (compare_natCast a b).symm
  | i8 | i16 | i32 | i64 =>
    simp only [order, reading, signed_eq_toInt ha, signed_eq_toInt hb]

theorem Scalar.number_lt (s : Scalar) (m : Memory) (a : Nat) :
    s.number m a < 256 ^ s.size := by
  have h := Bytes.toNat_lt (m.bytes a s.size)
  rwa [Memory.length_bytes] at h

theorem ValueOrder.words_eq_compare (m : Memory) (n a b : Nat) :
    words m n [a, b] =
      compare ((ValueTree.words m n a).map Int.ofNat)
        ((ValueTree.words m n b).map Int.ofNat) := by
  induction n generalizing a b with
  | zero => rfl
  | succ n ih =>
    have hhead : lanes ([a, b].map m.word) =
        compare (Int.ofNat (m.word a)) (Int.ofNat (m.word b)) := by
      rw [Int.ofNat_eq_natCast, Int.ofNat_eq_natCast, compare_natCast]
      rfl
    have hadvance : Cursor.advance [a, b] Word.size =
        [Word.wrap (a + Word.size), Word.wrap (b + Word.size)] :=
      rfl
    rw [words, hhead, hadvance, ih]
    simp only [ValueTree.words, List.map_cons, List.compare_cons_cons]

/-! ## The step -/

/-- What is found at a node in both of two lanes. -/
def Content.pair : Content → Content → Content
  | .union u ds, .union _ es => .union u (ds ++ es)
  | .run span, .run other => .run (span.pair other)
  | .pointer cells, .pointer others => .pointer (cells ++ others)
  | content, _ => content

namespace Scene

variable {s : Scene} {node : Node} {inner : Outline} {a b : Nat} {cx cy : Content}

/-- Something is found in two lanes if it is in each. -/
theorem content_two_eq_ok_iff {content : Content} :
    s.content node inner [a, b] = .ok content ↔
      ∃ cx cy, s.content node inner [a] = .ok cx ∧
        s.content node inner [b] = .ok cy ∧ content = cx.pair cy := by
  cases node with
  | scalar | handle | record | resource | pointer =>
    simp [Scene.content, Content.pair, eq_comm]
  | union id =>
    simp only [content_union_eq_ok_iff]
    constructor
    · rintro ⟨u, hu, rfl⟩
      exact ⟨_, _, ⟨u, hu, rfl⟩, ⟨u, hu, rfl⟩,
        by simp [Content.pair, discriminants_eq_map]⟩
    · rintro ⟨_, _, ⟨u, hu, rfl⟩, ⟨u', hu', rfl⟩, rfl⟩
      obtain rfl := Except.ok.inj (hu.symm.trans hu')
      exact ⟨u, hu, by simp [Content.pair, discriminants_eq_map]⟩
  | run form plain elem =>
    simp only [content_run_eq_ok_iff]
    constructor
    · rintro ⟨span, hspan, rfl⟩
      obtain ⟨left, right, hleft, hright, rfl⟩ := Span.resolve_two_eq_ok_iff.1 hspan
      exact ⟨_, _, ⟨left, hleft, rfl⟩, ⟨right, hright, rfl⟩, rfl⟩
    · rintro ⟨_, _, ⟨left, hleft, rfl⟩, ⟨right, hright, rfl⟩, rfl⟩
      exact ⟨_, Span.resolve_two_eq_ok_iff.2 ⟨left, right, hleft, hright, rfl⟩, rfl⟩

end Scene

namespace ValueOrder

variable {s : Scene} {node : Node} {inner : Outline} {a b : Nat} {cx cy : Content}

theorem compare_singleton (i j : Int) : compare [i] [j] = compare i j := by
  rw [List.compare_cons_cons, List.compare_nil_nil, Ordering.then_eq]

/-- What becomes of a comparison at a node where the heads `h` and `k` are read: it is
decided, or it goes inside, or there is nothing inside. -/
inductive Entered (s : Scene) (node : Node) (inner : Outline) (a b : Nat) (h k : Head) :
    Ordering × Bool → Prop where
  | decided (hne : compare h.key k.key ≠ .eq) :
      Entered s node inner a b h k (compare h.key k.key, false)
  | goes (heq : compare h.key k.key = .eq) : Entered s node inner a b h k (.eq, true)
  | leaf (heq : compare h.key k.key = .eq) (hlength : h.length = k.length)
      (hunion : ∀ id, node ≠ .union id)
      (hleft : ∀ l, s.contents ⟨node, inner, [a], l⟩ = .ok [])
      (hright : ∀ l, s.contents ⟨node, inner, [b], l⟩ = .ok []) :
      Entered s node inner a b h k (.eq, false)

theorem Entered.of_leaf {h k : Head} {o : Ordering} (ho : o = compare h.key k.key)
    (hlength : h.length = k.length) (hunion : ∀ id, node ≠ .union id)
    (hleft : ∀ l, s.contents ⟨node, inner, [a], l⟩ = .ok [])
    (hright : ∀ l, s.contents ⟨node, inner, [b], l⟩ = .ok []) :
    Entered s node inner a b h k (o, false) := by
  subst ho
  by_cases heq : compare h.key k.key = .eq
  · rw [heq]
    exact .leaf heq hlength hunion hleft hright
  · exact .decided heq

/-- A comparison is decided at a node if the keys of the heads there differ. -/
theorem enter_pair (hfloat : node.isFloat = false) (hcx : s.content node inner [a] = .ok cx)
    (hcy : s.content node inner [b] = .ok cy) :
    Entered s node inner a b (ValueTree.head s.mem node [a] cx)
        (ValueTree.head s.mem node [b] cy)
      (enter s.mem node [a, b] (cx.pair cy) .eq) := by
  cases node with
  | scalar s' =>
    have horder : scalars s.mem s' [a, b] = compare (Head.scalar s' (s'.number s.mem a)).key
        (Head.scalar s' (s'.number s.mem b)).key := by
      simp only [Head.key, compare_singleton]
      exact Scalar.order_eq_compare hfloat (s'.number_lt _ _) (s'.number_lt _ _)
    exact .of_leaf horder rfl (by simp) (fun _ => rfl) (fun _ => rfl)
  | handle h =>
    exact .of_leaf (words_eq_compare s.mem h.words a b) rfl (by simp)
      (fun _ => rfl) (fun _ => rfl)
  | record | resource => exact .goes rfl
  | union id =>
    obtain ⟨u, hu, rfl⟩ := Scene.content_union_eq_ok_iff.1 hcx
    obtain ⟨u', hu', rfl⟩ := Scene.content_union_eq_ok_iff.1 hcy
    obtain rfl := Except.ok.inj (hu.symm.trans hu')
    have hkey : compare (Head.union (s.discriminant u a)).key
        (Head.union (s.discriminant u b)).key =
        compare (s.discriminant u a) (s.discriminant u b) := by
      simp only [Head.key, compare_singleton, compare_natCast]
    simp only [ValueTree.head, Content.pair, enter, Scene.discriminants_eq_map,
      List.map_cons, List.map_nil, List.headD_cons, List.cons_append,
      List.nil_append, lanes, ← hkey]
    split
    · rename_i heq
      exact .goes heq
    · rename_i hne
      exact .decided hne
  | run form plain elem =>
    obtain ⟨left, -, rfl⟩ := Scene.content_run_eq_ok_iff.1 hcx
    obtain ⟨right, -, rfl⟩ := Scene.content_run_eq_ok_iff.1 hcy
    exact .goes rfl
  | pointer form bytes =>
    obtain rfl := Except.ok.inj hcx
    obtain rfl := Except.ok.inj hcy
    rw [ValueTree.head_pointer, ValueTree.head_pointer]
    by_cases ha : s.mem.word a = 0 <;> by_cases hb : s.mem.word b = 0 <;>
      simp only [enter, Content.pair, List.map_cons, List.map_nil, List.cons_append,
        List.nil_append, ha, hb, if_true, if_false]
    · refine .of_leaf rfl rfl (by simp) ?_ ?_ <;> simp [Scene.contents, ha, hb]
    · exact .decided (by simp [Head.key])
    · simp only [List.contains_cons, beq_self_eq_true, Bool.or_true, Bool.true_or, if_true]
      exact .decided (by simp [Head.key])
    · simp only [List.contains_cons, List.contains_nil, beq_false_of_ne (Ne.symm ha),
        beq_false_of_ne (Ne.symm hb), Bool.or_false, Bool.false_eq_true, if_false]
      exact .goes rfl

/-- Behind what is inside, runs are compared by length. -/
theorem leave_pair (hcx : s.content node inner [a] = .ok cx)
    (hcy : s.content node inner [b] = .ok cy) (o : Ordering) :
    leave (cx.pair cy) o =
      o.then (compare (ValueTree.head s.mem node [a] cx).length
        (ValueTree.head s.mem node [b] cy).length) := by
  cases node with
  | scalar | handle | record | resource =>
    obtain rfl := Except.ok.inj hcx
    obtain rfl := Except.ok.inj hcy
    cases o <;> rfl
  | pointer form bytes =>
    obtain rfl := Except.ok.inj hcx
    obtain rfl := Except.ok.inj hcy
    have hlength : ∀ a,
        (ValueTree.head s.mem (.pointer form bytes)
          [a] (.pointer ([a].map s.mem.word))).length = 0 := by
      intro a
      simp only [ValueTree.head]
      split <;> rfl
    rw [hlength, hlength]
    cases o <;> rfl
  | union id =>
    obtain ⟨u, hu, rfl⟩ := Scene.content_union_eq_ok_iff.1 hcx
    obtain ⟨u', hu', rfl⟩ := Scene.content_union_eq_ok_iff.1 hcy
    cases o <;> rfl
  | run form plain elem =>
    obtain ⟨left, hleft, rfl⟩ := Scene.content_run_eq_ok_iff.1 hcx
    obtain ⟨right, hright, rfl⟩ := Scene.content_run_eq_ok_iff.1 hcy
    obtain ⟨spacing, e, -, -, rfl⟩ := Span.resolve_one_eq_ok_iff.1 hleft
    obtain ⟨spacing', f, -, -, rfl⟩ := Span.resolve_one_eq_ok_iff.1 hright
    rfl

/-- Null pointers are decided where they are met. -/
theorem passesNull (m : Memory) : (visitor m).PassesNull := by
  intro form bytes c cells sofar sofar' henter
  simp only [visitor, enter] at henter
  split at henter
  · cases henter
  · rename_i hcells
    exact Bool.eq_false_iff.2 hcells

/-- The result of a comparison at two spots: the keys of the heads decide, and where
they are the same, what is inside and then the lengths of runs. -/
def Compared (s : Scene) (depth : Nat) (x y : Spot) (r : Ordering) : Prop :=
  ∃ h k xs ys o, s.head x = .ok h ∧ s.head y = .ok k ∧
    (compare h.key k.key = .eq → (∀ id, x.node = .union id → 0 < depth) ∧
      s.contents x = .ok xs ∧
      s.contents y = .ok ys ∧
      Walk.visitAll s (visitor s.mem) (x.below depth)
        (List.zipWith Spot.pair xs ys) .eq = .ok o) ∧
    r = (compare h.key k.key).then (o.then (compare h.length k.length))

section Step

variable {x y : Spot} {depth : Nat} {r : Ordering}

/-- A comparison of two spots that gives a result has read both heads, and what is
inside where it matters. -/
theorem compared_of_visit (ht : s.tables.Verified) (hx : x.Sound s.tables)
    (hfloat : x.FloatFree) (hxy : x.Twin y)
    (h : Walk.visitSpot s (visitor s.mem) depth (x.pair y) .eq = .ok r) :
    Compared s depth x y r := by
  obtain ⟨node, inner, a, b, l, l', rfl, rfl⟩ := hxy.eq_mk
  obtain ⟨content, hcontent, hcases⟩ :=
    (Walk.visitSpot_eq_ok_iff ht (passesNull s.mem) (hx.pair _)
      (by simp [Spot.pair]) rfl).1 h
  obtain ⟨cx, cy, hcx, hcy, rfl⟩ := Scene.content_two_eq_ok_iff.1 hcontent
  have hh : s.head ⟨node, inner, [a], l⟩ = .ok _ :=
    Scene.head_eq_ok_iff.2 ⟨cx, hcx, rfl⟩
  have hk : s.head ⟨node, inner, [b], l'⟩ = .ok _ :=
    Scene.head_eq_ok_iff.2 ⟨cy, hcy, rfl⟩
  have hentered := enter_pair hfloat.node hcx hcy
  rcases hcases with henter | ⟨before, henter, hdepth, zs, after, hzs, hall, rfl⟩
  · change enter s.mem node [a, b] (cx.pair cy) .eq = (r, false) at henter
    rw [henter] at hentered
    cases hentered with
    | decided hne =>
      exact ⟨_, _, [], [], .eq, hh, hk, fun heq => absurd heq hne,
        (then_of_ne hne _).symm⟩
    | leaf heq hlength hunion hleft hright =>
      refine ⟨_, _, [], [], .eq, hh, hk,
        fun _ => ⟨fun id hid => absurd hid (hunion id), hleft l, hright l', rfl⟩, ?_⟩
      simp only [heq, hlength, Std.ReflCmp.compare_self]
      rfl
  · change enter s.mem node [a, b] (cx.pair cy) .eq = (before, true) at henter
    rw [henter] at hentered
    cases hentered with
    | goes heq =>
      have hkey := Std.LawfulEqCmp.eq_of_compare heq
      obtain ⟨xs, ys, hxs, hys, rfl⟩ :=
        (Scene.contents_pair_eq_ok_iff ht hx hxy hh hk hkey).1 hzs
      refine ⟨_, _, xs, ys, after, hh, hk, fun _ => ⟨hdepth, hxs, hys, hall⟩, ?_⟩
      rw [heq, Ordering.eq_then]
      exact leave_pair hcx hcy after

/-- Two spots whose heads can be read are compared if what is inside is,
where it matters. -/
theorem visit_of_compared (ht : s.tables.Verified) (hx : x.Sound s.tables)
    (hfloat : x.FloatFree) (hxy : x.Twin y) (h : Compared s depth x y r) :
    Walk.visitSpot s (visitor s.mem) depth (x.pair y) .eq = .ok r := by
  obtain ⟨node, inner, a, b, l, l', rfl, rfl⟩ := hxy.eq_mk
  obtain ⟨h, k, xs, ys, o, hh, hk, hinside, rfl⟩ := h
  obtain ⟨cx, hcx, rfl⟩ := Scene.head_eq_ok_iff.1 hh
  obtain ⟨cy, hcy, rfl⟩ := Scene.head_eq_ok_iff.1 hk
  rw [Walk.visitSpot_eq_ok_iff ht (passesNull s.mem) (hx.pair _) (by simp [Spot.pair]) rfl]
  refine ⟨cx.pair cy, Scene.content_two_eq_ok_iff.2 ⟨cx, cy, hcx, hcy, rfl⟩, ?_⟩
  have hentered := enter_pair hfloat.node hcx hcy
  generalize henter : enter s.mem node [a, b] (cx.pair cy) .eq = result at hentered
  cases hentered with
  | decided hne =>
    rw [then_of_ne hne]
    exact .inl henter
  | goes heq =>
    obtain ⟨hdepth, hxs, hys, hall⟩ := hinside heq
    have hkey := Std.LawfulEqCmp.eq_of_compare heq
    have hzs :=
      (Scene.contents_pair_eq_ok_iff ht hx hxy hh hk hkey).2 ⟨xs, ys, hxs, hys, rfl⟩
    refine .inr ⟨.eq, henter, hdepth, _, o, hzs, hall, ?_⟩
    rw [heq, Ordering.eq_then]
    exact (leave_pair hcx hcy o).symm
  | leaf heq hlength hunion hleft hright =>
    obtain ⟨-, hxs, hys, hall⟩ := hinside heq
    obtain rfl := Except.ok.inj (hxs.symm.trans (hleft l))
    obtain rfl := Except.ok.inj hall
    simp only [heq, hlength, Std.ReflCmp.compare_self]
    exact .inl henter

end Step

/-- A comparison of spots in order goes on behind the first only where nothing
is decided there. -/
theorem visitAll_cons_eq_ok_iff {x : Spot} {rest : List Spot} {depth : Nat} {r : Ordering} :
    Walk.visitAll s (visitor s.mem) depth (x :: rest) .eq = .ok r ↔
      ∃ first q, Walk.visitSpot s (visitor s.mem) depth x .eq = .ok first ∧
        (first = .eq → Walk.visitAll s (visitor s.mem) depth rest .eq = .ok q) ∧
        r = first.then q := by
  have hstop : ∀ first, first ≠ .eq →
      Walk.visitAll s (visitor s.mem) depth rest first = .ok first := by
    intro first hne
    exact Walk.visitAll_of_not_attends (by simpa [visitor] using hne)
  constructor
  · intro h
    simp only [Walk.visitAll] at h
    split at h
    · cases h
    · rename_i first hfirst
      by_cases heq : first = .eq
      · subst heq
        exact ⟨.eq, r, hfirst, fun _ => h, rfl⟩
      · rw [hstop first heq] at h
        obtain rfl := Except.ok.inj h
        exact ⟨first, .eq, hfirst, fun h => absurd h heq, Ordering.then_eq.symm⟩
  · rintro ⟨first, q, hfirst, hrest, rfl⟩
    simp only [Walk.visitAll, hfirst]
    by_cases heq : first = .eq
    · subst heq
      exact hrest rfl
    · rw [hstop first heq, then_of_ne heq]

end ValueOrder

end ShapeCode
