import ShapeCode.Emit
import ShapeCode.Proofs.OrderStep

set_option autoImplicit false

/-!
# Comparisons rank the values of a memory

`Ranks` says how values at two lists of spots compare, and neither how deep nor for how
long a walk goes: a list that ends sooner comes first, as in a dictionary.  Every
comparison that comes to an end ranks what it compares (`Ranks.of_compare`).  Two runs
are compared up to the end of the shorter, and then by length in bytes.  That is the
dictionary again, since the run with more elements is the longer, and runs of as many
elements are told apart by what is left behind the last.

The relation is reflexive, turns around with its sides, and is transitive, by induction
on how it came about.  So the order of values is a total preorder
(`Descriptor.compare_totalPreorder`).
-/

namespace ShapeCode

/-! ## Orderings in a row -/

/-- Where `a` and `b` compare a first with a second and this with a third, and neither
is descending, `c` compares the first with the third. -/
def Chained (a b c : Ordering) : Prop := a ≠ .gt → b ≠ .gt → c = a.then b

namespace Chained

variable {a b c a' b' c' : Ordering}

/-- Orderings that chain, with others behind them that chain wherever they matter. -/
theorem before (h : Chained a b c)
    (h' : a = .eq → b = .eq → c = .eq → Chained a' b' c') :
    Chained (a.then a') (b.then b') (c.then c') := by
  intro ha hb
  cases a with
  | gt => exact absurd rfl ha
  | lt =>
    cases b with
    | gt => exact absurd rfl hb
    | lt | eq => rw [h nofun nofun]; rfl
  | eq =>
    cases b with
    | gt => exact absurd rfl hb
    | lt =>
      rw [h nofun nofun]
      cases a' with
      | gt => exact absurd rfl ha
      | lt | eq => rfl
    | eq =>
      obtain rfl := h nofun nofun
      exact h' rfl rfl rfl ha hb

theorem of_compare {α : Type} [Ord α] [Std.TransOrd α] (x y z : α) :
    Chained (compare x y) (compare y z) (compare x z) := by
  intro hxy hyz
  cases h : compare x y with
  | gt => exact absurd h hxy
  | lt =>
    exact Std.TransCmp.lt_of_lt_of_isLE h (by simpa [Ordering.isLE_iff_ne_gt] using hyz)
  | eq => exact Std.TransCmp.congr_left h

end Chained

theorem then_eq_swap {a b a' b' : Ordering} (h : a = b.swap)
    (h' : b = .eq → a' = b'.swap) : a.then a' = (b.then b').swap := by
  subst h
  rw [Ordering.swap_then]
  cases b with
  | eq => rw [h' rfl]
  | lt | gt => rfl

/-! ## Ranks -/

variable {s : Scene}

/-- How the values at two lists of spots compare: by the keys of the first two,
then by what is inside, where this comes to matter, then by the lengths of runs,
and then by the others. -/
inductive Ranks (s : Scene) : List Spot → List Spot → Ordering → Prop where
  | nil : Ranks s [] [] .eq
  | nil_cons {y : Spot} {ys : List Spot} : Ranks s [] (y :: ys) .lt
  | cons_nil {x : Spot} {xs : List Spot} : Ranks s (x :: xs) [] .gt
  | cons {x y : Spot} {xs ys xs' ys' : List Spot} {h k : Head} {o q : Ordering}
      (hx : s.head x = .ok h) (hy : s.head y = .ok k)
      (hcontents : compare h.key k.key = .eq →
        s.contents x = .ok xs' ∧ s.contents y = .ok ys')
      (hinside : compare h.key k.key = .eq → Ranks s xs' ys' o)
      (hrest : (compare h.key k.key).then (o.then (compare h.length k.length)) = .eq →
        Ranks s xs ys q) :
      Ranks s (x :: xs) (y :: ys)
        (((compare h.key k.key).then (o.then (compare h.length k.length))).then q)

namespace Ranks

/-- Values are equal to themselves. -/
theorem refl {xs ys : List Spot} {o : Ordering} (h : Ranks s xs ys o)
    (heq : xs = ys) : o = .eq := by
  induction h with
  | nil => rfl
  | nil_cons | cons_nil => cases heq
  | cons hx hy hcontents _ _ ihinside ihrest =>
    obtain ⟨rfl, rfl⟩ := List.cons.inj heq
    obtain rfl := Except.ok.inj (hx.symm.trans hy)
    obtain ⟨hxs, hys⟩ := hcontents Std.ReflCmp.compare_self
    obtain rfl := ihinside Std.ReflCmp.compare_self (Except.ok.inj (hxs.symm.trans hys))
    simp only [Std.ReflCmp.compare_self, Ordering.eq_then, forall_const] at ihrest ⊢
    exact ihrest

/-- The other way around, values compare the other way. -/
theorem swap {xs ys : List Spot} {o o' : Ordering} (h : Ranks s xs ys o)
    (h' : Ranks s ys xs o') : o' = o.swap := by
  induction h generalizing o' with
  | nil | nil_cons | cons_nil => cases h'; rfl
  | @cons x y xs ys xs' ys' h k o q hx hy hcontents _ _ ihinside ihrest =>
    cases h' with
    | @cons _ _ _ _ ys'' xs'' _ _ o' q' hy' hx' hcontents' hinside' hrest' =>
      obtain rfl := Except.ok.inj (hx.symm.trans hx')
      obtain rfl := Except.ok.inj (hy.symm.trans hy')
      have hkey : compare k.key h.key = (compare h.key k.key).swap :=
        Std.OrientedCmp.eq_swap
      have hfirst : (compare k.key h.key).then (o'.then (compare k.length h.length)) =
          ((compare h.key k.key).then (o.then (compare h.length k.length))).swap := by
        refine then_eq_swap hkey fun heq => then_eq_swap ?_ fun _ => Std.OrientedCmp.eq_swap
        have heq' : compare k.key h.key = .eq := by rw [hkey, heq, Ordering.swap_eq]
        obtain ⟨hxs, hys⟩ := hcontents heq
        obtain ⟨hys', hxs'⟩ := hcontents' heq'
        obtain rfl := Except.ok.inj (hxs.symm.trans hxs')
        obtain rfl := Except.ok.inj (hys.symm.trans hys')
        exact ihinside heq (hinside' heq')
      refine then_eq_swap hfirst fun heq => ihrest heq (hrest' ?_)
      rw [hfirst, heq, Ordering.swap_eq]

/-- Values that compare in a row compare from end to end. -/
theorem chained {xs ys zs : List Spot} {a b c : Ordering} (hxy : Ranks s xs ys a)
    (hyz : Ranks s ys zs b) (hxz : Ranks s xs zs c) : Chained a b c := by
  induction hxy generalizing zs b c with
  | nil =>
    intro _ _
    cases hyz <;> cases hxz <;> rfl
  | nil_cons =>
    intro _ hb
    cases hyz with
    | cons_nil => exact absurd rfl hb
    | cons => cases hxz; rfl
  | cons_nil => exact fun ha => absurd rfl ha
  | @cons x y xs ys xs' ys' h k o q hx hy hcontents _ _ ihinside ihrest =>
    cases hyz with
    | cons_nil => exact fun _ hb => absurd rfl hb
    | @cons _ z _ zs ys'' zs' _ m o' q' hy' hz hcontents' hinside' hrest' =>
      cases hxz with
      | @cons _ _ _ _ xs'' zs'' _ _ o'' q'' hx' hz' hcontents'' hinside'' hrest'' =>
        obtain rfl := Except.ok.inj (hx.symm.trans hx')
        obtain rfl := Except.ok.inj (hy.symm.trans hy')
        obtain rfl := Except.ok.inj (hz.symm.trans hz')
        refine .before (.before (.of_compare _ _ _) fun hxy hyz hxz =>
          .before ?_ fun _ _ _ => .of_compare _ _ _)
          fun hxy hyz hxz => ihrest hxy (hrest' hyz) (hrest'' hxz)
        obtain ⟨hxs, hys⟩ := hcontents hxy
        obtain ⟨hys', hzs⟩ := hcontents' hyz
        obtain ⟨hxs', hzs'⟩ := hcontents'' hxz
        obtain rfl := Except.ok.inj (hxs.symm.trans hxs')
        obtain rfl := Except.ok.inj (hys.symm.trans hys')
        obtain rfl := Except.ok.inj (hzs.symm.trans hzs')
        exact ihinside hxy (hinside' hyz) (hinside'' hxz)

end Ranks

/-! ## Comparisons -/

/-- What decides two lists of elements decides the lengths of the runs as well. -/
theorem then_compare_length {o : Ordering} {m n m' n' : Nat} (h : m < n → m' < n')
    (h' : n < m → n' < m') :
    (o.then (compare m n)).then (compare m' n') = o.then (compare m' n') := by
  rw [Ordering.then_assoc]
  rcases Nat.lt_trichotomy m n with hlt | rfl | hgt
  · rw [Nat.compare_eq_lt.2 hlt, Nat.compare_eq_lt.2 (h hlt), Ordering.lt_then]
  · rw [Nat.compare_eq_eq.2 rfl, Ordering.eq_then]
  · rw [Nat.compare_eq_gt.2 hgt, Nat.compare_eq_gt.2 (h' hgt), Ordering.gt_then]

namespace Ranks

variable {depth : Nat}

/-- Comparing spots in order ranks them if comparing the first of two lists ranks these,
whatever comes after. -/
theorem of_visitAll_of_forall {xs ys : List Spot} (hxy : Twins xs ys) {r : Ordering}
    (hspot : ∀ x ∈ xs, ∀ y, x.Twin y →
      ∀ r, Walk.visitSpot s (ValueOrder.visitor s.mem) depth (x.pair y) .eq = .ok r →
      ∀ xs ys q, (r = .eq → Ranks s xs ys q) → Ranks s (x :: xs) (y :: ys) (r.then q))
    (h : Walk.visitAll s (ValueOrder.visitor s.mem) depth
      (List.zipWith Spot.pair xs ys) .eq = .ok r) :
    Ranks s xs ys (r.then (compare xs.length ys.length)) := by
  induction xs generalizing ys r with
  | nil =>
    obtain rfl := Except.ok.inj h
    cases ys with
    | nil => exact .nil
    | cons y ys => exact .nil_cons
  | cons x xs ih =>
    cases ys with
    | nil =>
      obtain rfl := Except.ok.inj h
      exact .cons_nil
    | cons y ys =>
      rw [List.forall_mem_cons] at hspot
      obtain ⟨first, q, hfirst, hrest, rfl⟩ := ValueOrder.visitAll_cons_eq_ok_iff.1 h
      have hlengths :
          compare (x :: xs).length (y :: ys).length = compare xs.length ys.length := by
        simp [Nat.compare_eq_ite_lt]
      rw [hlengths, Ordering.then_assoc]
      exact hspot.1 y hxy.1 first hfirst xs ys _ fun heq => ih hxy.2 hspot.2 (hrest heq)

/-- Comparing two spots ranks them, whatever comes after. -/
theorem of_visitSpot (ht : s.tables.Verified) (hfree : s.tables.FloatFree) (depth : Nat)
    (x : Spot) (hx : x.Sound s.tables) (hfloat : x.FloatFree) : ∀ y, x.Twin y → ∀ r,
      Walk.visitSpot s (ValueOrder.visitor s.mem) depth (x.pair y) .eq = .ok r →
        ∀ xs ys q, (r = .eq → Ranks s xs ys q) →
          Ranks s (x :: xs) (y :: ys) (r.then q) := by
  revert hx hfloat
  -- A comparison goes on inside the two spots, so the induction is on what is
  -- inside the first.
  refine Scene.contents_induction (s := s) (p := fun depth x => x.Sound s.tables →
    x.FloatFree →
    ∀ y, x.Twin y →
      ∀ r, Walk.visitSpot s (ValueOrder.visitor s.mem) depth (x.pair y) .eq = .ok r →
      ∀ xs ys q, (r = .eq → Ranks s xs ys q) →
        Ranks s (x :: xs) (y :: ys) (r.then q)) ?_ depth x
  intro depth x ih hx hfloat y hxy r hvisit xs ys q hrest
  obtain ⟨h, k, xs', ys', o, hh, hk, hgoes, rfl⟩ :=
    ValueOrder.compared_of_visit ht hx hfloat hxy hvisit
  by_cases heq : compare h.key k.key = .eq
  · obtain ⟨hdepth, hxs, hys, hall⟩ := hgoes heq
    obtain ⟨htwins, hlt, hgt⟩ :=
      Scene.twins_of_contents ht hx hxy hh hk (Std.LawfulEqCmp.eq_of_compare heq) hxs hys
    have hranks := of_visitAll_of_forall htwins (fun z hz => ih xs' hxs hdepth z hz
      (hx.contents ht.sound hxs z hz) (hfloat.contents hfree hxs z hz)) hall
    rw [← then_compare_length hlt hgt] at hrest ⊢
    exact .cons hh hk (fun _ => ⟨hxs, hys⟩) (fun _ => hranks) hrest
  · exact @Ranks.cons s x y xs ys [] [] h k o q hh hk (fun h => absurd h heq)
      (fun h => absurd h heq) hrest

/-- A comparison that comes to an end ranks what it compares. -/
theorem of_compare {s : Scene} {o : Outline} (ht : s.tables.Verified)
    (hfree : s.tables.FloatFree) (ho : o.Sound s.tables) (hfloat : o.floatFree = true)
    {a b : Nat} {r : Ordering} (h : s.compare depth o a b = .ok r) :
    ∃ xs ys, Walk.spots s.tables false o [a] false = .ok xs ∧
      Walk.spots s.tables false o [b] false = .ok ys ∧
      Ranks s xs ys r := by
  obtain ⟨zs, hzs, hall⟩ := Walk.range_eq_ok_iff.1 h
  obtain ⟨xs, ys, hxs, hys, rfl⟩ := Walk.spots_two_eq_ok_iff.1 hzs
  obtain ⟨htwins, hlength⟩ := Walk.twins_of_spots hxs hys
  refine ⟨xs, ys, hxs, hys, ?_⟩
  have hranks := of_visitAll_of_forall htwins (fun x hx => of_visitSpot ht hfree depth x
    (ho.spot (Walk.has_of_spots hxs x hx))
      (Outline.floatFree_spot hfloat (Walk.has_of_spots hxs x hx))) hall
  simpa only [hlength, Std.ReflCmp.compare_self, Ordering.then_eq] using hranks

end Ranks

namespace Descriptor

/-- The order of values of a shape without floating-point numbers is a total preorder: a
value is equal to itself, the other way around two values compare the other way, and of
three values in a row the ends compare as the first two and the last two do.  This is so
for every comparison that comes to an end, however deep it goes. -/
theorem compare_totalPreorder {d : Descriptor} (hverify : d.verify = .ok ())
    (hfloat : d.FloatFree) (m : Memory) (a b c : Nat) :
    (∀ depth r, Scene.compare ⟨d.tables, m⟩ depth (Outline.ofBytes d.shape) a a =
        .ok r → r = .eq) ∧
    (∀ depth depth' r r',
      Scene.compare ⟨d.tables, m⟩ depth (Outline.ofBytes d.shape) a b = .ok r →
      Scene.compare ⟨d.tables, m⟩ depth' (Outline.ofBytes d.shape) b a = .ok r' →
      r' = r.swap) ∧
    ∀ depth depth' depth'' r r' r'',
      Scene.compare ⟨d.tables, m⟩ depth (Outline.ofBytes d.shape) a b = .ok r →
      Scene.compare ⟨d.tables, m⟩ depth' (Outline.ofBytes d.shape) b c = .ok r' →
      Scene.compare ⟨d.tables, m⟩ depth'' (Outline.ofBytes d.shape) a c = .ok r'' →
      r ≠ .gt → r' ≠ .gt →
        r'' ≠ .gt ∧ (r'' = .eq ↔ r = .eq ∧ r' = .eq) := by
  have hv := verified_of_verify hverify
  have hranks : ∀ {depth a b r},
      Scene.compare ⟨d.tables, m⟩ depth (Outline.ofBytes d.shape) a b = .ok r →
      ∃ xs ys, Walk.spots d.tables false (Outline.ofBytes d.shape) [a] false = .ok xs ∧
        Walk.spots d.tables false (Outline.ofBytes d.shape) [b] false = .ok ys ∧
        Ranks ⟨d.tables, m⟩ xs ys r :=
    Ranks.of_compare hv.tables hfloat.tables hv.root hfloat.root
  refine ⟨fun depth r h => ?_, fun depth depth' r r' h h' => ?_,
    fun depth depth' depth'' r r' r'' h h' h'' => ?_⟩
  · obtain ⟨xs, ys, hxs, hys, hrank⟩ := hranks h
    exact hrank.refl (Except.ok.inj (hxs.symm.trans hys))
  · obtain ⟨xs, ys, hxs, hys, hrank⟩ := hranks h
    obtain ⟨ys', xs', hys', hxs', hrank'⟩ := hranks h'
    obtain rfl := Except.ok.inj (hxs.symm.trans hxs')
    obtain rfl := Except.ok.inj (hys.symm.trans hys')
    exact hrank.swap hrank'
  · obtain ⟨xs, ys, hxs, hys, hxy⟩ := hranks h
    obtain ⟨ys', zs, hys', hzs, hyz⟩ := hranks h'
    obtain ⟨xs', zs', hxs', hzs', hxz⟩ := hranks h''
    obtain rfl := Except.ok.inj (hxs.symm.trans hxs')
    obtain rfl := Except.ok.inj (hys.symm.trans hys')
    obtain rfl := Except.ok.inj (hzs.symm.trans hzs')
    intro hr hr'
    rw [hxy.chained hyz hxz hr hr']
    revert hr hr'
    cases r <;> cases r' <;> decide

/-- A slice of half words. -/
def halves : Descriptor where
  shape := Emit.runHead (.slice false) false ++ 1 :: 0 :: Emit.scalar .u16
  tables := ⟨#[], #[]⟩

/-- Three slices of the same half words, of four, five and six bytes. -/
def halvesMemory : Memory :=
  Memory.zero.write 0 #[48, 0, 0, 0, 0, 0, 0, 0, 4, 0, 0, 0, 0, 0, 0, 0,
    48, 0, 0, 0, 0, 0, 0, 0, 5, 0, 0, 0, 0, 0, 0, 0,
    48, 0, 0, 0, 0, 0, 0, 0, 6, 0, 0, 0, 0, 0, 0, 0, 1, 0, 2, 0, 3, 0]

theorem compare_totalPreorder_halves : halves.verify = .ok () ∧ halves.FloatFree ∧
    ∀ depth r, Scene.compare ⟨halves.tables, halvesMemory⟩ depth
      (Outline.ofBytes halves.shape) 0 32 = .ok r →
      r ≠ .gt ∧ r ≠ .eq := by
  have hverify : halves.verify = .ok () := by decide +kernel
  have hfloat : halves.FloatFree := ⟨by decide +kernel, by decide +kernel⟩
  have hfirst : Scene.compare ⟨halves.tables, halvesMemory⟩ 0
      (Outline.ofBytes halves.shape) 0 16 = .ok .lt := by
    decide +kernel
  have hsecond : Scene.compare ⟨halves.tables, halvesMemory⟩ 0
      (Outline.ofBytes halves.shape) 16 32 = .ok .lt := by
    decide +kernel
  refine ⟨hverify, hfloat, fun depth r h => ?_⟩
  obtain ⟨hle, heq⟩ :=
    (compare_totalPreorder hverify hfloat halvesMemory 0 16 32).2.2 0 0 depth .lt .lt r
      hfirst hsecond h nofun nofun
  exact ⟨hle, fun h => nomatch (heq.1 h).1⟩

end Descriptor

end ShapeCode
