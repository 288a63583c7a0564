import ShapeCode.Emit
import ShapeCode.Proofs.OrderStep

set_option autoImplicit false

/-!
# Comparisons order trees

What a walk over one lane reads is a tree: of each spot its head, what is inside and
then the other spots (`Tree.of_value`).  Two such trees say all that a comparison of the
two values comes to see.  By induction on the first, a comparison comes to an end as
soon as both trees are read, and gives the lexicographic order of the two
(`Descriptor.compare_eq_order`).

The length of a run in a tree is the one that the run states, unless the run wraps
around the end of memory (`Scene.head_run`).
-/

namespace ShapeCode

/-! ## Trees of spots -/

variable {s : Scene} {depth : Nat}

/-- What is read at spots side by side, entering at most `depth` unions
inside one another. -/
inductive Tree (s : Scene) : Nat → List Spot → Values → Prop where
  | nil {depth : Nat} : Tree s depth [] .nil
  | cons {depth : Nat} {x : Spot} {xs ys : List Spot} {h : Head} {inside rest : Values}
      (hhead : s.head x = .ok h) (hdepth : ∀ id, x.node = .union id → 0 < depth)
      (hcontents : s.contents x = .ok ys) (hinside : Tree s (x.below depth) ys inside)
      (hrest : Tree s depth xs rest) : Tree s depth (x :: xs) (.cons h inside rest)

/-! ## Reading trees -/

theorem Twins.self {xs : List Spot} (h : Twins xs xs) : ∀ x ∈ xs, x.Twin x := by
  induction xs with
  | nil => simp
  | cons x xs ih => exact List.forall_mem_cons.2 ⟨h.1, ih h.2⟩

/-- A spot of one lane has contents of one lane. -/
theorem Spot.Twin.contents (ht : s.tables.Verified) {x : Spot} (hx : x.Sound s.tables)
    (hlane : x.Twin x) {h : Head} (hh : s.head x = .ok h) {ys : List Spot}
    (hys : s.contents x = .ok ys) : ∀ y ∈ ys, y.Twin y :=
  (Scene.twins_of_contents ht hx hlane hh hh rfl hys hys).1.self

/-- Behind a null pointer is nothing. -/
theorem Scene.contents_of_null {x : Spot} {form : PointerForm}
    (h : s.head x = .ok (.null form)) :
    (∀ id, x.node ≠ .union id) ∧ s.contents x = .ok [] := by
  obtain ⟨found, hfound, hhead⟩ := head_eq_ok_iff.1 h
  obtain ⟨node, inner, c, l⟩ := x
  cases node with
  | scalar | handle | record | resource => cases hhead
  | union id =>
    obtain ⟨u, -, rfl⟩ := content_union_eq_ok_iff.1 hfound
    cases hhead
  | run form plain elem =>
    obtain ⟨span, -, rfl⟩ := content_run_eq_ok_iff.1 hfound
    cases hhead
  | pointer form bytes =>
    obtain rfl := Except.ok.inj hfound
    simp only [ValueTree.head] at hhead
    split at hhead
    · rename_i hnull
      exact ⟨by simp, by simp only [contents, hnull, if_true]⟩
    · cases hhead

theorem Spot.below_mono (x : Spot) {n k : Nat} (h : n ≤ k) : x.below n ≤ x.below k := by
  unfold Spot.below
  split
  · exact Nat.sub_le_sub_right h 1
  · exact h

namespace ValueTree

variable {m : Memory} {node : Node} {c : Cursor} {content : Content} {r r' : Reading}

theorem enter_eq_false_iff :
    (visitor m).enter node c content r = (r', false) ↔
      ∃ form, head m node c content = .null form ∧
        r' = ⟨r.group.append (.cons (.null form) .nil .nil), r.around⟩ := by
  simp only [visitor]
  cases head m node c content <;> simp [eq_comm]

theorem enter_eq_true_iff :
    (visitor m).enter node c content r = (r', true) ↔
      (∀ form, head m node c content ≠ .null form) ∧
      r' = ⟨.nil, (head m node c content, r.group) :: r.around⟩ := by
  simp only [visitor]
  cases head m node c content <;> simp [eq_comm]

/-- Null pointers are read where they are met. -/
theorem passesNull (m : Memory) : (visitor m).PassesNull := by
  intro form bytes c cells r r' henter
  obtain ⟨hnull, -⟩ := enter_eq_true_iff.1 henter
  by_contra hcells
  exact hnull form (by simp only [head, Bool.eq_true_of_not_eq_false hcells, if_true])

end ValueTree

namespace Tree

/-- Reading spots in order reads a tree if reading each of them does. -/
theorem of_visitAll_of_forall {xs : List Spot} {r r' : ValueTree.Reading}
    (hspot : ∀ x ∈ xs, ∀ r r', Walk.visitSpot s (ValueTree.visitor s.mem) depth x r =
      .ok r' → ∃ v, Tree s depth [x] v ∧ r' = ⟨r.group.append v, r.around⟩)
    (h : Walk.visitAll s (ValueTree.visitor s.mem) depth xs r = .ok r') :
    ∃ v, Tree s depth xs v ∧ r' = ⟨r.group.append v, r.around⟩ := by
  induction xs generalizing r with
  | nil =>
    obtain rfl := Except.ok.inj h
    exact ⟨.nil, .nil, by simp⟩
  | cons x xs ih =>
    rw [List.forall_mem_cons] at hspot
    simp only [Walk.visitAll] at h
    split at h
    · cases h
    · rename_i next hnext
      obtain ⟨v, hv, rfl⟩ := hspot.1 r next hnext
      obtain ⟨w, hw, rfl⟩ := ih hspot.2 h
      cases hv with
      | cons hhead hdepth hcontents hinside hrest =>
        cases hrest
        exact ⟨_, .cons hhead hdepth hcontents hinside hw,
          by simp [Values.append_assoc, Values.append]⟩

/-- Reading a spot reads its head and what is inside. -/
theorem of_visitSpot (ht : s.tables.Verified) (depth : Nat) (x : Spot)
    (hx : x.Sound s.tables) (hlane : x.Twin x) :
    ∀ r r', Walk.visitSpot s (ValueTree.visitor s.mem) depth x r = .ok r' →
      ∃ v, Tree s depth [x] v ∧ r' = ⟨r.group.append v, r.around⟩ := by
  revert hx hlane
  refine Scene.contents_induction (s := s) (p := fun depth x =>
    x.Sound s.tables → x.Twin x →
    ∀ r r', Walk.visitSpot s (ValueTree.visitor s.mem) depth x r = .ok r' →
      ∃ v, Tree s depth [x] v ∧ r' = ⟨r.group.append v, r.around⟩) ?_ depth x
  intro depth x ih hx hlane r r' hvisit
  obtain ⟨a, hcursor⟩ := hlane.left
  obtain ⟨content, hcontent, hcases⟩ :=
    (Walk.visitSpot_eq_ok_iff ht (ValueTree.passesNull s.mem) hx
      (by simp [hcursor]) rfl).1 hvisit
  have hh : s.head x = .ok _ := Scene.head_eq_ok_iff.2 ⟨content, hcontent, rfl⟩
  rcases hcases with henter | ⟨before, henter, hdepth, ys, after, hys, hall, rfl⟩
  · obtain ⟨form, hnull, rfl⟩ := ValueTree.enter_eq_false_iff.1 henter
    rw [hnull] at hh
    obtain ⟨hunion, hys⟩ := Scene.contents_of_null hh
    exact ⟨_, .cons hh (fun id hid => absurd hid (hunion id)) hys .nil .nil, rfl⟩
  · obtain ⟨-, rfl⟩ := ValueTree.enter_eq_true_iff.1 henter
    obtain ⟨v, hv, rfl⟩ :=
      of_visitAll_of_forall (fun y hy => ih ys hys hdepth y hy
        (hx.contents ht.sound hys y hy) (hlane.contents ht hx hh hys y hy)) hall
    exact ⟨_, .cons hh hdepth hys hv .nil, rfl⟩

/-- What a walk over one lane reads is a tree. -/
theorem of_value {o : Outline} (ht : s.tables.Verified) (ho : o.Sound s.tables) {a : Nat}
    {v : Values} (h : s.value depth o a = .ok v) :
    ∃ xs, Walk.spots s.tables false o [a] false = .ok xs ∧ Tree s depth xs v := by
  unfold Scene.value at h
  cases hrun : Walk.run s (ValueTree.visitor s.mem) depth o [a] ⟨.nil, []⟩ with
  | error f =>
    rw [hrun] at h
    cases h
  | ok r =>
    rw [hrun] at h
    obtain rfl := Except.ok.inj h
    obtain ⟨xs, hxs, hall⟩ := Walk.range_eq_ok_iff.1 hrun
    obtain ⟨htwins, -⟩ := Walk.twins_of_spots hxs hxs
    obtain ⟨v, hv, rfl⟩ := of_visitAll_of_forall (fun x hx => of_visitSpot ht depth x
      (ho.spot (Walk.has_of_spots hxs x hx)) (htwins.self x hx)) hall
    exact ⟨xs, hxs, hv⟩

/-! ## Comparing trees -/

/-- A comparison of spots whose trees are read comes to an end, and gives the
order of the trees. -/
theorem visitAll_eq (ht : s.tables.Verified) (hfree : s.tables.FloatFree) {depth' k : Nat}
    {xs ys : List Spot} {v w : Values} (hv : Tree s depth xs v) (hw : Tree s depth' ys w)
    (hxy : Twins xs ys) (hxs : ∀ x ∈ xs, x.Sound s.tables ∧ x.FloatFree)
    (hk : depth ≤ k) :
    Walk.visitAll s (ValueOrder.visitor s.mem) k (List.zipWith Spot.pair xs ys) .eq =
        .ok (v.order w) := by
  induction hv generalizing depth' k ys w with
  | nil => rfl
  | @cons depth x xs xs' h inside rest hh hdepth hcontents _ _ ihinside ihrest =>
    cases hw with
    | nil => rfl
    | @cons _ y ys ys' h' inside' rest' hh' hdepth' hcontents' hinside' hrest' =>
      obtain ⟨hx, hfloat⟩ := hxs x List.mem_cons_self
      have hvisit : Walk.visitSpot s (ValueOrder.visitor s.mem) k (x.pair y) .eq =
          .ok ((compare h.key h'.key).then
            ((inside.order inside').then (compare h.length h'.length))) := by
        refine ValueOrder.visit_of_compared ht hx hfloat hxy.1
          ⟨h, h', xs', ys', _, hh, hh', fun heq => ?_, rfl⟩
        -- The heads are alike, so the comparison goes on to what is inside both.
        obtain ⟨htwins, -⟩ :=
          Scene.twins_of_contents ht hx hxy.1 hh hh'
            (Std.LawfulEqCmp.eq_of_compare heq) hcontents hcontents'
        have hinner := ihinside hinside' htwins (fun z hz =>
          ⟨hx.contents ht.sound hcontents z hz,
            hfloat.contents hfree hcontents z hz⟩) (x.below_mono hk)
        exact ⟨fun id hid => Nat.lt_of_lt_of_le (hdepth id hid) hk,
          hcontents, hcontents', hinner⟩
      have hrest := ihrest hrest' hxy.2 (fun z hz => hxs z (List.mem_cons_of_mem x hz)) hk
      rw [List.zipWith_cons_cons, ValueOrder.visitAll_cons_eq_ok_iff]
      refine ⟨_, _, hvisit, fun _ => hrest, ?_⟩
      rw [Values.order, Ordering.then_assoc, Ordering.then_assoc]

end Tree

/-! ## Lengths of runs -/

namespace Span

/-- The length in bytes that the run at an address states. -/
def statedLength (mem : Memory) (stride : Nat) : RunForm → (address : Nat) → Nat
  | .vec, a => mem.word (mem.word a)
  | .unboxedVec, a => mem.word a
  | .slice isStr, a => sliceBytes isStr (mem.word (Word.wrap (a + Word.size)))
  | .fixedVec count, _ => count.toNat * stride

variable {m : Memory} {spacing : Spacing} {form : RunForm} {a e : Nat}

/-- A run stops as far behind its start as it states. -/
theorem laneStop_eq (h : laneStop m spacing form a = .ok e) :
    e = Word.wrap
        (laneStart m spacing.dataOffset form a + statedLength m spacing.stride form a) := by
  have hwrap : ∀ p q, Word.wrap (Word.wrap p + q) = Word.wrap (p + q) := by
    simp [Word.wrap]
  cases form with
  | slice isStr =>
    simp only [laneStop, Except.ok.injEq] at h
    rw [laneStart, statedLength, h]
  | vec | unboxedVec =>
    simp only [laneStop] at h
    split at h
    · cases h
    · rename_i n hn
      rw [← Except.ok.inj h, (Word.add_eq_ok_iff.1 hn).2, laneStart,
        statedLength, hwrap, Nat.add_assoc]
  | fixedVec count =>
    simp only [laneStop] at h
    split at h
    · cases h
    · rename_i n hn
      rw [← Except.ok.inj h, (Word.mul_eq_ok_iff.1 hn).2, laneStart, statedLength]

end Span

/-- The length that is read of a run is the one that it states, unless it wraps around. -/
theorem Scene.head_run {form : RunForm} {plain : Bool} {elem : Bytes} {inner : Outline}
    {l : Layout} {a : Nat} {h : Head}
    (hh : s.head ⟨.run form plain elem, inner, [a], l⟩ = .ok h) {spacing : Spacing}
    (hspacing : inner.spacing s.tables = .ok spacing)
    (hfits : Span.laneStart s.mem spacing.dataOffset form a +
      Span.statedLength s.mem spacing.stride form a < Word.limit) :
    h = .run (elem == [(Kind.scalar .u8).byte])
        (Span.statedLength s.mem spacing.stride form a) := by
  obtain ⟨found, hfound, rfl⟩ := head_eq_ok_iff.1 hh
  obtain ⟨span, hspan, rfl⟩ := content_run_eq_ok_iff.1 hfound
  obtain ⟨spacing', e, hspacing', he, rfl⟩ := Span.resolve_one_eq_ok_iff.1 hspan
  obtain rfl := Except.ok.inj (hspacing.symm.trans hspacing')
  have hstop := Span.laneStop_eq he
  rw [Word.wrap_of_lt hfits] at hstop
  simp only [ValueTree.head, Span.isBytes, Cursor.distance, hstop, List.zipWith_cons_cons,
    List.headD_cons, Nat.add_sub_cancel_left]

/-! ## The order of values -/

namespace Descriptor

/-- Where two values of a shape without floating-point numbers are read as trees,
comparing them comes to an end and gives the lexicographic order of the trees. -/
theorem compare_eq_order {d : Descriptor} (hverify : d.verify = .ok ())
    (hfloat : d.FloatFree) (m : Memory) {a b depth depth' : Nat} {v w : Values}
    (hv : Scene.value ⟨d.tables, m⟩ depth (Outline.ofBytes d.shape) a = .ok v)
    (hw : Scene.value ⟨d.tables, m⟩ depth' (Outline.ofBytes d.shape) b = .ok w)
    {k : Nat} (hk : depth ≤ k) :
    Scene.compare ⟨d.tables, m⟩ k (Outline.ofBytes d.shape) a b = .ok (v.order w) := by
  have hd := verified_of_verify hverify
  obtain ⟨xs, hxs, hleft⟩ := Tree.of_value hd.tables hd.root hv
  obtain ⟨ys, hys, hright⟩ := Tree.of_value hd.tables hd.root hw
  obtain ⟨htwins, -⟩ := Walk.twins_of_spots hxs hys
  have hsound : ∀ x ∈ xs, x.Sound d.tables ∧ x.FloatFree := fun x hx =>
    ⟨hd.root.spot (Walk.has_of_spots hxs x hx),
      Outline.floatFree_spot hfloat.root (Walk.has_of_spots hxs x hx)⟩
  have hall := Tree.visitAll_eq hd.tables hfloat.tables hleft hright htwins hsound hk
  have hspots := Walk.spots_two_eq_ok_iff.2 ⟨xs, ys, hxs, hys, rfl⟩
  exact Walk.range_eq_ok_iff.2 ⟨_, hspots, hall⟩

/-- A list of bytes: nothing, or a byte and a pointer to the rest. -/
def byteList : Descriptor where
  shape := Emit.union 0
  tables :=
    ⟨#[⟨#[[], Emit.scalar .u8 ++ Kind.uniq.byte :: 3 :: 0 :: Emit.union 0], [1]⟩],
      #[]⟩

/-- The lists of 1 and 2, and of 1 and 3, with the same end. -/
def byteListMemory : Memory :=
  Memory.zero.write 0 #[1, 0, 0, 0, 0, 0, 0, 0, 1, 0, 0, 0, 0, 0, 0, 0,
    24, 0, 0, 0, 0, 0, 0, 0,
    1, 0, 0, 0, 0, 0, 0, 0, 2, 0, 0, 0, 0, 0, 0, 0, 96, 0, 0, 0, 0, 0, 0, 0,
    1, 0, 0, 0, 0, 0, 0, 0, 1, 0, 0, 0, 0, 0, 0, 0, 72, 0, 0, 0, 0, 0, 0, 0,
    1, 0, 0, 0, 0, 0, 0, 0, 3, 0, 0, 0, 0, 0, 0, 0, 96, 0, 0, 0, 0, 0, 0, 0]

/-- The tree of a list of bytes. -/
def byteListTree : List Nat → Values
  | [] => .cons (.union 0) .nil .nil
  | n :: rest =>
    .cons (.union 1)
      (.cons (.scalar .u8 n) .nil (.cons (.pointer .uniq) (byteListTree rest) .nil)) .nil

theorem compare_eq_order_byteList : byteList.verify = .ok () ∧ byteList.FloatFree ∧
    Scene.value ⟨byteList.tables, byteListMemory⟩ 3 (Outline.ofBytes byteList.shape) 0 =
      .ok (byteListTree [1, 2]) ∧
    Scene.value ⟨byteList.tables, byteListMemory⟩ 3 (Outline.ofBytes byteList.shape)
      48 = .ok (byteListTree [1, 3]) ∧
    ∀ k, 3 ≤ k → Scene.compare ⟨byteList.tables, byteListMemory⟩ k
      (Outline.ofBytes byteList.shape) 0 48 = .ok .lt := by
  have hverify : byteList.verify = .ok () := by decide +kernel
  have hfloat : byteList.FloatFree := ⟨by decide +kernel, by decide +kernel⟩
  have hleft : Scene.value ⟨byteList.tables, byteListMemory⟩ 3
      (Outline.ofBytes byteList.shape) 0 =
      .ok (byteListTree [1, 2]) := by decide +kernel
  have hright : Scene.value ⟨byteList.tables, byteListMemory⟩ 3
      (Outline.ofBytes byteList.shape) 48 =
      .ok (byteListTree [1, 3]) := by decide +kernel
  have horder : (byteListTree [1, 2]).order (byteListTree [1, 3]) = .lt := by decide +kernel
  refine ⟨hverify, hfloat, hleft, hright, fun k hk => ?_⟩
  exact horder ▸ compare_eq_order hverify hfloat byteListMemory hleft hright hk

end Descriptor

end ShapeCode
