import ShapeCode.Proofs.TreeText

set_option autoImplicit false

/-!
# Values that compare equal

A comparison looks at less than what is written: at lengths instead of bytes behind the
last element, at words that have a name as their text, at one lane where it takes the
other to be the same.  Still nothing is missed.  Where the heads of two spots have one
key and one length they are the same head (`Scene.head_eq_of_key`), so two values that
compare equal are read as one tree (`Tree.of_visitSpot_eq`), and it is the tree that is
written (`Descriptor.render_eq_of_compare_eq`).

How deep a walk may go decides whether it comes to an end, and not what it then gives
(`Walk.visitSpot_mono`).
-/

namespace ShapeCode

/-! ## Heads of one key -/

/-- Numbers that fit the scalar and stand for the same are the same. -/
theorem Scalar.reading_injOn {s : Scalar} {a b : Nat} (ha : a < 256 ^ s.size)
    (hb : b < 256 ^ s.size) (h : s.reading a = s.reading b) : a = b := by
  have hsigned : (BitVec.ofNat (8 * s.size) a).toInt =
      (BitVec.ofNat (8 * s.size) b).toInt → a = b := by
    intro hint
    have hpow : 256 ^ s.size = 2 ^ (8 * s.size) := Nat.pow_mul 2 8 s.size ▸ rfl
    have hnat := congrArg BitVec.toNat (BitVec.eq_of_toInt_eq hint)
    rwa [BitVec.toNat_ofNat, BitVec.toNat_ofNat, Nat.mod_eq_of_lt (hpow ▸ ha),
      Nat.mod_eq_of_lt (hpow ▸ hb)] at hnat
  cases s with
  | unit =>
    have hone : (256 : Nat) ^ Scalar.unit.size = 1 := rfl
    omega
  | i8 | i16 | i32 | i64 => exact hsigned h
  | bool | char | u8 | u16 | u32 | u64 | f32 | f64 => exact Int.natCast_inj.1 h

/-- Of two values at one node the heads are the same, if their keys are
and their lengths. -/
theorem Scene.head_eq_of_key {s : Scene} {x y : Spot} {h k : Head} (hxy : x.Twin y)
    (hh : s.head x = .ok h) (hk : s.head y = .ok k) (hkey : h.key = k.key)
    (hlength : h.length = k.length) : h = k := by
  obtain ⟨node, inner, a, b, l, l', rfl, rfl⟩ := hxy.eq_mk
  obtain ⟨cx, hcx, rfl⟩ := head_eq_ok_iff.1 hh
  obtain ⟨cy, hcy, rfl⟩ := head_eq_ok_iff.1 hk
  cases node with
  | scalar s' =>
    have hread : s'.reading (s'.number s.mem a) = s'.reading (s'.number s.mem b) :=
      List.singleton_inj.1 hkey
    exact congrArg (Head.scalar s')
      (Scalar.reading_injOn (s'.number_lt _ _) (s'.number_lt _ _) hread)
  | handle n =>
    have hwords := List.map_injective_iff.2 (fun _ _ => Int.ofNat.inj) hkey
    exact congrArg (Head.handle n) hwords
  | record | resource => rfl
  | union id =>
    obtain ⟨u, -, rfl⟩ := content_union_eq_ok_iff.1 hcx
    obtain ⟨u', -, rfl⟩ := content_union_eq_ok_iff.1 hcy
    exact congrArg Head.union (Int.natCast_inj.1 (List.singleton_inj.1 hkey))
  | run form plain elem =>
    obtain ⟨left, hleft, rfl⟩ := content_run_eq_ok_iff.1 hcx
    obtain ⟨right, hright, rfl⟩ := content_run_eq_ok_iff.1 hcy
    obtain ⟨spacing, e, -, -, rfl⟩ := Span.resolve_one_eq_ok_iff.1 hleft
    obtain ⟨spacing', f, -, -, rfl⟩ := Span.resolve_one_eq_ok_iff.1 hright
    exact congrArg (Head.run _) hlength
  | pointer form bytes =>
    obtain rfl := Except.ok.inj hcx
    obtain rfl := Except.ok.inj hcy
    have hnull := ValueTree.key_pointer_eq_iff.1 hkey
    rw [ValueTree.head_pointer, ValueTree.head_pointer]
    simp only [hnull]

/-! ## One tree -/

namespace Tree

variable {s : Scene} {depth : Nat}

/-- Lists of spots that compare equal are read as one tree, if this is so of
each two spots. -/
theorem of_visitAll_eq_of_forall {xs ys : List Spot} (hxy : Twins xs ys)
    (hlength : xs.length = ys.length)
    (hspot : ∀ x ∈ xs, ∀ y, x.Twin y →
      Walk.visitSpot s (ValueOrder.visitor s.mem) depth (x.pair y) .eq = .ok .eq →
      ∃ v, Tree s depth [x] v ∧ Tree s depth [y] v)
    (h : Walk.visitAll s (ValueOrder.visitor s.mem) depth
      (List.zipWith Spot.pair xs ys) .eq = .ok .eq) :
    ∃ v, Tree s depth xs v ∧ Tree s depth ys v := by
  induction xs generalizing ys with
  | nil =>
    obtain rfl := List.eq_nil_of_length_eq_zero hlength.symm
    exact ⟨.nil, .nil, .nil⟩
  | cons x xs ih =>
    cases ys with
    | nil => cases hlength
    | cons y ys =>
      rw [List.forall_mem_cons] at hspot
      obtain ⟨first, q, hfirst, hrest, heq⟩ := ValueOrder.visitAll_cons_eq_ok_iff.1 h
      obtain ⟨rfl, rfl⟩ := Ordering.then_eq_eq.1 heq.symm
      obtain ⟨v, hx, hy⟩ := hspot.1 y hxy.1 hfirst
      obtain ⟨w, hxs, hys⟩ := ih hxy.2 (Nat.succ.inj hlength) hspot.2 (hrest rfl)
      cases hx with
      | cons hhead hdepth hcontents hinside hnil =>
        cases hnil
        cases hy with
        | cons hhead' hdepth' hcontents' hinside' hnil' =>
          cases hnil'
          exact ⟨_, .cons hhead hdepth hcontents hinside hxs,
            .cons hhead' hdepth' hcontents' hinside' hys⟩

/-- Two spots that compare equal are read as one tree. -/
theorem of_visitSpot_eq (ht : s.tables.Verified) (hfree : s.tables.FloatFree) (depth : Nat)
    (x : Spot) (hx : x.Sound s.tables) (hfloat : x.FloatFree) : ∀ y, x.Twin y →
      Walk.visitSpot s (ValueOrder.visitor s.mem) depth (x.pair y) .eq = .ok .eq →
        ∃ v, Tree s depth [x] v ∧ Tree s depth [y] v := by
  revert hx hfloat
  refine Scene.contents_induction (s := s) (p := fun depth x => x.Sound s.tables →
    x.FloatFree →
    ∀ y, x.Twin y →
      Walk.visitSpot s (ValueOrder.visitor s.mem) depth (x.pair y) .eq = .ok .eq →
      ∃ v, Tree s depth [x] v ∧ Tree s depth [y] v) ?_ depth x
  intro depth x ih hx hfloat y hxy hvisit
  obtain ⟨h, k, xs, ys, o, hh, hk, hgoes, heq⟩ :=
    ValueOrder.compared_of_visit ht hx hfloat hxy hvisit
  -- Nothing is decided, neither by the keys nor inside nor by the lengths.
  obtain ⟨hkeys, hrest⟩ := Ordering.then_eq_eq.1 heq.symm
  obtain ⟨rfl, hlengths⟩ := Ordering.then_eq_eq.1 hrest
  have hkey := Std.LawfulEqCmp.eq_of_compare hkeys
  have hlength := Nat.compare_eq_eq.1 hlengths
  obtain ⟨hdepth, hxs, hys, hall⟩ := hgoes hkeys
  obtain ⟨htwins, hlt, hgt⟩ := Scene.twins_of_contents ht hx hxy hh hk hkey hxs hys
  have hcount : xs.length = ys.length := by omega
  obtain ⟨v, hleft, hright⟩ :=
    of_visitAll_eq_of_forall htwins hcount (fun z hz => ih xs hxs hdepth z hz
      (hx.contents ht.sound hxs z hz) (hfloat.contents hfree hxs z hz)) hall
  obtain rfl := Scene.head_eq_of_key hxy hh hk hkey hlength
  have hbelow : x.below depth = y.below depth := by
    unfold Spot.below
    rw [hxy.node]
  rw [hbelow] at hright
  exact ⟨_, .cons hh hdepth hxs hleft .nil,
    .cons hk (fun id hid => hdepth id (hxy.node.trans hid)) hys hright .nil⟩

end Tree

/-! ## Depth -/

namespace Walk

variable {σ : Type} {s : Scene} {v : Visitor σ} {depth k : Nat} {st st' : σ}

theorem visitAll_mono_of_forall {xs : List Spot}
    (hspot : ∀ x ∈ xs, ∀ st st', visitSpot s v depth x st = .ok st' →
      visitSpot s v k x st = .ok st')
    (h : visitAll s v depth xs st = .ok st') : visitAll s v k xs st = .ok st' := by
  induction xs generalizing st with
  | nil => exact h
  | cons x xs ih =>
    rw [List.forall_mem_cons] at hspot
    simp only [visitAll] at h
    split at h
    · cases h
    · rename_i next hnext
      simp only [visitAll, hspot.1 _ _ hnext]
      exact ih hspot.2 h

/-- A walk over one lane that comes to an end does the same if it may go deeper. -/
theorem visitSpot_mono (ht : s.tables.Verified) (hv : v.PassesNull) (depth : Nat) (x : Spot)
    (hx : x.Sound s.tables) (hlane : x.Twin x) (hk : depth ≤ k) :
    ∀ st st', visitSpot s v depth x st = .ok st' → visitSpot s v k x st = .ok st' := by
  revert hx hlane k
  refine Scene.contents_induction (s := s) (p := fun depth x =>
    ∀ {k : Nat}, x.Sound s.tables → x.Twin x → depth ≤ k →
    ∀ st st', visitSpot s v depth x st = .ok st' →
      visitSpot s v k x st = .ok st') ?_ depth x
  intro depth x ih k hx hlane hk st st' h
  by_cases hattends : v.attends st = true
  · obtain ⟨a, hcursor⟩ := hlane.left
    have hne : x.cursor ≠ [] := by simp [hcursor]
    obtain ⟨content, hcontent, hcases⟩ :=
      (visitSpot_eq_ok_iff ht hv hx hne hattends).1 h
    refine (visitSpot_eq_ok_iff ht hv hx hne hattends).2 ⟨content, hcontent, ?_⟩
    rcases hcases with henter | ⟨before, henter, hdepth, ys, after, hys, hall, rfl⟩
    · exact .inl henter
    · have hh : s.head x = .ok _ := Scene.head_eq_ok_iff.2 ⟨content, hcontent, rfl⟩
      refine .inr ⟨before, henter, fun id hid => Nat.lt_of_lt_of_le (hdepth id hid) hk,
        ys, after, hys, ?_, rfl⟩
      exact visitAll_mono_of_forall (fun y hy =>
        ih ys hys hdepth y hy (hx.contents ht.sound hys y hy)
        (hlane.contents ht hx hh hys y hy) (x.below_mono hk)) hall
  · have hpassed := Bool.eq_false_iff.2 hattends
    rw [visitSpot_of_not_attends hpassed] at h ⊢
    exact h

/-- A walk from one address that comes to an end does the same if it may go deeper. -/
theorem run_mono (ht : s.tables.Verified) (hv : v.PassesNull) {o : Outline}
    (ho : o.Sound s.tables) {a : Nat} (h : run s v depth o [a] st = .ok st')
    (hk : depth ≤ k) : run s v k o [a] st = .ok st' := by
  obtain ⟨xs, hxs, hall⟩ := range_eq_ok_iff.1 h
  obtain ⟨htwins, -⟩ := twins_of_spots hxs hxs
  refine range_eq_ok_iff.2 ⟨xs, hxs, visitAll_mono_of_forall (fun x hx => ?_) hall⟩
  exact visitSpot_mono ht hv depth x (ho.spot (has_of_spots hxs x hx)) (htwins.self x hx) hk

end Walk

/-- A text that is written does not depend on how deep writing may go. -/
theorem Scene.render_mono {s : Scene} (ht : s.tables.Verified) {o : Outline}
    (ho : o.Sound s.tables) {depth k a : Nat} {text : String}
    (h : s.render depth o a = .ok text) (hk : depth ≤ k) : s.render k o a = .ok text := by
  unfold render at h ⊢
  cases hrun : Walk.run s (ValueText.visitor s.mem) depth o [a] .empty with
  | error e =>
    rw [hrun] at h
    cases h
  | ok p => rwa [Walk.run_mono ht (ValueText.passesNull s.mem) ho hrun hk, ← hrun]

/-- Where a value is read as a tree, writing it gives the text of the tree. -/
theorem Tree.render_eq {d : Descriptor} (hd : d.Verified) {m : Memory} {p depth k : Nat}
    {xs : List Spot} {v : Values}
    (hxs : Walk.spots d.tables false (Outline.ofBytes d.shape) [p] false = .ok xs)
    (hv : Tree ⟨d.tables, m⟩ depth xs v) (hk : depth ≤ k) :
    Scene.render ⟨d.tables, m⟩ k (Outline.ofBytes d.shape) p = .ok v.text := by
  obtain ⟨htwins, -⟩ := Walk.twins_of_spots hxs hxs
  have hall :=
    Tree.visitAll_text hd.tables hv
      (fun x hx => ⟨hd.root.spot (Walk.has_of_spots hxs x hx), htwins.self x hx,
        (Walk.has_of_spots hxs x hx).eq_ofBytes⟩) hk .empty
  have hrun : Walk.run ⟨d.tables, m⟩ (ValueText.visitor m) k
      (Outline.ofBytes d.shape) [p] .empty =
      .ok (Phrase.empty.siblings ValueText.separator v.texts) :=
        Walk.range_eq_ok_iff.2 ⟨xs, hxs, hall⟩
  have htext : (Phrase.empty.siblings ValueText.separator v.texts).text = v.text := by
    rw [Phrase.empty, Phrase.siblings_text, String.empty_append]
    rfl
  rw [Scene.render, hrun, ← htext]
  rfl

/-! ## Comparing and writing -/

namespace Descriptor

/-- Two values of a shape without floating-point numbers that compare equal are written,
and with the same text: any writing of either gives it, and every writing that may go as
deep as the comparison did comes to an end. -/
theorem render_eq_of_compare_eq {d : Descriptor} (hverify : d.verify = .ok ())
    (hfloat : d.FloatFree) (m : Memory) {a b k : Nat}
    (h : Scene.compare ⟨d.tables, m⟩ k (Outline.ofBytes d.shape) a b = .ok .eq) :
    ∃ text, (∀ depth, k ≤ depth →
        Scene.render ⟨d.tables, m⟩ depth (Outline.ofBytes d.shape) a = .ok text ∧
        Scene.render ⟨d.tables, m⟩ depth (Outline.ofBytes d.shape) b = .ok text) ∧
      (∀ depth left, Scene.render ⟨d.tables, m⟩ depth (Outline.ofBytes d.shape) a =
        .ok left → left = text) ∧
      ∀ depth right, Scene.render ⟨d.tables, m⟩ depth (Outline.ofBytes d.shape) b =
        .ok right → right = text := by
  have hd := verified_of_verify hverify
  obtain ⟨zs, hzs, hall⟩ := Walk.range_eq_ok_iff.1 h
  obtain ⟨xs, ys, hxs, hys, rfl⟩ := Walk.spots_two_eq_ok_iff.1 hzs
  obtain ⟨htwins, hlength⟩ := Walk.twins_of_spots hxs hys
  obtain ⟨v, hleft, hright⟩ :=
    Tree.of_visitAll_eq_of_forall htwins hlength
      (fun x hx => Tree.of_visitSpot_eq hd.tables hfloat.tables k x
        (hd.root.spot (Walk.has_of_spots hxs x hx))
        (Outline.floatFree_spot hfloat.root (Walk.has_of_spots hxs x hx))) hall
  have hdeep : ∀ depth, k ≤ depth →
      ∀ {p ps}, Walk.spots d.tables false (Outline.ofBytes d.shape) [p] false = .ok ps →
      Tree ⟨d.tables, m⟩ k ps v →
      Scene.render ⟨d.tables, m⟩ depth (Outline.ofBytes d.shape) p = .ok v.text :=
    fun depth hk p ps hps hv => Tree.render_eq hd hps hv hk
  have hany : ∀ depth text, ∀ {p ps},
      Walk.spots d.tables false (Outline.ofBytes d.shape) [p] false = .ok ps →
      Tree ⟨d.tables, m⟩ k ps v →
      Scene.render ⟨d.tables, m⟩ depth (Outline.ofBytes d.shape) p = .ok text →
      text = v.text := by
    intro depth text p ps hps hv hrender
    -- Deep enough for both, there is one text.
    have hmono := Scene.render_mono hd.tables hd.root hrender (le_max_left depth k)
    exact Except.ok.inj (hmono.symm.trans (hdeep _ (le_max_right depth k) hps hv))
  exact ⟨v.text,
    fun depth hk => ⟨hdeep depth hk hxs hleft, hdeep depth hk hys hright⟩,
    fun depth text => hany depth text hxs hleft,
    fun depth text => hany depth text hys hright⟩

/-- The value that `samplerMemory` holds at 0, and the same value at 128, with other
bytes between the fields, at the targets and behind the string. -/
def samplerCopies : Memory :=
  samplerMemory.write 128 #[5, 1, 1, 1, 1, 1, 1, 1, 0, 0, 0, 0, 0, 0, 0,
    0, 2, 2, 2, 2, 2, 2, 2, 2,
    0, 0, 0, 0, 0, 0, 0, 0, 192, 0, 0, 0, 0, 0, 0, 0, 224, 0, 0, 0, 0, 0, 0,
    0, 4, 0, 0, 0, 0, 0, 0, 0,
    3, 3, 3, 3, 3, 3, 3, 3, 7, 4, 4, 4, 4, 4, 4, 4, 1, 0, 0, 0, 0, 0, 0,
    0, 9, 5, 5, 5, 5, 5, 5, 5,
    6, 6, 6, 6, 6, 6, 6, 6, 104, 105, 10, 42]

theorem render_eq_of_compare_eq_sampler : sampler.verify = .ok () ∧ sampler.FloatFree ∧
    Scene.compare ⟨sampler.tables, samplerCopies⟩ 1
      (Outline.ofBytes sampler.shape) 0 128 = .ok .eq ∧
    ∀ depth, 1 ≤ depth → Scene.render ⟨sampler.tables, samplerCopies⟩ depth
      (Outline.ofBytes sampler.shape) 128 =
      .ok "(5, , ~(null), &(7, (9)), \"hi\\n\", res)" := by
  have hverify : sampler.verify = .ok () := by decide +kernel
  have hfloat : sampler.FloatFree := ⟨by decide +kernel, by decide +kernel⟩
  have hequal : Scene.compare ⟨sampler.tables, samplerCopies⟩ 1
      (Outline.ofBytes sampler.shape) 0 128 = .ok .eq := by
    decide +kernel
  have hfirst :
      Scene.render ⟨sampler.tables, samplerCopies⟩ 1 (Outline.ofBytes sampler.shape) 0 =
      .ok "(5, , ~(null), &(7, (9)), \"hi\\n\", res)" := by decide +kernel
  obtain ⟨text, hdeep, hleft, -⟩ :=
    render_eq_of_compare_eq hverify hfloat samplerCopies hequal
  obtain rfl := hleft 1 _ hfirst
  exact ⟨hverify, hfloat, hequal, fun depth hdepth => (hdeep depth hdepth).2⟩

end Descriptor

end ShapeCode
