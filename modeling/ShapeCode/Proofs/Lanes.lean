import ShapeCode.Proofs.ProperLayout
import ShapeCode.Proofs.Visits

set_option autoImplicit false

/-!
# Walks over several lanes

A walk may move several lanes at once, each a fixed distance from the first
(`Cursor.spread`).  Where all lanes can be placed they are placed alike, so that the
walk stands at the spots of the first lane alone (`Scene.visited_spread`).  Distances
are multiples of eight, which every alignment of a shape divides, and the end of memory
does no harm: it is a multiple of eight too.
-/

namespace ShapeCode

/-! ## Lanes at fixed distances -/

namespace Cursor

/-- An address, and the addresses at the given distances from it. -/
def spread (distances : List Nat) (a : Nat) : Cursor :=
  a :: distances.map fun n => Word.wrap (a + n)

variable {distances : List Nat} {a b e n align : Nat}

@[simp] theorem spread_nil (a : Nat) : spread [] a = [a] := rfl

/-- Moving twice around memory does not depend on the order. -/
theorem wrap_comm (a n k : Nat) :
    Word.wrap (Word.wrap (a + k) + n) = Word.wrap (Word.wrap (a + n) + k) := by
  unfold Word.wrap
  rw [Nat.mod_add_mod, Nat.mod_add_mod, Nat.add_right_comm]

theorem advance_spread :
    (spread distances a).advance n = spread distances (Word.wrap (a + n)) := by
  simp only [spread, advance, List.map_cons, List.map_map, List.cons.injEq, true_and]
  apply List.map_congr_left
  intro k _
  exact wrap_comm a n k

/-- Rounding up commutes with a shift by a multiple of eight, around the
end of memory too. -/
theorem alignUp_wrap {k c : Nat} (halign : Word.IsAlign align) (hk : 8 ∣ k)
    (hb : Word.alignUp a align = .ok b)
    (hc : Word.alignUp (Word.wrap (a + k)) align = .ok c) : c = Word.wrap (b + k) := by
  obtain ⟨-, hlimit, rfl⟩ := Word.alignUp_eq_ok_iff.1 hb
  obtain ⟨-, hlimit', rfl⟩ := Word.alignUp_eq_ok_iff.1 hc
  unfold Word.wrap Word.roundUp Word.limit at *
  rcases halign with rfl | rfl | rfl | rfl <;> omega

/-- All lanes are placed where the first is. -/
theorem place_spread {aligned : Bool} {c : Cursor} (halign : Word.IsAlign align)
    (hd : ∀ n ∈ distances, 8 ∣ n) (hb : Walk.place aligned align [a] = .ok [b])
    (hc : Walk.place aligned align (spread distances a) = .ok c) :
    c = spread distances b := by
  cases aligned with
  | false =>
    obtain rfl := List.singleton_inj.1 (Except.ok.inj hb)
    exact (Except.ok.inj hc).symm
  | true =>
    simp only [Walk.place, if_true, alignUp] at hb hc
    obtain ⟨b', bs, hfirst, hbs, hb⟩ := mapM_cons_eq_ok_iff.1 hb
    obtain rfl := Except.ok.inj hbs
    obtain rfl := List.singleton_inj.1 hb
    obtain ⟨c', cs, hc', hcs, rfl⟩ := mapM_cons_eq_ok_iff.1 hc
    obtain rfl := Except.ok.inj (hc'.symm.trans hfirst)
    simp only [spread, List.cons.injEq, true_and]
    clear hc
    induction distances generalizing cs with
    | nil => exact (Except.ok.inj hcs).symm
    | cons k rest ih =>
      rw [List.forall_mem_cons] at hd
      rw [List.map_cons] at hcs
      obtain ⟨x, xs, hx, hxs, rfl⟩ := mapM_cons_eq_ok_iff.1 hcs
      simp only [List.map_cons, List.cons.injEq]
      exact ⟨alignUp_wrap halign hd.1 hfirst hx, ih hd.2 xs hxs⟩

theorem fits_of_spread (h : (spread distances a).fits (spread distances e) n = true) :
    fits [a] [e] n = true := by
  simp only [fits, spread, distance, List.zipWith_cons_cons,
    List.all_cons, Bool.and_eq_true] at h
  simpa [fits, distance] using h.2.1

end Cursor

/-- The elements of a fixed vector follow one another from the vector on. -/
theorem Span.resolve_fixedVec_eq_ok {t : Tables} {m : Memory} {count : UInt16}
    {plain : Bool} {elem : Bytes} {inner : Outline} {c : Cursor} {span : Span}
    (h : Span.resolve t m (.fixedVec count) plain elem inner c = .ok span) :
    ∃ spacing, inner.spacing t = .ok spacing ∧
      span = ⟨.fixedVec count, plain, elem, spacing.stride, c,
        c.advance (count.toNat * spacing.stride)⟩ := by
  unfold resolve at h
  split at h
  · cases h
  · rename_i spacing hspacing
    split at h
    · cases h
    · rename_i stop hstop
      have hadvance : stop = c.advance (count.toNat * spacing.stride) := by
        refine eq_map_of_mapM (fun a e he => ?_) hstop
        simp only [laneStop] at he
        split at he
        · cases he
        · rename_i n hn
          obtain ⟨-, rfl⟩ := Word.mul_eq_ok_iff.1 hn
          exact (Except.ok.inj he).symm
      refine ⟨spacing, hspacing, ?_⟩
      have hstart : c.map (laneStart m spacing.dataOffset (.fixedVec count)) = c :=
        List.map_id c
      rw [← Except.ok.inj h, hadvance, hstart]

/-! ## Spots of one lane -/

namespace Walk

variable {t : Tables}

theorem place_single {aligned : Bool} {align a : Nat} {c : Cursor}
    (h : place aligned align [a] = .ok c) : ∃ b, c = [b] := by
  cases aligned with
  | false => exact ⟨a, (Except.ok.inj h).symm⟩
  | true =>
    simp only [place, if_true, Cursor.alignUp] at h
    obtain ⟨b, bs, -, hbs, rfl⟩ := mapM_cons_eq_ok_iff.1 h
    obtain rfl := Except.ok.inj hbs
    exact ⟨b, rfl⟩

theorem cursor_of_spots {single : Bool} {o : Outline} {a : Nat} {aligned : Bool}
    {xs : List Spot} (h : spots t single o [a] aligned = .ok xs) :
    ∀ x ∈ xs, ∃ b, x.cursor = [b] := by
  induction o generalizing single a aligned xs with
  | done =>
    cases single with
    | true => cases h
    | false =>
      obtain rfl := Except.ok.inj h
      simp
  | broken f => cases h
  | cons node inner rest _ ih =>
    simp only [spots] at h
    split at h
    · cases h
    · split at h
      · cases h
      · rename_i c hplace
        obtain ⟨b, rfl⟩ := place_single hplace
        cases single with
        | true =>
          obtain rfl := Except.ok.inj h
          simp
        | false =>
          simp only [Bool.false_eq_true, if_false] at h
          split at h
          · cases h
          · rename_i later hlater
            obtain rfl := Except.ok.inj h
            rw [List.forall_mem_cons]
            exact ⟨⟨b, rfl⟩, ih hlater⟩

theorem cursor_of_elementSpots {span : Span} {inner : Outline} {bound a : Nat}
    {xs : List Spot} (h : elementSpots t inner (span.elementsFrom bound [a]) = .ok xs) :
    ∀ x ∈ xs, ∃ b, x.cursor = [b] := by
  induction bound generalizing a xs with
  | zero =>
    obtain rfl := Except.ok.inj h
    simp
  | succ bound ih =>
    simp only [Span.elementsFrom] at h
    split at h
    · simp only [elementSpots] at h
      split at h
      · cases h
      · rename_i elem helem
        split at h
        · cases h
        · rename_i later hlater
          obtain rfl := Except.ok.inj h
          rw [List.forall_mem_append]
          exact ⟨cursor_of_spots helem, ih hlater⟩
    · obtain rfl := Except.ok.inj h
      simp

end Walk

namespace Scene

variable {s : Scene} {o : Outline} {x : Spot}

theorem cursor_of_inside {a : Nat} (hx : x.cursor = [a]) {ys : List Spot}
    (h : s.inside x = .ok ys) : ∀ y ∈ ys, ∃ b, y.cursor = [b] := by
  obtain ⟨node, inner, c, l⟩ := x
  simp only at hx
  subst hx
  cases node with
  | scalar | handle | pointer =>
    obtain rfl := Except.ok.inj h
    simp
  | record | resource => exact Walk.cursor_of_spots h
  | union id =>
    simp only [inside] at h
    split at h
    · cases h
    · split at h
      · obtain rfl := Except.ok.inj h
        simp
      · obtain ⟨u, fields, -, -, hspots⟩ := variantSpots_eq_ok h
        split at hspots
        · exact Walk.cursor_of_spots hspots
        · exact Walk.cursor_of_spots hspots
  | run form =>
    cases form with
    | vec | unboxedVec | slice =>
      obtain rfl := Except.ok.inj h
      simp
    | fixedVec count =>
      simp only [inside] at h
      split at h
      · cases h
      · rename_i span hspan
        obtain ⟨spacing, -, rfl⟩ := Span.resolve_fixedVec_eq_ok hspan
        exact Walk.cursor_of_elementSpots h

theorem cursor_of_visited {a : Nat} (h : s.Visited o [a] x) : ∃ b, x.cursor = [b] := by
  induction h with
  | @root xs x hxs hx => exact Walk.cursor_of_spots hxs x hx
  | @inside x y ys _ hys hy ih =>
    obtain ⟨b, hb⟩ := ih
    exact cursor_of_inside hb hys y hy

end Scene

/-! ## Spots of several lanes -/

/-- The spot in more lanes. -/
def Spot.spread (distances : List Nat) (x : Spot) : Spot :=
  { x with cursor := Cursor.spread distances (x.cursor.headD 0) }

/-- In no more lanes a spot is itself. -/
theorem Spot.spread_nil {x : Spot} (h : ∃ b, x.cursor = [b]) : x.spread [] = x := by
  obtain ⟨node, inner, c, l⟩ := x
  obtain ⟨b, rfl⟩ := h
  rfl

namespace Walk

variable {t : Tables} {distances : List Nat}

/-- The spots of a range are those of the first lane, if all lanes can be placed. -/
theorem spots_spread (ht : t.Verified) (hd : ∀ n ∈ distances, 8 ∣ n) {single : Bool}
    {o : Outline} (ho : o.Sound t) {a : Nat} {aligned : Bool} {xs ys : List Spot}
    (hxs : spots t single o [a] aligned = .ok xs)
    (hys : spots t single o (Cursor.spread distances a) aligned = .ok ys) :
    ys = xs.map (Spot.spread distances) := by
  induction o generalizing single a aligned xs ys with
  | done =>
    cases single with
    | true => cases hxs
    | false =>
      obtain rfl := Except.ok.inj hxs
      obtain rfl := Except.ok.inj hys
      rfl
  | broken f => cases hxs
  | cons node inner rest _ ih =>
    obtain ⟨hids, -, hinner, hrest⟩ := ho
    simp only [spots] at hxs hys
    split at hxs
    · cases hxs
    · rename_i l hl
      simp only [hl] at hys
      split at hxs
      · cases hxs
      · rename_i c hplace
        split at hys
        · cases hys
        · rename_i c' hplace'
          obtain ⟨b, rfl⟩ := place_single hplace
          rw [ht.node_layout_eq hids hinner] at hl
          have halign := (ht.nodeLayout_proper hids hinner hl).isAlign
          obtain rfl := Cursor.place_spread halign hd hplace hplace'
          cases single with
          | true =>
            obtain rfl := Except.ok.inj hxs
            obtain rfl := Except.ok.inj hys
            rfl
          | false =>
            simp only [Bool.false_eq_true, if_false, Cursor.advance_spread] at hxs hys
            split at hxs
            · cases hxs
            · rename_i later hlater
              split at hys
              · cases hys
              · rename_i later' hlater'
                obtain rfl := Except.ok.inj hxs
                obtain rfl := Except.ok.inj hys
                rw [List.map_cons, ih hrest hlater hlater']
                rfl

/-- The spots of elements are among those of the first lane. -/
theorem elementSpots_spread (ht : t.Verified) (hd : ∀ n ∈ distances, 8 ∣ n)
    {inner : Outline} (hinner : inner.Sound t) {span first : Span} {bound a e : Nat}
    {xs ys : List Spot} (hxs : elementSpots t inner (first.elementsFrom bound [a]) = .ok xs)
    (hys : elementSpots t inner
      (span.elementsFrom bound (Cursor.spread distances a)) = .ok ys)
    (hfirst : first.stop = [e]) (hstop : span.stop = Cursor.spread distances e)
    (hstride : first.stride = span.stride) :
    ∀ y ∈ ys, ∃ x ∈ xs, y = x.spread distances := by
  induction bound generalizing a xs ys with
  | zero =>
    obtain rfl := Except.ok.inj hys
    simp
  | succ bound ih =>
    simp only [Span.elementsFrom] at hxs hys
    split at hys
    · rename_i hhas
      -- An element in every lane is one in the first.
      have helem : first.hasElement [a] = true := by
        simp only [Span.hasElement, hstop, Bool.and_eq_true] at hhas
        simp only [Span.hasElement, hfirst, hstride, Bool.and_eq_true]
        exact ⟨hhas.1, Cursor.fits_of_spread hhas.2⟩
      rw [if_pos helem] at hxs
      simp only [elementSpots] at hxs hys
      split at hxs
      · cases hxs
      · rename_i elem helemSpots
        split at hxs
        · cases hxs
        · rename_i later hlater
          split at hys
          · cases hys
          · rename_i elem' helemSpots'
            split at hys
            · cases hys
            · rename_i later' hlater'
              obtain rfl := Except.ok.inj hxs
              obtain rfl := Except.ok.inj hys
              rw [Cursor.advance_spread] at hlater'
              rw [hstride] at hlater
              intro y hy
              rcases List.mem_append.1 hy with hy | hy
              · rw [spots_spread ht hd hinner helemSpots helemSpots', List.mem_map] at hy
                obtain ⟨x, hx, rfl⟩ := hy
                exact ⟨x, List.mem_append_left _ hx, rfl⟩
              · obtain ⟨x, hx, rfl⟩ := ih hlater hlater' y hy
                exact ⟨x, List.mem_append_right _ hx, rfl⟩
    · obtain rfl := Except.ok.inj hys
      simp

end Walk

namespace Scene

variable {t : Tables} {m m' : Memory} {distances : List Nat}

/-- A union selects the same in the first lane of one memory and in the single
lane of another. -/
def SelectsSame (t : Tables) (m m' : Memory) (distances : List Nat) (x : Spot) : Prop :=
  ∀ id u, x.node = .union id → t.union id = .ok u →
    ((Scene.mk t m').discriminants u (x.spread distances).cursor).head? =
      ((Scene.mk t m).discriminants u x.cursor).head?

theorem SelectsSame.eq_cons {x : Spot} (h : SelectsSame t m m' distances x) {id : UInt16}
    {u : Union} (hid : x.node = .union id) (hu : t.union id = .ok u) {selected : Nat}
    {more : List Nat}
    (hselected :
      (Scene.mk t m').discriminants u (x.spread distances).cursor = selected :: more) :
    ∃ more', (Scene.mk t m).discriminants u x.cursor = selected :: more' := by
  have hhead := h id u hid hu
  rw [hselected, List.head?_cons] at hhead
  exact List.head?_eq_some_iff.1 hhead.symm

/-- The spots of a variant are those of the first lane, if all lanes can be placed. -/
theorem variantSpots_spread (ht : t.Verified) (hd : ∀ n ∈ distances, 8 ∣ n)
    {id : UInt16} {selected a : Nat} {xs ys : List Spot}
    (hxs : (Scene.mk t m).variantSpots id selected [a] = .ok xs)
    (hys : (Scene.mk t m').variantSpots id selected (Cursor.spread distances a) = .ok ys) :
    ys = xs.map (Spot.spread distances) := by
  obtain ⟨u, fields, hu, hfields, hxs⟩ := variantSpots_eq_ok hxs
  obtain ⟨u', fields', hu', hfields', hys⟩ := variantSpots_eq_ok hys
  obtain rfl := Except.ok.inj (hu.symm.trans hu')
  obtain rfl := Except.ok.inj (hfields.symm.trans hfields')
  have hsound := ht.sound.of_union hu hfields
  cases hd' : u.hasDiscriminant with
  | true =>
    simp only [hd', if_true, Cursor.advance_spread] at hxs hys
    exact Walk.spots_spread ht hd hsound hxs hys
  | false =>
    simp only [hd', Bool.false_eq_true, if_false] at hxs hys
    exact Walk.spots_spread ht hd hsound hxs hys

/-- What is inside a spot of several lanes is inside that of the first, if a union
selects the same there. -/
theorem inside_spread (ht : t.Verified) (hd : ∀ n ∈ distances, 8 ∣ n) {x : Spot}
    (hx : x.Sound t) (hcursor : ∃ b, x.cursor = [b])
    (hselects : SelectsSame t m m' distances x) {ys zs : List Spot}
    (hys : (Scene.mk t m).inside x = .ok ys)
    (hzs : (Scene.mk t m').inside (x.spread distances) = .ok zs) :
    ∀ z ∈ zs, ∃ y ∈ ys, z = y.spread distances := by
  have hmap : ∀ {xs : List Spot}, zs = xs.map (Spot.spread distances) →
      ∀ z ∈ zs, ∃ y ∈ xs, z = y.spread distances := by
    rintro xs rfl z hz
    obtain ⟨y, hy, rfl⟩ := List.mem_map.1 hz
    exact ⟨y, hy, rfl⟩
  obtain ⟨b, hb⟩ := hcursor
  obtain ⟨node, inner, c, l⟩ := x
  obtain ⟨-, -, hinner⟩ := hx
  simp only at hb hinner
  subst hb
  cases node with
  | scalar | handle | pointer =>
    obtain rfl := Except.ok.inj hzs
    simp
  | record | resource => exact hmap (Walk.spots_spread ht hd hinner hys hzs)
  | union id =>
    simp only [inside, Spot.spread] at hys hzs
    split at hys
    · cases hys
    · rename_i u hu
      simp only [hu, List.headD_cons] at hzs
      cases hdiscriminants :
        (Scene.mk t m').discriminants u (Cursor.spread distances b) with
      | nil =>
        simp only [hdiscriminants] at hzs
        obtain rfl := Except.ok.inj hzs
        simp
      | cons selected more =>
        obtain ⟨more', hmore⟩ := hselects.eq_cons rfl hu hdiscriminants
        simp only [hmore] at hys
        simp only [hdiscriminants] at hzs
        exact hmap (variantSpots_spread ht hd hys hzs)
  | run form =>
    cases form with
    | vec | unboxedVec | slice =>
      obtain rfl := Except.ok.inj hzs
      simp
    | fixedVec count =>
      simp only [inside, Spot.spread, List.headD_cons] at hys hzs
      split at hys
      · cases hys
      · rename_i first hfirst
        split at hzs
        · cases hzs
        · rename_i span hspan
          obtain ⟨spacing, hspacing, rfl⟩ := Span.resolve_fixedVec_eq_ok hspan
          obtain ⟨spacing', hspacing', rfl⟩ := Span.resolve_fixedVec_eq_ok hfirst
          obtain rfl := Except.ok.inj (hspacing.symm.trans hspacing')
          exact Walk.elementSpots_spread ht hd hinner hys hzs rfl Cursor.advance_spread rfl

/-- What a walk over several lanes visits are the spots that it visits with the first
lane, in all lanes. -/
theorem visited_spread (ht : t.Verified) (hd : ∀ n ∈ distances, 8 ∣ n) {o : Outline}
    (ho : o.Sound t) {a : Nat} (hcompletes : (Scene.mk t m).Completes o [a])
    (hselects : ∀ x, (Scene.mk t m).Visited o [a] x → SelectsSame t m m' distances x)
    {z : Spot} (hz : (Scene.mk t m').Visited o (Cursor.spread distances a) z) :
    ∃ x, (Scene.mk t m).Visited o [a] x ∧ x.Sound t ∧ z = x.spread distances := by
  induction hz with
  | @root zs z hzs hmem =>
    obtain ⟨xs, hxs⟩ := hcompletes.root
    rw [Walk.spots_spread ht hd ho hxs hzs, List.mem_map] at hmem
    obtain ⟨x, hx, rfl⟩ := hmem
    exact ⟨x, .root hxs hx, ho.spot (Walk.has_of_spots hxs x hx), rfl⟩
  | @inside z w zs _ hzs hmem ih =>
    obtain ⟨x, hx, hsound, rfl⟩ := ih
    obtain ⟨ys, hys⟩ := hcompletes.inside x hx
    obtain ⟨y, hy, rfl⟩ :=
      inside_spread ht hd hsound (cursor_of_visited hx) (hselects x hx) hys hzs w hmem
    exact ⟨y, .inside hx hys hy, hsound.inside ht.sound hys y hy, rfl⟩

end Scene

end ShapeCode
