import Mathlib.Logic.Relation
import ShapeCode.Proofs.InlinePlaces
import ShapeCode.Proofs.ReachableAddresses
import ShapeCode.Proofs.Slots
import ShapeCode.Proofs.Stretches
import ShapeCode.Proofs.TwoLanes

set_option autoImplicit false

/-!
# Two lanes in lockstep

A walk of two lanes steers by its first lane, except where the elements of a run have to fit
in both.  In a shape that holds no address the only runs are fixed vectors, whose elements
fit wherever the vector does, so the walk leaves the trail of its first lane whatever the
second lane reads (`Scene.firstLane_inStep`).  The lanes stay as far apart as they started
if they started at congruent addresses, since no alignment exceeds eight.

What can part the lanes is the end of the address space.  `Scene.NeverWraps` keeps every
cursor of the walk before it, and says no more than that: it asks nothing of what the
walk does not get to (`Scene.Leads`).

A walk of the same lane twice is in step with the walk of that lane, whatever the shape
holds (`Scene.doubled_inStep`).
-/

namespace ShapeCode

/-! ## The address space -/

/-- The stretch starts with a node, which is placed at a cursor. -/
structure Stretch.Starts (t : Tables) (x : Stretch) (node : Node) (inner rest : Outline)
    (l : Layout) (d : Cursor) : Prop where
  outline : x.outline = .cons node inner rest
  layout : node.layout t inner = .ok l
  placed : Walk.place x.aligned l.align x.cursor = .ok d

/-- The first node of a stretch. -/
def Stretch.first (x : Stretch) : Stretch := { x with single := true }

namespace Scene

variable {s : Scene} {x y : Stretch} {node : Node} {inner rest : Outline}
  {l : Layout} {c d : Cursor}

/-- A walk moves a cursor forward by a number of bytes: to round it up, past a node
whose inside comes to an end, past a discriminant, or to the end of a fixed vector. -/
inductive Moves (s : Scene) (x : Stretch) : Cursor → Nat → Prop where
  -- Rounding up adds the alignment before it clears the low bits, so a cursor is moved
  -- that far first.
  | round {node : Node} {inner rest : Outline} {l : Layout}
      (ho : x.outline = .cons node inner rest) (hl : node.layout s.tables inner = .ok l)
      (haligned : x.aligned = true) : Moves s x x.cursor l.align
  | past {node : Node} {inner rest : Outline} {l : Layout} {d : Cursor}
      (hx : x.Starts s.tables node inner rest l d) (hends : x.first.Ends s) :
      Moves s x d l.size
  | discriminant {id : UInt16} {u : Union} {inner rest : Outline} {l : Layout} {d : Cursor}
      (hx : x.Starts s.tables (.union id) inner rest l d) (hu : s.tables.union id = .ok u)
      (hd : u.hasDiscriminant = true) : Moves s x d Word.size
  | elements {count : UInt16} {plain : Bool} {elem : Bytes} {inner rest : Outline}
      {l : Layout} {d : Cursor}
      (hx : x.Starts s.tables (.run (.fixedVec count) plain elem) inner rest l d) :
      Moves s x d l.size

/-- A walk gets from one stretch to another: inside its first node, or to what follows
if that comes to an end. -/
inductive Leads (s : Scene) (x : Stretch) : Stretch → Prop where
  | onward {node : Node} {inner rest : Outline} {l : Layout} {d : Cursor}
      (hx : x.Starts s.tables node inner rest l d) (hsingle : x.single = false)
      (hends : x.first.Ends s) : Leads s x ⟨false, rest, d.advance l.size, true⟩
  | inside {node : Node} {inner rest : Outline} {l : Layout} {d : Cursor}
      {before after : List Stretch} {y : Stretch}
      (hx : x.Starts s.tables node inner rest l d)
      (hin : s.within node inner d = .ok (before ++ y :: after))
      (hends : ∀ z ∈ before, z.Ends s) : Leads s x y

/-- Wherever a walk gets from the stretch, no lane is moved out of the address space. -/
def NeverWraps (s : Scene) (x : Stretch) : Prop :=
  ∀ y, Relation.ReflTransGen s.Leads x y → ∀ c n, s.Moves y c n →
    ∀ a ∈ c, a + n < Word.limit

theorem NeverWraps.moves {n : Nat} (h : s.NeverWraps x) (hmoves : s.Moves x c n) :
    ∀ a ∈ c, a + n < Word.limit :=
  h x .refl c n hmoves

theorem NeverWraps.leads (h : s.NeverWraps x) (hleads : s.Leads x y) : s.NeverWraps y :=
  fun z hz => h z (.head hleads hz)

/-- Where a walk may get from a stretch, if nothing stops it. -/
def next (s : Scene) (x : Stretch) : List Stretch :=
  match x.outline with
  | .done | .broken _ => []
  | .cons node inner rest =>
    match node.layout s.tables inner with
    | .error _ => []
    | .ok l =>
      match Walk.place x.aligned l.align x.cursor with
      | .error _ => []
      | .ok d =>
        ⟨false, rest, d.advance l.size, true⟩ ::
          match s.within node inner d with
          | .error _ => []
          | .ok xs => xs

/-- Whether the first node of a stretch leaves room for it and for a word in
the address space. -/
def hasRoom? (s : Scene) (x : Stretch) : Bool :=
  match x.outline with
  | .done | .broken _ => true
  | .cons node inner _ =>
    match node.layout s.tables inner with
    | .error _ => true
    | .ok l =>
      x.cursor.all (fun a => a + l.align < Word.limit) &&
        match Walk.place x.aligned l.align x.cursor with
        | .error _ => true
        | .ok d => d.all fun a => a + max l.size Word.size < Word.limit

/-- Whether a walk from the stretch is at its end in so many steps, and has
room all the way. -/
def hasRoomWithin? (s : Scene) : (steps : Nat) → Stretch → Bool
  | 0, _ => false
  | steps + 1, x => s.hasRoom? x && (s.next x).all (s.hasRoomWithin? steps)

theorem mem_next_of_leads (h : s.Leads x y) : y ∈ s.next x := by
  cases h with
  | onward hx =>
    simp only [next, hx.outline, hx.layout, hx.placed]
    exact List.mem_cons_self
  | inside hx hin =>
    simp only [next, hx.outline, hx.layout, hx.placed, hin]
    simp

theorem lt_limit_of_moves {n : Nat} (hroom : s.hasRoom? x = true) (h : s.Moves x c n) :
    ∀ a ∈ c, a + n < Word.limit := by
  have hplaced : ∀ {node inner rest l d}, x.Starts s.tables node inner rest l d →
      ∀ a ∈ d, a + max l.size Word.size < Word.limit := by
    intro node inner rest l d hx
    simp only [hasRoom?, hx.outline, hx.layout, hx.placed, Bool.and_eq_true,
      List.all_eq_true, decide_eq_true_eq] at hroom
    exact hroom.2
  intro a ha
  cases h with
  | round ho hl =>
    simp only [hasRoom?, ho, hl, Bool.and_eq_true, List.all_eq_true,
      decide_eq_true_eq] at hroom
    exact hroom.1 a ha
  | past hx | discriminant hx | elements hx =>
    have := hplaced hx a ha
    omega

theorem neverWraps_of_hasRoomWithin? (steps : Nat)
    (h : s.hasRoomWithin? steps x = true) : s.NeverWraps x := by
  induction steps generalizing x with
  | zero => cases h
  | succ steps ih =>
    simp only [hasRoomWithin?, Bool.and_eq_true, List.all_eq_true] at h
    intro y hy c n hmoves
    rcases hy.cases_head with rfl | ⟨z, hz, hzy⟩
    · exact lt_limit_of_moves h.1 hmoves
    · exact ih (h.2 z (mem_next_of_leads hz)) y hzy c n hmoves

end Scene

/-! ## Stretches of one outline -/

/-- Stretches of one outline at related cursors. -/
structure Stretch.Along (p : Cursor → Cursor → Prop) (x y : Stretch) : Prop where
  single : x.single = y.single
  outline : x.outline = y.outline
  aligned : x.aligned = y.aligned
  cursor : p x.cursor y.cursor

theorem Stretch.Along.of_cursor {p : Cursor → Cursor → Prop} {single aligned : Bool}
    {o : Outline} {c d : Cursor} (h : p c d) :
    Along p ⟨single, o, c, aligned⟩ ⟨single, o, d, aligned⟩ :=
  ⟨rfl, rfl, rfl, h⟩

/-! ## The first lane -/

/-- A cursor of two lanes and its first lane.  Lanes that start from congruent addresses
are as far apart as those. -/
def FirstLane (a b : Nat) (c d : Cursor) : Prop :=
  ∃ p q, c = [p, q] ∧ d = [p] ∧ (a % 8 = b % 8 → q + a = p + b)

namespace FirstLane

variable {a b n : Nat} {c d : Cursor}

theorem shift (h : FirstLane a b c d) (n : Nat) :
    FirstLane a b (c.map (· + n)) (d.map (· + n)) := by
  obtain ⟨p, q, rfl, rfl, happart⟩ := h
  refine ⟨p + n, q + n, rfl, rfl, fun hmod => ?_⟩
  have := happart hmod
  omega

theorem advance (h : FirstLane a b c d) (hroom : ∀ q ∈ c, q + n < Word.limit) :
    FirstLane a b (c.advance n) (d.advance n) := by
  obtain ⟨p, q, rfl, rfl, happart⟩ := h
  simp only [List.forall_mem_cons] at hroom
  refine ⟨p + n, q + n, ?_, ?_, fun hmod => ?_⟩
  · simp [Cursor.advance, Word.wrap_of_lt hroom.1, Word.wrap_of_lt hroom.2.1]
  · simp [Cursor.advance, Word.wrap_of_lt hroom.1]
  · have := happart hmod
    omega

/-- Both cursors are placed, at the same first lane. -/
theorem place {align : Nat} {aligned : Bool} (halign : Word.IsAlign align)
    (h : FirstLane a b c d)
    (hroom : aligned = true → ∀ q ∈ c, q + align < Word.limit) :
    ∃ c' d', Walk.place aligned align c = .ok c' ∧
      Walk.place aligned align d = .ok d' ∧ FirstLane a b c' d' := by
  cases aligned with
  | false => exact ⟨c, d, rfl, rfl, h⟩
  | true =>
    obtain ⟨p, q, rfl, rfl, happart⟩ := h
    have hroom := hroom rfl
    simp only [List.forall_mem_cons] at hroom
    have hp : Word.alignUp p align = .ok (Word.roundUp p align) :=
      Word.alignUp_eq_ok_iff.2 ⟨halign.isPowerOfTwo, hroom.1, rfl⟩
    have hq : Word.alignUp q align = .ok (Word.roundUp q align) :=
      Word.alignUp_eq_ok_iff.2 ⟨halign.isPowerOfTwo, hroom.2.1, rfl⟩
    refine ⟨[Word.roundUp p align, Word.roundUp q align], [Word.roundUp p align], ?_, ?_,
      _, _, rfl, rfl, fun hmod => ?_⟩
    · simp [Walk.place, Cursor.alignUp, hp, hq, bind, Except.bind, pure, Except.pure]
    · simp [Walk.place, Cursor.alignUp, hp, bind, Except.bind, pure, Except.pure]
    · have := happart hmod
      unfold Word.roundUp
      rcases halign with rfl | rfl | rfl | rfl <;> omega

end FirstLane

/-- A stretch of two lanes and the stretch of its first lane, in a range that
holds no address. -/
structure Stretch.Follows (t : Tables) (st : Flat.State) (a b : Nat) (x y : Stretch) : Prop
    extends Stretch.Along (FirstLane a b) x y where
  sound : x.outline.Sound t
  covers : st.Covers x.outline

namespace Scene

variable {t : Tables} (ht : t.Verified) {m : Memory} {st : Flat.State} {a b : Nat}
  {x : Stretch} {node : Node}
  {inner rest : Outline} {l : Layout} {d d' : Cursor}

include ht

/-- The elements of a fixed vector follow one another in all lanes. -/
theorem within_fixedVec {count : UInt16} {plain : Bool} {elem : Bytes}
    (hinner : inner.Sound t)
    (hl : t.nodeLayout (.run (.fixedVec count) plain elem) inner = .ok l) :
    ∃ n stride, ∀ c, c ≠ [] → (∀ q ∈ c, q + l.size < Word.limit) →
      (Scene.mk t m).within (.run (.fixedVec count) plain elem) inner c =
        .ok ((List.range n).map fun i =>
          ⟨true, inner, c.map (· + i * stride), false⟩) := by
  obtain ⟨el, hel, hcopies⟩ := Tables.Verified.fixedVec_eq_ok hl
  have hproper := ht.rangeLayout_proper hinner Layout.isAlign_empty hel
  have helem : inner.layout t = .ok el := (ht.layout_eq hinner).trans hel
  obtain ⟨hsize, rfl⟩ := Layout.copies_eq_ok_iff.1 hcopies
  rcases Nat.eq_zero_or_pos el.size with hzero | hpos
  · refine ⟨0, 0, fun c hc hroom => ?_⟩
    simp only [within, Tables.Verified.resolve_lanes hproper helem hsize hroom]
    rw [Span.elements_of_stride_zero hzero]
    rfl
  · refine ⟨count.toNat, el.size, fun c hc hroom => ?_⟩
    simp only [within, Tables.Verified.resolve_lanes hproper helem hsize hroom]
    rw [Span.elements_fixedVec hc rfl rfl hpos hroom, List.map_map]
    rfl

/-- Inside a node of a range that holds no address, the first lane comes to the
same as both lanes. -/
theorem within_follows
    (hmet : ∀ id u, st.hasMet id = true → t.union id = .ok u →
      ∀ fields ∈ u.variants, st.Covers (Outline.ofBytes fields))
    (hsound : (Outline.cons node inner rest).Sound t)
    (hcovers : st.Covers (.cons node inner rest)) (hx : x.Starts t node inner rest l d)
    (hspace : (Scene.mk t m).NeverWraps x) (hd : FirstLane a b d d') :
    SameEnd (List.Forall₂ (Stretch.Follows t st a b)) ((Scene.mk t m).within node inner d)
      ((Scene.mk t m).within node inner d') := by
  obtain ⟨hids, -, hinner, -⟩ := hsound
  cases node with
  | scalar | handle => exact .nil
  | record | resource =>
    exact .cons ⟨.of_cursor hd, hinner, hcovers.of_cons_inner rfl⟩ .nil
  | pointer => cases hcovers.pointerFree.1
  | union id =>
    obtain ⟨u, hu⟩ : ∃ u, t.union id = .ok u := ⟨_, Tables.union_of_lt hids⟩
    obtain ⟨p, q, rfl, rfl, happart⟩ := hd
    have hd : FirstLane a b [p, q] [p] := ⟨p, q, rfl, rfl, happart⟩
    simp only [within, hu, discriminants_eq_map, List.map_cons]
    cases hfields : u.variant ((Scene.mk t m).discriminant u p) with
    | error f => rfl
    | ok fields =>
      have hstart : FirstLane a b (if u.hasDiscriminant
          then Cursor.advance [p, q] Word.size else [p, q])
          (if u.hasDiscriminant then Cursor.advance [p] Word.size else [p]) := by
        split
        · rename_i hdisc
          exact hd.advance (hspace.moves (.discriminant hx hu hdisc))
        · exact hd
      have hmem := Union.mem_of_variant hfields
      exact .cons ⟨.of_cursor hstart, ht.sound.of_union hu hfields,
        hmet id u (hcovers.met id (.inl rfl)) hu fields hmem⟩ .nil
  | run form plain elem =>
    cases form with
    | vec | unboxedVec | slice => cases hcovers.pointerFree.1
    | fixedVec count =>
      have hl := hx.layout
      rw [ht.node_layout_eq hids hinner] at hl
      obtain ⟨n, stride, hwithin⟩ := within_fixedVec ht (m := m) hinner hl
      have hroom := hspace.moves (.elements hx)
      have hlanes : d ≠ [] ∧ d' ≠ [] ∧ ∀ q ∈ d', q ∈ d := by
        obtain ⟨p, q, rfl, rfl, -⟩ := hd
        simp
      rw [hwithin d hlanes.1 hroom,
        hwithin d' hlanes.2.1 fun q hq => hroom q (hlanes.2.2 q hq)]
      have helems : ∀ i ∈ List.range n, Stretch.Follows t st a b
          ⟨true, inner, d.map (· + i * stride), false⟩ ⟨true, inner,
            d'.map (· + i * stride), false⟩ :=
        fun i _ => ⟨.of_cursor (hd.shift (i * stride)), hinner,
          hcovers.of_cons_inner rfl⟩
      exact List.forall₂_map_left_iff.2
        (List.forall₂_map_right_iff.2 (List.forall₂_same.2 helems))

/-- In a range that holds no address the walk of both lanes and the walk of the first
are in step, as long as no lane is moved out of the address space. -/
theorem firstLane_inStep
    (hmet : ∀ id u, st.hasMet id = true → t.union id = .ok u →
      ∀ fields ∈ u.variants, st.Covers (Outline.ofBytes fields)) :
    InStep (Scene.mk t m) (fun x y => (Scene.mk t m).NeverWraps x ∧
        x.Follows t st a b y) (FirstLane a b) where
  shape h := ⟨h.2.single, h.2.outline, h.2.aligned⟩
  lanes h := by
    obtain ⟨p, q, rfl, rfl, -⟩ := h
    simp
  step := by
    rintro single node inner rest c c' aligned l ⟨hspace,
      ⟨-, -, -, hcursor⟩, hsound, hcovers⟩ hl
    obtain ⟨hids, hsingle, hinner, hrest⟩ := hsound
    have hproper :=
      ht.nodeLayout_proper hids hinner ((ht.node_layout_eq hids hinner).symm.trans hl)
    obtain ⟨d, d', hplace, hplace', hd⟩ := hcursor.place hproper.isAlign fun haligned =>
      hspace.moves (.round rfl hl haligned)
    have hx : Stretch.Starts t
        ⟨single, .cons node inner rest, c, aligned⟩ node inner rest l d :=
      ⟨rfl, hl, hplace⟩
    rw [hplace, hplace']
    refine ⟨hd, fun hnot hends => ?_, ?_⟩
    · have honward := hd.advance (hspace.moves (.past hx hends))
      exact ⟨hspace.leads (.onward hx hnot hends), .of_cursor honward,
        hrest, hcovers.of_cons_rest⟩
    · have hwithin :=
        within_follows ht hmet ⟨hids, hsingle, hinner, hrest⟩ hcovers hx hspace hd
      refine hwithin.imp fun xs ys hxs hfollows =>
        Paired.of_ends hfollows fun before z after hsplit hbefore => ?_
      exact hspace.leads (.inside hx (hxs.trans (congrArg Except.ok hsplit)) hbefore)

end Scene

/-! ## One lane twice -/

/-- A cursor of one lane and that lane twice. -/
def Doubled (c d : Cursor) : Prop := ∃ p, c = [p] ∧ d = [p, p]

namespace Doubled

variable {c d : Cursor}

theorem map (h : Doubled c d) (f : Nat → Nat) : Doubled (c.map f) (d.map f) := by
  obtain ⟨p, rfl, rfl⟩ := h
  exact ⟨f p, rfl, rfl⟩

theorem mapM (h : Doubled c d) (f : Nat → Except Fault Nat) :
    SameEnd Doubled (c.mapM f) (d.mapM f) := by
  obtain ⟨p, rfl, rfl⟩ := h
  cases hp : f p with
  | error f => simp [hp, bind, Except.bind, SameEnd]
  | ok q => simp [hp, bind, Except.bind, pure, Except.pure, SameEnd, Doubled]

theorem place (h : Doubled c d) (align : Nat) (aligned : Bool) :
    SameEnd Doubled (Walk.place aligned align c) (Walk.place aligned align d) := by
  cases aligned with
  | false => exact h
  | true => exact h.mapM fun a => Word.alignUp a align

theorem elements {span span' : Span} (hstart : Doubled span.start span'.start)
    (hstop : Doubled span.stop span'.stop) (hstride : span.stride = span'.stride)
    (hlimit : ∀ e ∈ span.stop, e < Word.limit) :
    List.Forall₂ Doubled span.elements span'.elements := by
  obtain ⟨a, hstart, hstart'⟩ := hstart
  obtain ⟨e, hstop, hstop'⟩ := hstop
  have he : e < Word.limit := hlimit e (by simp [hstop])
  rw [Span.elements_one hstart hstop he,
    Span.elements_two hstart' hstop' he he, hstride, Nat.min_self]
  refine List.forall₂_map_left_iff.2
    (List.forall₂_map_right_iff.2 (List.forall₂_same.2 fun i _ => ?_))
  exact ⟨_, rfl, rfl⟩

end Doubled

namespace Scene

variable {s : Scene} {node : Node} {inner : Outline} {c d : Cursor}

/-- Inside a node, one lane comes to the same as that lane twice. -/
theorem within_doubled (h : Doubled c d) :
    SameEnd (List.Forall₂ (Stretch.Along Doubled)) (s.within node inner c)
        (s.within node inner d) := by
  cases node with
  | scalar | handle => exact .nil
  | record | resource => exact .cons (.of_cursor h) .nil
  | pointer form bytes =>
    simp only [within, target]
    cases s.targetOffset form inner with
    | error f => rfl
    | ok offset => exact .cons (.of_cursor (h.map _)) .nil
  | union id =>
    simp only [within]
    cases hu : s.tables.union id with
    | error f => rfl
    | ok u =>
      obtain ⟨p, rfl, rfl⟩ := h
      have h : Doubled [p] [p, p] := ⟨p, rfl, rfl⟩
      simp only [discriminants_eq_map, List.map_cons]
      cases u.variant (s.discriminant u p) with
      | error f => rfl
      | ok fields =>
        refine .cons (.of_cursor ?_) .nil
        split
        · exact h.map _
        · exact h
  | run form plain elem =>
    simp only [within, Span.resolve]
    cases inner.spacing s.tables with
    | error f => rfl
    | ok spacing =>
      rcases (h.mapM (Span.laneStop s.mem spacing form)).cases
        with ⟨f, hx, hy⟩ | ⟨stop, stop', hx, hy, hstop⟩
      · simp only [hx, hy]
        rfl
      · simp only [hx, hy]
        have hlimit : ∀ e ∈ stop, e < Word.limit := by
          obtain ⟨p, rfl, rfl⟩ := h
          obtain ⟨e, es, he, hes, rfl⟩ := mapM_cons_eq_ok_iff.1 hx
          obtain rfl := Except.ok.inj hes
          simpa using Span.laneStop_lt he
        have hstart := h.map (Span.laneStart s.mem spacing.dataOffset form)
        have helems : List.Forall₂ Doubled
            (Span.elements ⟨form, plain, elem, spacing.stride, c.map _, stop⟩)
            (Span.elements ⟨form, plain, elem, spacing.stride, d.map _, stop'⟩) :=
          Doubled.elements hstart hstop rfl hlimit
        refine List.forall₂_map_left_iff.2
          (List.forall₂_map_right_iff.2 (helems.imp fun _ _ hc => ?_))
        exact .of_cursor hc

/-- The walk of one lane and the walk of that lane twice are in step. -/
theorem doubled_inStep (s : Scene) : InStep s (Stretch.Along Doubled) Doubled where
  shape h := ⟨h.single, h.outline, h.aligned⟩
  lanes h := by
    obtain ⟨p, rfl, rfl⟩ := h
    simp
  step := by
    rintro single node inner rest c c' aligned l ⟨-, -, -, hcursor⟩ -
    refine (hcursor.place l.align aligned).imp fun d d' _ hd =>
      ⟨hd, fun _ _ => .of_cursor (hd.map _), ?_⟩
    exact (within_doubled hd).imp fun _ _ _ => Paired.of_forall₂

end Scene

/-! ## Lockstep -/

/-- The trail with other cursors. -/
def Trail.at (f : Cursor → Cursor) (x : Trail) : Trail :=
  ⟨x.visits.map fun v => (v.1, f v.2), x.halt⟩

theorem Trail.Like.eq_at {p : Cursor → Cursor → Prop} {f : Cursor → Cursor}
    {x y : Trail} (h : x.Like p y) (hf : ∀ c d, p c d → d = f c) : y = x.at f := by
  obtain ⟨visits, halt⟩ := x
  obtain ⟨visits', halt'⟩ := y
  obtain ⟨hvisits, rfl⟩ := h
  have hmap : visits' = visits.map fun v => (v.1, f v.2) := by
    simp only at hvisits
    induction hvisits with
    | nil => rfl
    | cons hv _ ih =>
      obtain ⟨hnode, hcursor⟩ := hv
      rw [List.map_cons, ← ih, ← hf _ _ hcursor, hnode]
  rw [Trail.at, hmap]

theorem Trail.Like.exists_of_mem {p : Cursor → Cursor → Prop} {x y : Trail}
    (h : x.Like p y) : ∀ v ∈ x.visits, ∃ c, p v.2 c := by
  obtain ⟨visits, halt⟩ := x
  obtain ⟨visits', halt'⟩ := y
  obtain ⟨hvisits, -⟩ := h
  simp only at hvisits
  induction hvisits with
  | nil => simp
  | @cons v v' vs vs' hv _ ih =>
    rw [List.forall_mem_cons]
    exact ⟨⟨v'.2, hv.2⟩, ih⟩

namespace Descriptor

/-- The trail of a walk over the values that stand at a cursor. -/
def trail (d : Descriptor) (m : Memory) (depth : Nat) (c : Cursor) : Trail :=
  (Scene.mk d.tables m).trail depth (Outline.ofBytes d.shape) c

/-- A walk over the values that stand at a cursor moves no lane out of the address space. -/
def NeverWraps (d : Descriptor) (m : Memory) (c : Cursor) : Prop :=
  (Scene.mk d.tables m).NeverWraps ⟨false, Outline.ofBytes d.shape, c, false⟩

/-- A walk that records nodes returns the trail of the values at its cursor.  Over a
flat value and whatever memory holds at a second address, a walk of two lanes leaves the
trail of the first lane, and stops short if and as that does, unless a lane would leave
the address space; from congruent addresses the lanes stay as far apart as those.  Over
any value twice, it leaves the trail of one lane twice. -/
theorem pair_in_lockstep {d : Descriptor} (hverify : d.verify = .ok ()) (m : Memory)
    (depth : Nat) :
    (∀ c, Walk.run ⟨d.tables, m⟩ Recorder.visitor depth
        (Outline.ofBytes d.shape) c [] =
      (d.trail m depth c).outcome []) ∧
    (∀ a b, (Outline.ofBytes d.shape).isFlat d.tables = .ok true →
      d.NeverWraps m [a, b] →
      d.trail m depth [a] = (d.trail m depth [a, b]).at (List.take 1) ∧
        (a % 8 = b % 8 → ∀ v ∈ (d.trail m depth [a, b]).visits,
          ∃ p q : Nat, v.2 = [p, q] ∧ (q : Int) = p + (b - a))) ∧
    ∀ a, d.trail m depth [a, a] = (d.trail m depth [a]).at fun c => c ++ c := by
  have hv := verified_of_verify hverify
  refine ⟨fun c => Walk.run_recorder, fun a b hflat hspace => ?_, fun a => ?_⟩
  · obtain ⟨st, hcovers, hmet⟩ := Outline.covers_of_isFlat hv.tables.sound hv.root hflat
    have hstart : FirstLane a b [a, b] [a] :=
      ⟨a, b, rfl, rfl, fun _ => Nat.add_comm b a⟩
    have hlike : (d.trail m depth [a, b]).Like (FirstLane a b) (d.trail m depth [a]) :=
      (Scene.firstLane_inStep hv.tables hmet).trail ⟨hspace, .of_cursor hstart,
        hv.root, hcovers⟩ depth
    constructor
    · refine hlike.eq_at ?_
      rintro _ _ ⟨p, q, rfl, rfl, -⟩
      rfl
    · intro hmod v hvisit
      obtain ⟨_, p, q, hcursor, -, happart⟩ := hlike.exists_of_mem v hvisit
      have := happart hmod
      exact ⟨p, q, hcursor, by omega⟩
  · have hlike : (d.trail m depth [a]).Like Doubled (d.trail m depth [a, a]) :=
      (Scene.doubled_inStep (Scene.mk d.tables m)).trail
        (.of_cursor ⟨a, rfl, rfl⟩) depth
    refine hlike.eq_at ?_
    rintro _ _ ⟨p, rfl, rfl⟩
    rfl

/-- A packet at one address, and noise at another that selects no variant. -/
def packetAndNoise : Memory :=
  (Memory.zero.write 4104 #[1]).write 8200 (Array.replicate 24 255)

theorem pair_in_lockstep_packet : packet.verify = .ok () ∧
    (Outline.ofBytes packet.shape).isFlat packet.tables = .ok true ∧
    packet.NeverWraps packetAndNoise [4096, 8200] ∧
    packet.trail packetAndNoise 1 [4096] =
      (packet.trail packetAndNoise 1 [4096, 8200]).at (List.take 1) ∧
    (∀ v ∈ (packet.trail packetAndNoise 1 [4096, 8200]).visits,
      ∃ p q : Nat, v.2 = [p, q] ∧ (q : Int) = p + ((8200 : Nat) - (4096 : Nat))) ∧
    packet.trail packetAndNoise 1 [4096, 4096] =
      (packet.trail packetAndNoise 1 [4096]).at fun c => c ++ c := by
  have hok : packet.verify = .ok () := by decide +kernel
  have hflat : (Outline.ofBytes packet.shape).isFlat packet.tables = .ok true := by
    decide +kernel
  have hspace : packet.NeverWraps packetAndNoise [4096, 8200] :=
    Scene.neverWraps_of_hasRoomWithin? 9 (by decide +kernel)
  obtain ⟨-, hfirst, htwice⟩ := pair_in_lockstep hok packetAndNoise 1
  obtain ⟨hsame, hapart⟩ := hfirst 4096 8200 hflat hspace
  exact ⟨hok, hflat, hspace, hsame, hapart rfl, htwice 4096⟩

end Descriptor

end ShapeCode
