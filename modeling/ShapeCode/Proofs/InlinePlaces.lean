import ShapeCode.Proofs.Standing

set_option autoImplicit false

/-!
# Inline, a walk stands where measuring says

From an aligned address a walk finds the root there, and whatever takes space inside it
in the place that measuring gives it (`Descriptor.inline_placed`).  What it records on
the way are the visited spots, and it gets through them all if every discriminant
selects a variant.
-/

namespace ShapeCode

/-! ## Walks that get through -/

namespace Scene

/-- Every discriminant that is met selects a variant, and contents that lie elsewhere can be
found. -/
structure Passable (s : Scene) (o : Outline) (c : Cursor) : Prop where
  variants : ∀ x, s.Visited o c x → ∀ v, s.Selects x v → x.HasVariant s.tables v
  elsewhere : ∀ x, s.Visited o c x → x.node.isInline = false →
    ∃ content, s.content x.node x.inner x.cursor = .ok content

/-- Nothing else is needed to record what is stored inline in a value that stands. -/
theorem Passable.exists_inlineVisits {t : Tables} {m : Memory} {o : Outline} {c : Cursor}
    (h : (Scene.mk t m).Passable o c) (ht : t.Verified) (hhints : t.HintsWidest)
    (hmeasured : t.VariantsMeasured) {l : Layout} (ho : o.Sound t)
    (hl : t.rangeLayout o .empty = .ok l) (hc : c ≠ []) (hlanes : ∀ a ∈ c, l.Stands a)
    {depth : Nat} (hdepth : t.unions.size ≤ depth) :
    ∃ seen, (Scene.mk t m).inlineVisits depth o c = .ok seen := by
  have hpasses : ∀ x, (Scene.mk t m).Visited o c x →
      Walk.PassesBy ⟨t, m⟩ Inline.visitor x := by
    intro x hx helsewhere
    obtain ⟨content, hcontent⟩ := h.elsewhere x hx helsewhere
    exact ⟨content, hcontent, fun _ => helsewhere⟩
  cases hvisits : (Scene.mk t m).inlineVisits depth o c with
  | ok seen => exact ⟨seen, rfl⟩
  | error halt =>
    obtain ⟨x, v, -, hx, hselects, hnone, -⟩ :=
      Walk.run_stops ht hhints hmeasured ho hl hc hlanes hpasses hdepth hvisits
    exact absurd (h.variants x hx v hselects) hnone

end Scene

/-! ## Inside a root -/

namespace Descriptor

variable {d : Descriptor}

/-- A walk over the root stands at its address. -/
theorem root_spot (h : d.Verified) {l : Layout} {p : Nat}
    (hl : d.tables.rangeLayout (Outline.ofBytes d.shape) .empty = .ok l) :
    ∃ root, Walk.spots d.tables false (Outline.ofBytes d.shape) [p] false = .ok [root] ∧
      root.cursor = [p] ∧ root.layout = l := by
  obtain ⟨node, inner, ho⟩ := h.root.eq_single h.single
  have hsound := h.root
  rw [ho] at hl hsound ⊢
  obtain ⟨hids, -, hinner, -⟩ := hsound
  obtain ⟨own, sofar, hown, hsofar, hl⟩ := Tables.rangeLayout_cons_eq_ok hl
  have hproper := h.tables.nodeLayout_proper hids hinner hown
  have hlayout : l = own := by
    obtain ⟨-, -, rfl⟩ := (Layout.append_eq_ok_iff hproper.isAlign).1 hsofar
    have hmax : max 1 own.align = own.align := max_eq_right hproper.isAlign.pos
    have hzero : Word.roundUp 0 own.align = 0 :=
      Word.roundUp_of_dvd hproper.isAlign (Nat.dvd_zero _)
    simp only [Layout.empty, hmax, hzero, Nat.zero_add, Tables.rangeLayout_done] at hl
    obtain ⟨-, rfl⟩ := (Layout.padded_eq_ok_iff hproper.isAlign).1 hl
    simp only [Word.roundUp_of_dvd hproper.isAlign hproper.dvd]
  refine ⟨⟨node, inner, [p], own⟩, ?_, rfl, hlayout.symm⟩
  simp only [Walk.spots, h.tables.node_layout_eq hids hinner, hown, Walk.place_unaligned,
    Bool.false_eq_true, if_false]

/-- A walk from an aligned address stands where measuring says.  The root stands at the
address.  Whatever takes space inside it is aligned, lies inside the value that it is part
of, behind the discriminant if there is one, and behind the parts before it; and only a
discriminant that selects no variant keeps a walk from going on inside.  The visited spots
are what a walk that does not leave the value records; with as many unions inside one
another as there are it gets through, if every discriminant selects a variant. -/
theorem inline_placed {l : Layout} {p : Nat} (hverify : d.verify = .ok ())
    (hl : (Outline.ofBytes d.shape).layout d.tables = .ok l)
    (hmeasured : d.tables.VariantsMeasured) (hhints : d.tables.HintsWidest)
    (hp : l.align ∣ p) (hlimit : p + l.size + 16 < Word.limit) (m : Memory) :
    (∃ root,
      Walk.spots d.tables false (Outline.ofBytes d.shape) [p] false = .ok [root] ∧
      root.cursor = [p] ∧ root.layout = l) ∧
    (∀ depth seen,
      (Scene.mk d.tables m).inlineVisits depth (Outline.ofBytes d.shape) [p] = .ok seen →
      ∀ node cursor, (node, cursor) ∈ seen ↔
        ∃ x, (Scene.mk d.tables m).Visited (Outline.ofBytes d.shape) [p] x ∧
          x.node = node ∧ x.cursor = cursor) ∧
    (∀ depth, d.tables.unions.size ≤ depth →
      (Scene.mk d.tables m).Passable (Outline.ofBytes d.shape) [p] →
      ∃ seen,
        (Scene.mk d.tables m).inlineVisits depth (Outline.ofBytes d.shape) [p] =
          .ok seen) ∧
    ∀ x, (Scene.mk d.tables m).Visited (Outline.ofBytes d.shape) [p] x →
      x.cursor = [x.address] ∧ x.node.layout d.tables x.inner = .ok x.layout ∧
        (x.layout.size ≠ 0 → x.Within p (p + l.size)) ∧
        Yields Fault.IsVariant
          (fun ys => (∀ y ∈ ys, y.layout.size ≠ 0 →
            y.Within (x.contentStart d.tables) x.stop) ∧
            ys.Pairwise fun y z => z.layout.size ≠ 0 → y.stop ≤ z.address)
          ((Scene.mk d.tables m).inside x) := by
  have hv := verified_of_verify hverify
  rw [hv.tables.layout_eq hv.root] at hl
  have hstands : ∀ a ∈ [p], l.Stands a :=
    List.forall_mem_singleton.2 ⟨Nat.le_of_lt hlimit, fun _ => hp⟩
  refine ⟨root_spot hv hl, fun _ _ hseen => Walk.mem_inlineVisits_iff hseen,
    fun depth hdepth hpass =>
      hpass.exists_inlineVisits hv.tables hhints hmeasured hv.root hl
        (List.cons_ne_nil p []) hstands hdepth, fun x hx => ?_⟩
  · obtain ⟨hfits, hplace⟩ :=
      hv.tables.visited_place hhints hmeasured hv.root hl hp hlimit hx
    refine ⟨hfits.cursor,
      (hv.tables.node_layout_eq hfits.ids hfits.inner).trans hfits.layout, ?_, ?_⟩
    · intro hsize
      exact hplace.resolve_right fun hvoid => hsize hvoid.size_eq
    · rcases hplace with hwithin | hvoid
      · have hle := hwithin.stop_le
        refine (hv.tables.inside_placed hhints hmeasured hfits hwithin.dvd (by omega)).mono
          (fun _ _ h => h) ?_
        intro ys _ hplaced
        refine ⟨fun y hy hsize => ?_, hplaced.ordered⟩
        exact (hplaced.place y hy).resolve_right fun hvoid => hsize hvoid.size_eq
      · have hround : Word.roundUp (p + l.size) 8 < p + l.size + 8 :=
          Word.roundUp_lt (.inr (.inr (.inr rfl)))
        obtain ⟨ys, hys, hfitsAll, hvoidAll⟩ :=
          hv.tables.inside_void hhints hfits hvoid
            (Word.dvd_roundUp _ _) (by omega) (m := m)
        rw [hys]
        refine ⟨fun y hy hsize => absurd (hvoidAll y hy).size_eq hsize, ?_⟩
        exact (@Spot.Placed.of_void _ 0 _ _ hfitsAll hvoidAll).ordered

/-- A byte, and then nothing or a word with two half words. -/
def packet : Descriptor where
  shape := Kind.record.byte :: 4 :: 0 :: (Emit.scalar .u8 ++ Emit.union 0)
  tables :=
    ⟨#[⟨#[[], Emit.scalar .u32 ++
        Emit.runHead (.fixedVec 2) false ++ 1 :: 0 :: Emit.scalar .u16], [1]⟩], #[]⟩

theorem packet_variantLayout : ∀ u ∈ packet.tables.unions,
    packet.tables.variantLayout u 0 = .ok ⟨8, 8⟩ ∧
      packet.tables.variantLayout u 1 = .ok ⟨16, 8⟩ ∧
      u.variants.size = 2 ∧ u.hint = [1] := by
  decide +kernel

theorem packet_variantsMeasured : packet.tables.VariantsMeasured := by
  intro u hu v hv
  obtain ⟨h0, h1, hsize, -⟩ := packet_variantLayout u hu
  rw [hsize] at hv
  obtain rfl | rfl : v = 0 ∨ v = 1 := by omega
  · exact ⟨_, h0⟩
  · exact ⟨_, h1⟩

theorem packet_hintsWidest : packet.tables.HintsWidest := by
  intro u hu _
  obtain ⟨h0, h1, hsize, hhint⟩ := packet_variantLayout u hu
  refine ⟨1, by simp [hhint], fun v hv l widest hl hw => ?_⟩
  rw [hsize] at hv
  obtain rfl := Except.ok.inj (h1.symm.trans hw)
  obtain rfl | rfl : v = 0 ∨ v = 1 := by omega
  · obtain rfl := Except.ok.inj (h0.symm.trans hl)
    decide
  · obtain rfl := Except.ok.inj (h1.symm.trans hl)
    decide

/-- A packet of the second variant. -/
def heldPacket : Scene := ⟨packet.tables, Memory.zero.write 24 #[1]⟩

/-- Its nodes, the last first. -/
def heldNodes : List (Node × Cursor) :=
  [(.scalar .u16, [38]), (.scalar .u16, [36]), (.run (.fixedVec 2) false [1], [36]),
    (.scalar .u32, [32]), (.union 0, [24]), (.scalar .u8, [16]),
    (.record (Emit.scalar .u8 ++ Emit.union 0), [16])]

/-- The visited nodes are the recorded ones, and their one discriminant selects the second
variant. -/
theorem heldPacket_passable : heldPacket.Passable (Outline.ofBytes packet.shape) [16] := by
  have hseen :
      heldPacket.inlineVisits 1 (Outline.ofBytes packet.shape) [16] = .ok heldNodes := by
    decide +kernel
  have hnodes : ∀ x, heldPacket.Visited (Outline.ofBytes packet.shape) [16] x →
      (x.node, x.cursor) ∈ heldNodes :=
    fun x hx => (Walk.mem_inlineVisits_iff hseen x.node x.cursor).2 ⟨x, hx, rfl, rfl⟩
  constructor
  case variants =>
    intro x hx v hselects id u hid hu
    have hunion : ∀ e ∈ heldNodes, ∀ id, e.1 = .union id → id = 0 ∧ e.2 = [24] := by
      simp [heldNodes]
    obtain ⟨rfl, hcursor⟩ : id = 0 ∧ x.cursor = [24] := hunion _ (hnodes x hx) id hid
    have hmet : ∀ u ∈ packet.tables.unions,
        heldPacket.discriminants u [24] = [1] ∧ 1 < u.variants.size := by decide +kernel
    obtain ⟨hone, hlt⟩ := hmet u (Tables.mem_of_union hu)
    obtain ⟨more, hmore⟩ := hselects 0 u hid hu
    rw [hcursor, hone] at hmore
    obtain ⟨rfl, -⟩ := List.cons.inj hmore
    exact hlt
  case elsewhere =>
    intro x hx helsewhere
    have hinline : ∀ e ∈ heldNodes, e.1.isInline = true := by decide
    exact absurd ((hinline _ (hnodes x hx)).symm.trans helsewhere) (by decide)

theorem inline_placed_packet : packet.verify = .ok () ∧
    heldPacket.Passable (Outline.ofBytes packet.shape) [16] ∧
    (∀ depth, 1 ≤ depth →
      ∃ seen,
        heldPacket.inlineVisits depth (Outline.ofBytes packet.shape) [16] = .ok seen) ∧
    ∀ m x, (Scene.mk packet.tables m).Visited (Outline.ofBytes packet.shape) [16] x →
      x.layout.size ≠ 0 → x.Within 16 40 := by
  have hverify : packet.verify = .ok () := by decide +kernel
  have hl : (Outline.ofBytes packet.shape).layout packet.tables = .ok ⟨24, 8⟩ := by
    decide +kernel
  have hplaced := inline_placed hverify hl packet_variantsMeasured packet_hintsWidest
    (p := 16) (by decide) (by decide)
  obtain ⟨-, -, hcompletes, -⟩ := hplaced heldPacket.mem
  refine ⟨hverify, heldPacket_passable,
    fun depth hdepth => hcompletes depth hdepth heldPacket_passable, fun m x hx => ?_⟩
  exact ((hplaced m).2.2.2 x hx).2.2.1

end Descriptor

end ShapeCode
