import ShapeCode.Proofs.InlinePlaces

set_option autoImplicit false

/-!
# Accepted images are written and ordered

An image is accepted after a walk that looks at every discriminant.  Writing the image
and ordering it against another walk differently: they do something at each node, pass
runs of bytes by, stop early, and move two lanes of which the first selects the
variants.  All the same they come to no discriminant that the first walk has not seen at
the same address (`checked_of_visited`), so nothing is left to stop them
(`runs_of_checked`).

The hints name widest variants, so that no walk leaves the image.  Behind an image there
is room (`Image.Room`), as there is behind whatever memory was allocated for.
-/

namespace ShapeCode

/-- There are more than sixteen bytes of memory behind an image that is held from
the address on. -/
def Image.Room (start : Nat) (image : Bytes) : Prop :=
  start + image.length + 16 < Word.limit

instance (start : Nat) (image : Bytes) : Decidable (Image.Room start image) :=
  inferInstanceAs (Decidable (_ < _))

namespace Descriptor

variable {d : Descriptor} {outside m : Memory} {image : Bytes}
  {l : Layout} {distances : List Nat}

/-- An image that was accepted is a value of a flat shape, long enough, and a walk
gets through it. -/
structure Checked (d : Descriptor) (outside : Memory) (image : Bytes)
    (l : Layout) : Prop where
  flat : d.outline.isFlat d.tables = .ok true
  layout : d.outline.layout d.tables = .ok l
  long : l.size ≤ image.length
  completes : (Scene.mk d.tables (Image.hold outside image)).Completes
    d.outline [Image.address]

theorem checked_of_readImage {text : String}
    (h : d.readImage outside text = .ok (.ok image)) :
    ∃ l, d.Checked outside image l := by
  obtain ⟨hflat, -, l, hl, hlong, hbad⟩ := readImage_eq_ok_iff.1 h
  exact ⟨l, hflat, hl, hlong, Scene.completes_of_run Image.thorough hbad rfl⟩

section Walks

variable (hv : d.Verified) (hmeasured : d.tables.VariantsMeasured)
  (hhints : d.tables.HintsWidest)
  (himage : d.Checked outside image l) (hroom : Image.Room Image.address image)

include hv hmeasured hhints himage hroom

/-- Whatever a walk visits in an accepted image, in further lanes too, the check has
visited in one lane; and there the variant that the first lane selects exists. -/
theorem checked_of_visited (hd : ∀ n ∈ distances, 8 ∣ n)
    (hheld : ∀ a, Image.Within image.length a →
      m.byteAt a = (Image.hold outside image).byteAt a)
    {z : Spot} {v : Nat}
    (hz : (Scene.mk d.tables m).Visited d.outline (Cursor.spread distances Image.address) z)
    (hselects : (Scene.mk d.tables m).Selects z v) :
    z.HasVariant d.tables v ∧ ∃ x,
      (Scene.mk d.tables (Image.hold outside image)).Visited d.outline [Image.address] x ∧
      (Scene.mk d.tables (Image.hold outside image)).Selects x v ∧
      z = x.spread distances := by
  have hlimit : Image.address + l.size + 16 < Word.limit := by
    have := himage.long
    unfold Image.Room at hroom
    omega
  have hreads : ∀ x,
      (Scene.mk d.tables (Image.hold outside image)).Visited d.outline [Image.address] x →
      ∀ a, x.Reads d.tables a → Image.Within image.length a := by
    intro x hx a ha
    have hin :=
      readsWithin_of_hints hv hmeasured hhints himage.layout hlimit _
        himage.completes x hx a ha
    exact ⟨hin.1, Nat.lt_of_lt_of_le hin.2 (Nat.add_le_add_left himage.long _)⟩
  have hsame : ∀ x,
      (Scene.mk d.tables (Image.hold outside image)).Visited d.outline [Image.address] x →
      Scene.SelectsSame d.tables (Image.hold outside image) m distances x := by
    intro x hx
    exact Scene.selectsSame_of_agrees (Scene.cursor_of_visited hx) (hreads x hx) hheld
  obtain ⟨x, hx, -, rfl⟩ :=
    Scene.visited_spread hv.tables hd hv.root himage.completes hsame hz
  obtain ⟨ys, hys⟩ := himage.completes.inside x hx
  have hselects' : (Scene.mk d.tables (Image.hold outside image)).Selects x v := by
    intro id u hid hu
    obtain ⟨more, hmore⟩ := hselects id u hid hu
    exact (hsame x hx).eq_cons hid hu hmore
  exact ⟨Scene.hasVariant_of_inside hselects' hys, x, hx, hselects', rfl⟩

/-- A walk over an accepted image comes to its end, whatever its visitor does and
whatever further lanes it has. -/
theorem runs_of_checked {σ : Type} {v : Visitor σ} (hd : ∀ n ∈ distances, 8 ∣ n)
    (hheld : ∀ a, Image.Within image.length a →
      m.byteAt a = (Image.hold outside image).byteAt a)
    (hlanes : ∀ a ∈ Cursor.spread distances Image.address, l.Stands a) {depth : Nat}
    (hdepth : d.tables.unions.size ≤ depth) (st : σ) :
    ∃ st', Walk.run ⟨d.tables, m⟩ v depth d.outline
        (Cursor.spread distances Image.address) st = .ok st' := by
  cases hrun : Walk.run ⟨d.tables, m⟩ v depth d.outline
    (Cursor.spread distances Image.address) st with
  | ok st' => exact ⟨st', rfl⟩
  | error h =>
    obtain ⟨x, selected, -, hx, hselects, hnone, -⟩ :=
      Walk.run_stops hv.tables hhints hmeasured hv.root (hv.rangeLayout_root himage.layout)
        (List.cons_ne_nil _ _) hlanes (fun x hx => .of_isInline (Node.isInline_of_isFlat
        (Outline.visited_isFlat hv.tables.sound hv.root himage.flat hx))) hdepth hrun
    exact absurd
      (checked_of_visited hv hmeasured hhints himage hroom hd hheld hx hselects).1 hnone

end Walks

/-- An accepted image has a text, and any two have an order.  The discriminants that
select variants on the way name existing ones: each stands where the check of the first
image has found it. -/
theorem accepted_settles {file : Bytes} (h : ofBytes file = .ok d)
    (hmeasured : d.tables.VariantsMeasured) (hhints : d.tables.HintsWidest) {text : String}
    (hread : d.readImage outside text = .ok (.ok image))
    (hroom : Image.Room Image.address image) :
    (∀ m, (∃ written, d.renderImage m image = .ok written) ∧
      ∀ x v,
        (Scene.mk d.tables (Image.hold m image)).Visited d.outline [Image.address] x →
        (Scene.mk d.tables (Image.hold m image)).Selects x v →
          x.HasVariant d.tables v ∧
          (Scene.mk d.tables (Image.hold outside image)).Visited
            d.outline [Image.address] x ∧
          (Scene.mk d.tables (Image.hold outside image)).Selects x v) ∧
    ∀ outside' text' second, d.readImage outside' text' = .ok (.ok second) →
      Image.Room (Image.secondAddress image) second → ∀ m,
        (∃ order, d.compareImages m image second = .ok order) ∧
        ∀ z v,
          (Scene.mk d.tables (Image.holdTwo m image second)).Visited d.outline
            [Image.address, Image.secondAddress image] z →
          (Scene.mk d.tables (Image.holdTwo m image second)).Selects z v →
            z.HasVariant d.tables v ∧
            ∃ x,
              (Scene.mk d.tables (Image.hold outside image)).Visited
                d.outline [Image.address] x ∧
              (Scene.mk d.tables (Image.hold outside image)).Selects x v ∧
              z = x.spread [Image.distance image] := by
  have hv : d.Verified := verified_of_verify (ofBytes_eq_ok_iff.1 h).1
  obtain ⟨l, himage⟩ := checked_of_readImage hread
  have halign := hv.isAlign_root himage.layout
  have hlong := himage.long
  have hfirst : l.Stands Image.address := by
    unfold Image.Room at hroom
    exact Image.stands_address halign (by omega)
  refine ⟨fun m => ⟨?_, fun x v hx hselects => ?_⟩,
    fun outside' text' second hread' hroom' m => ?_⟩
  · have hrun : ∃ phrase,
        Walk.run ⟨d.tables, Image.hold m image⟩ (ValueText.visitor (Image.hold m image))
        (Image.depth d.tables image) d.outline (Cursor.spread [] Image.address)
          Phrase.empty = .ok phrase :=
      runs_of_checked hv hmeasured hhints himage hroom (List.forall_mem_nil _)
        (fun a ha => Image.hold_congr ha)
        (List.forall_mem_singleton.2 hfirst)
          (Image.unions_le_depth d.tables image) Phrase.empty
    obtain ⟨phrase, hphrase⟩ := hrun
    exact ⟨phrase.text, congrArg (Except.map Phrase.text) hphrase⟩
  · obtain ⟨hvariant, y, hy, hselected, rfl⟩ :=
      checked_of_visited hv hmeasured hhints himage hroom
      (List.forall_mem_nil _) (fun a ha => Image.hold_congr ha) hx hselects
    rw [Spot.spread_nil (Scene.cursor_of_visited hy)] at hvariant ⊢
    exact ⟨hvariant, hy, hselected⟩
  · obtain ⟨l', himage'⟩ := checked_of_readImage hread'
    obtain rfl := Except.ok.inj (himage.layout.symm.trans himage'.layout)
    have hlong' := himage'.long
    unfold Image.Room at hroom'
    have hfit : Image.Fit image second := by
      unfold Image.Fit
      omega
    have hsecond : l.Stands (Image.secondAddress image) :=
      Image.stands_secondAddress halign (by omega)
    have hspread := Image.spread_distance hfit
    have hd : ∀ n ∈ [Image.distance image], 8 ∣ n := by
      simpa using Image.dvd_distance image
    have hheld : ∀ a, Image.Within image.length a →
        (Image.holdTwo m image second).byteAt a = (Image.hold outside image).byteAt a :=
      fun a ha => Image.holdTwo_first ha
    rw [← hspread]
    refine ⟨?_, fun z v hz hselects =>
      checked_of_visited hv hmeasured hhints himage hroom hd hheld hz hselects⟩
    have hrun : ∃ order, Walk.run ⟨d.tables, Image.holdTwo m image second⟩
        (ValueOrder.visitor (Image.holdTwo m image second))
          (Image.depth d.tables image) d.outline
        (Cursor.spread [Image.distance image] Image.address) Ordering.eq = .ok order :=
      runs_of_checked hv hmeasured hhints himage hroom hd hheld
        (by simp [hspread, hfirst, hsecond])
        (Image.unions_le_depth d.tables image) Ordering.eq
    rw [hspread] at hrun
    exact hrun

theorem accepted_settles_packet : ∃ file, ofBytes file = .ok packet ∧
    packet.readImage .zero "070000000000000001000000000000000500000001000200" =
      .ok (.ok [7, 0, 0, 0, 0, 0, 0, 0, 1, 0, 0, 0, 0, 0, 0, 0, 5, 0, 0, 0, 1, 0, 2, 0]) ∧
    (∃ written, packet.renderImage ⟨fun _ => 255⟩
      [7, 0, 0, 0, 0, 0, 0, 0, 1, 0, 0, 0, 0, 0, 0, 0, 5, 0, 0, 0, 1, 0,
        2, 0] = .ok written) ∧
    ∃ order, packet.compareImages ⟨fun _ => 255⟩
      [7, 0, 0, 0, 0, 0, 0, 0, 1, 0, 0, 0, 0, 0, 0, 0, 5, 0, 0, 0, 1, 0, 2, 0]
      [7, 0, 0, 0, 0, 0, 0, 0, 0, 0, 0, 0, 0, 0, 0, 0, 9, 9, 9, 9, 9,
        9, 9, 9] = .ok order := by
  have hfile : ∃ file, packet.toBytes = .ok file ∧ ofBytes file = .ok packet := by
    refine ⟨_, rfl, ?_⟩
    decide +kernel
  obtain ⟨file, -, hload⟩ := hfile
  have hread : packet.readImage .zero "070000000000000001000000000000000500000001000200" =
      .ok (.ok [7, 0, 0, 0, 0, 0, 0, 0, 1, 0, 0, 0, 0, 0, 0, 0, 5, 0, 0, 0, 1, 0, 2, 0]) :=
        by decide +kernel
  have hread' : packet.readImage .zero "070000000000000000000000000000000909090909090909" =
      .ok (.ok [7, 0, 0, 0, 0, 0, 0, 0, 0, 0, 0, 0, 0, 0, 0, 0, 9, 9, 9, 9, 9, 9, 9, 9]) :=
        by decide +kernel
  have hsettles :=
    accepted_settles hload packet_variantsMeasured packet_hintsWidest
      hread (by decide +kernel)
  exact ⟨file, hload, hread, (hsettles.1 _).1,
    (hsettles.2 _ _ _ hread' (by decide +kernel) _).1⟩

end Descriptor

end ShapeCode
