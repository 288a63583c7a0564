import ShapeCode.Buffer
import ShapeCode.Proofs.FirstDiscriminant
import ShapeCode.Proofs.InlinePlaces
import ShapeCode.Proofs.Positions
import ShapeCode.Proofs.ReachableAddresses
import ShapeCode.Proofs.RoomForLayouts
import ShapeCode.Proofs.SpelledImages

set_option autoImplicit false

/-!
# Which images are accepted

Whether a text is an image of a type is said without a walk that stops, and without the
memory around the image: no address is reached from the type, the text spells bytes,
there are as many of them as are measured, and each discriminant that a walk over them
comes to names a variant (`Descriptor.IsImage`).  Every other text is refused for the
first of these that fails (`Descriptor.RefusesImage`); of discriminants it is the first
in the order of the fields.

The hints name widest variants and nothing overflows when the type is measured, so
reading comes to an end and the walk over the bytes stays inside those that were
measured (`images_decoded`).
-/

namespace ShapeCode

/-! ## Ranges that can be measured -/

/-- The ranges of a descriptor: its root, its variants, a value of each of its unions,
and what is nested in them. -/
inductive Descriptor.Range (d : Descriptor) : Outline → Prop where
  | root : d.Range d.outline
  | variant {u : Union} {fields : Bytes} (hu : u ∈ d.tables.unions)
      (hf : fields ∈ u.variants) : d.Range (Outline.ofBytes fields)
  | union {id : UInt16} (hid : id.toNat < d.tables.unions.size) :
      d.Range (.cons (.union id) .done .done)
  | nested {o inner : Outline} {node : Node} (h : d.Range o) (hnode : o.Has node inner) :
      d.Range inner

/-- Nothing overflows when the ranges of a descriptor and the variants of its
unions are measured. -/
structure Descriptor.Measured (d : Descriptor) : Prop where
  ranges : ∀ o, d.Range o → ∃ l, o.layout d.tables = .ok l
  variants : d.tables.VariantsMeasured

/-- Whether what is nested in a range can be measured. -/
def Outline.nestedMeasures (t : Tables) : Outline → Bool
  | .done | .broken _ => true
  | .cons _ inner rest =>
    (inner.layout t).isOk && inner.nestedMeasures t && rest.nestedMeasures t

/-- Whether a range and what is nested in it can be measured. -/
def Outline.measures (t : Tables) (o : Outline) : Bool :=
  (o.layout t).isOk && o.nestedMeasures t

/-- Whether the ranges of a descriptor can be measured. -/
def Descriptor.measures (d : Descriptor) : Bool :=
  d.outline.measures d.tables &&
    d.tables.unions.all (fun u => u.variants.all fun fields =>
      (Outline.ofBytes fields).measures d.tables) &&
    (List.range d.tables.unions.size).all fun i =>
      (Outline.cons (.union (UInt16.ofNat i)) .done .done).measures d.tables

theorem Outline.measures_of_has {t : Tables} {o inner : Outline} {node : Node}
    (h : o.nestedMeasures t = true) (hnode : o.Has node inner) :
    inner.measures t = true := by
  induction o with
  | done | broken => exact False.elim hnode
  | cons n i rest _ ih =>
    simp only [nestedMeasures, Bool.and_eq_true] at h
    rcases hnode with ⟨-, rfl⟩ | hrest
    · simp only [measures, Bool.and_eq_true]
      exact h.1
    · exact ih h.2 hrest

/-- Whether the ranges of a descriptor can be measured can be computed. -/
theorem Descriptor.measured_of_measures {d : Descriptor} (h : d.measures = true)
    (hvariants : d.tables.VariantsMeasured) : d.Measured := by
  refine ⟨fun o ho => ?_, hvariants⟩
  simp only [measures, Bool.and_eq_true, Array.all_eq_true_iff_forall_mem,
    List.all_eq_true, List.mem_range] at h
  have hall : o.measures d.tables = true := by
    induction ho with
    | root => exact h.1.1
    | variant hu hf => exact h.1.2 _ hu _ hf
    | @union id hid =>
      have hunion := h.2 _ hid
      rwa [UInt16.ofNat_toNat] at hunion
    | nested _ hnode ih => exact Outline.measures_of_has (Bool.and_eq_true_iff.1 ih).2 hnode
  have hown := (Bool.and_eq_true_iff.1 hall).1
  cases hl : o.layout d.tables with
  | error f =>
    rw [hl] at hown
    cases hown
  | ok l => exact ⟨l, rfl⟩

namespace Descriptor

variable {d : Descriptor}

/-- If the ranges of a descriptor can be measured, so can all its parts, which are
ends of ranges. -/
theorem Part.measured_of_ranges (hv : d.Verified)
    (hranges : ∀ o, d.Range o → ∃ l, o.layout d.tables = .ok l) {o : Outline}
    (ho : d.Part o) : ∃ l, o.layout d.tables = .ok l := by
  have hparts : (∃ whole, d.Range whole ∧ ∀ node inner, o.Has node inner →
      whole.Has node inner) ∧
      ∃ l, o.layout d.tables = .ok l := by
    induction ho with
    | root => exact ⟨⟨_, .root, fun _ _ h => h⟩, hranges _ .root⟩
    | variant hu hf =>
      exact ⟨⟨_, .variant hu hf, fun _ _ h => h⟩, hranges _ (.variant hu hf)⟩
    | union hid => exact ⟨⟨_, .union hid, fun _ _ h => h⟩, hranges _ (.union hid)⟩
    | inner _ ih =>
      obtain ⟨⟨whole, hwhole, hhas⟩, -⟩ := ih
      have hnested := hwhole.nested (hhas _ _ (.inl ⟨rfl, rfl⟩))
      exact ⟨⟨_, hnested, fun _ _ h => h⟩, hranges _ hnested⟩
    | rest hpart ih =>
      obtain ⟨⟨whole, hwhole, hhas⟩, l, hl⟩ := ih
      refine ⟨⟨whole, hwhole, fun node inner h => hhas node inner (.inr h)⟩, ?_⟩
      rw [hv.tables.layout_eq (hpart.sound hv)] at hl
      rw [hv.tables.layout_eq (hpart.rest.sound hv)]
      exact hv.tables.rangeLayout_rest (hpart.sound hv) hl
  exact hparts.2

/-- Whether a type is flat can be told if its ranges can be measured: if it
reaches no address. -/
theorem Measured.isFlat_iff (hv : d.Verified) (hmeasured : d.Measured) :
    (d.outline.isFlat d.tables = .ok true ↔ ¬ d.outline.ReachesAddress d.tables) ∧
      (d.outline.isFlat d.tables = .ok false ↔ d.outline.ReachesAddress d.tables) := by
  obtain ⟨flat, hflat⟩ : ∃ flat, d.outline.isFlat d.tables = .ok flat := by
    rcases (isFlat_onlyOverflows hv .root).cases
      with ⟨f, -, -, o, ho, hf⟩ | ⟨flat, hflat, -⟩
    · obtain ⟨l, hl⟩ := ho.measured_of_ranges hv hmeasured.ranges
      cases hf.symm.trans hl
    · exact ⟨flat, hflat⟩
  cases flat with
  | true =>
    have hnone := Outline.not_reachesAddress_of_isFlat hv.tables.sound hv.root hflat
    exact ⟨iff_of_true hflat hnone,
      iff_of_false (fun h => by cases hflat.symm.trans h) hnone⟩
  | false =>
    have haddress := Outline.reachesAddress_of_not_isFlat hflat
    exact ⟨iff_of_false (fun h => by cases hflat.symm.trans h) (not_not_intro haddress),
      iff_of_true hflat haddress⟩

end Descriptor

/-! ## Images by themselves -/

namespace Image

/-- What a walk over an image moves through, with zeros around the image. -/
def scene (t : Tables) (image : Bytes) : Scene := ⟨t, hold .zero image⟩

/-- The discriminant of a union that stands at a spot of an image: the word there, or
zero if none is stored. -/
def discriminant (image : Bytes) (u : Union) (x : Spot) : Nat :=
  if u.hasDiscriminant
    then Bytes.toNat ((image.drop (x.address - address)).take Word.size) else 0

/-- The spot is a union whose discriminant names no variant. -/
def NamesNone (t : Tables) (image : Bytes) (x : Spot) : Prop :=
  ∃ id u, x.node = .union id ∧ t.union id = .ok u ∧
    u.variants.size ≤ discriminant image u x

end Image

namespace Descriptor

/-- The text is an image of the type. -/
structure IsImage (d : Descriptor) (text : String) (image : Bytes) : Prop where
  flat : ¬ d.outline.ReachesAddress d.tables
  spelled : Image.Spells text image
  long : ∃ l, d.outline.layout d.tables = .ok l ∧ l.size ≤ image.length
  named : ∀ x, (Image.scene d.tables image).Visited d.outline [Image.address] x →
    ¬ Image.NamesNone d.tables image x

/-- Why the text is no image of the type: what fails first. -/
inductive RefusesImage (d : Descriptor) (text : String) : ImageError → Prop where
  | notFlat (h : d.outline.ReachesAddress d.tables) : d.RefusesImage text .notFlat
  | hex {cause : HexError} (hflat : ¬ d.outline.ReachesAddress d.tables)
      (h : Image.Misspelled text cause) : d.RefusesImage text (.hex cause)
  | tooShort {image : Bytes} {l : Layout} (hflat : ¬ d.outline.ReachesAddress d.tables)
      (hspelled : Image.Spells text image) (hl : d.outline.layout d.tables = .ok l)
      (hshort : image.length < l.size) : d.RefusesImage text (.tooShort image.length l.size)
  | badVariant {image : Bytes} {l : Layout} {xs : List Spot} {x : Spot} {id : UInt16}
      {u : Union} (hflat : ¬ d.outline.ReachesAddress d.tables)
      (hspelled : Image.Spells text image) (hl : d.outline.layout d.tables = .ok l)
      (hlong : l.size ≤ image.length)
      (hxs : Walk.spots d.tables false d.outline [Image.address] false = .ok xs)
      (hx : (Image.scene d.tables image).First (Image.NamesNone d.tables image) xs x)
      (hid : x.node = .union id) (hu : d.tables.union id = .ok u) :
      d.RefusesImage text (.badVariant id (Image.discriminant image u x) u.variants.size)

/-- What there is to say of a text: the image that it is, or why it is none. -/
def Judges (d : Descriptor) (text : String) : Except ImageError Bytes → Prop
  | .ok image => d.IsImage text image
  | .error e => d.RefusesImage text e

end Descriptor

/-! ## Reading in an image -/

namespace Image

variable {outside : Memory} {image : Bytes}

/-- The bytes held of an image are its bytes. -/
theorem bytes_hold {i n : Nat} (hn : i + n ≤ image.length)
    (hroom : address + (i + n) < Word.limit) :
    (hold outside image).bytes (address + i) n = (image.drop i).take n := by
  induction n generalizing i with
  | zero => rfl
  | succ n ih =>
    have hi : i < image.toArray.size := by
      rw [List.size_toArray]
      omega
    have hbyte : (hold outside image).byteAt (Word.wrap (address + i)) = image[i] := by
      rw [Word.wrap_of_lt (by omega)]
      exact Memory.byteAt_write_of_mem hi
    rw [Memory.bytes, hbyte, Nat.add_assoc, ih (by omega) (by omega),
      List.drop_eq_getElem_cons hi, List.take_succ_cons]

end Image

/-- What is inside a spot is the same in memories that agree on what is read there. -/
theorem Scene.inside_of_sameAt {t : Tables} {m m' : Memory} {x : Spot}
    (hsame : SameAt t m m' x) (hinline : x.node.isInline = true) :
    (Scene.mk t m).inside x = (Scene.mk t m').inside x := by
  obtain ⟨node, inner, c, l⟩ := x
  cases node with
  | scalar | handle | record | resource => rfl
  | pointer => cases hinline
  | union id =>
    simp only [inside]
    cases hu : t.union id with
    | error f => rfl
    | ok u => simp only [discriminants_congr hsame rfl hu, variantSpots]
  | run form plain elem =>
    cases form with
    | vec | unboxedVec | slice => cases hinline
    | fixedVec count => rfl

namespace Descriptor

variable {d : Descriptor} {image : Bytes} {l : Layout} {x : Spot}

section Walks

variable (hv : d.Verified) (hmeasured : d.tables.VariantsMeasured)
  (hhints : d.tables.HintsWidest)
  (hl : d.outline.layout d.tables = .ok l)
    (hroom : Image.address + l.size + 16 < Word.limit)

include hv hmeasured hhints hl hroom

/-- A discriminant that a walk comes to lies in the bytes that are measured. -/
theorem discriminant_inside {m : Memory}
    (hx : (Scene.mk d.tables m).Visited d.outline [Image.address] x) {id : UInt16}
    {u : Union} (hid : x.node = .union id) (hu : d.tables.union id = .ok u)
    (hstored : u.hasDiscriminant = true) :
    ∃ i, x.cursor = [Image.address + i] ∧ i + Word.size ≤ l.size := by
  obtain ⟨hfits, hplace⟩ :=
    hv.tables.visited_place hhints hmeasured hv.root (hv.rangeLayout_root hl)
      (Image.align_dvd_address (hv.isAlign_root hl)) hroom hx
  have hread := readSize_le_size hv hhints hfits
  simp only [Spot.readSize, hid, hu, hstored, if_true] at hread
  have hsize : 0 < Word.size := by decide
  rcases hplace with hwithin | hvoid
  · have hle := hwithin.le_address
    have hstop := hwithin.stop_le
    unfold Spot.stop at hstop
    exact ⟨x.address - Image.address,
      by rw [hfits.cursor, Nat.add_sub_cancel' hle], by omega⟩
  · have hzero := hvoid.size_eq
    omega

/-- The search through an image comes to an end, and what it finds is the first there is. -/
theorem badVariant_finds (hflat : d.outline.isFlat d.tables = .ok true) (outside : Memory) :
    ∃ xs found, Walk.spots d.tables false d.outline [Image.address] false = .ok xs ∧
      d.badVariant outside image = .ok found ∧
      (Scene.mk d.tables (Image.hold outside image)).Finds xs found := by
  obtain ⟨xs, hxs, hstand⟩ :=
    hv.tables.root_stands hv.root (hv.rangeLayout_root hl)
      (List.cons_ne_nil _ _) (List.forall_mem_singleton.2
      (Image.stands_address (hv.isAlign_root hl) (Nat.le_of_lt hroom)))
  have hall : ∃ found, Walk.visitAll ⟨d.tables, Image.hold outside image⟩
      Image.visitor (Image.depth d.tables image) xs
      none = .ok found ∧
      (Scene.mk d.tables (Image.hold outside image)).Finds xs found := by
    refine Walk.visitAll_finds fun x hx =>
      Walk.visitSpot_finds hv.tables hhints hmeasured (hstand x hx)
      (Walk.cursor_of_spots hxs x hx) (fun y hy => ?_)
      (hv.tables.spot_nests hv.root (Walk.has_of_spots hxs x hx)
        (Image.unions_le_depth d.tables image))
    apply Node.isInline_of_isFlat
    exact Outline.visited_isFlat hv.tables.sound hv.root hflat
      (Scene.visited_iff.2 ⟨xs, hxs, x, hx, hy⟩)
  obtain ⟨found, hvisit, hfinds⟩ := hall
  exact ⟨xs, found, hxs, (Walk.range_eq_visitAll hxs none).trans hvisit, hfinds⟩

variable (hflat : d.outline.isFlat d.tables = .ok true) (hlong : l.size ≤ image.length)

include hlong

/-- The discriminant that is read is that of the image. -/
theorem discriminants_hold {outside : Memory}
    (hx : (Scene.mk d.tables (Image.hold outside image)).Visited
      d.outline [Image.address] x)
    {id : UInt16} {u : Union} (hid : x.node = .union id) (hu : d.tables.union id = .ok u) :
    (Scene.mk d.tables (Image.hold outside image)).discriminants u x.cursor =
        [Image.discriminant image u x] := by
  obtain ⟨b, hb⟩ := Scene.cursor_of_visited hx
  unfold Scene.discriminants Image.discriminant
  split
  · rename_i hstored
    obtain ⟨i, hi, hin⟩ :=
      discriminant_inside hv hmeasured hhints hl hroom hx hid hu hstored
    have haddress : x.address = Image.address + i := by
      rw [Spot.address, hi]
      rfl
    simp only [hi, haddress, List.map_cons, List.map_nil, Memory.word,
      Memory.number, Nat.add_sub_cancel_left, Image.bytes_hold (Nat.le_trans hin hlong)
      (by omega : Image.address + (i + Word.size) < Word.limit)]
  · rw [hb]
    rfl

theorem misselects_iff {outside : Memory}
    (hx : (Scene.mk d.tables (Image.hold outside image)).Visited
      d.outline [Image.address] x) :
    (Scene.mk d.tables (Image.hold outside image)).Misselects x ↔
      Image.NamesNone d.tables image x := by
  have hread {id : UInt16} {u : Union} (hid : x.node = .union id)
      (hu : d.tables.union id = .ok u) :=
    discriminants_hold hv hmeasured hhints hl hroom hlong hx hid hu
  constructor
  · rintro ⟨v, hselects, hnone⟩
    obtain ⟨id, u, hid, hu, hout⟩ := Spot.not_hasVariant_iff.1 hnone
    obtain ⟨more, hmore⟩ := hselects id u hid hu
    obtain ⟨rfl, -⟩ := List.cons.inj ((hread hid hu).symm.trans hmore)
    exact ⟨id, u, hid, hu, hout⟩
  · rintro ⟨id, u, hid, hu, hout⟩
    refine ⟨Image.discriminant image u x, ?_,
      Spot.not_hasVariant_iff.2 ⟨id, u, hid, hu, hout⟩⟩
    intro id' u' hid' hu'
    obtain rfl := Node.union.inj (hid.symm.trans hid')
    obtain rfl := Except.ok.inj (hu.symm.trans hu')
    exact ⟨[], hread hid hu⟩

include hflat

/-- A walk over an image goes the same way whatever is around the image. -/
theorem inside_hold {outside : Memory}
    (hx : (Scene.mk d.tables (Image.hold outside image)).Visited
      d.outline [Image.address] x)
    (outside' : Memory) :
    (Scene.mk d.tables (Image.hold outside image)).inside x =
      (Scene.mk d.tables (Image.hold outside' image)).inside x := by
  refine Scene.inside_of_sameAt (fun a ha => ?_)
    (Node.isInline_of_isFlat (Outline.visited_isFlat hv.tables.sound hv.root hflat hx))
  have hin := within_of_hints hv hmeasured hhints hl hroom hx ha
  exact Image.hold_congr ⟨hin.1, Nat.lt_of_lt_of_le hin.2 (Nat.add_le_add_left hlong _)⟩

/-- The search finds nothing where every discriminant of an image names a variant, and
else the first that names none. -/
theorem badVariant_cases (outside : Memory) :
    (d.badVariant outside image = .ok none ∧
      ∀ x, (Image.scene d.tables image).Visited d.outline [Image.address] x →
        ¬ Image.NamesNone d.tables image x) ∨
    ∃ xs x id u, Walk.spots d.tables false d.outline [Image.address] false = .ok xs ∧
      (Image.scene d.tables image).First (Image.NamesNone d.tables image) xs x ∧
        x.node = .union id ∧
        d.tables.union id = .ok u ∧
          d.badVariant outside image =
            .ok (some ⟨id, Image.discriminant image u x, u.variants.size⟩) := by
  obtain ⟨xs, found, hxs, hsearch, hfinds⟩ :=
    badVariant_finds hv hmeasured hhints hl hroom hflat outside
  have hinside : ∀ x,
      (Scene.mk d.tables (Image.hold outside image)).Visited d.outline [Image.address] x →
      (Scene.mk d.tables (Image.hold outside image)).inside x =
        (Image.scene d.tables image).inside x :=
    fun x hx => inside_hold hv hmeasured hhints hl hroom hflat hlong hx .zero
  have hnames : ∀ x,
      (Scene.mk d.tables (Image.hold outside image)).Visited d.outline [Image.address] x →
      ((Scene.mk d.tables (Image.hold outside image)).Misselects x ↔
        Image.NamesNone d.tables image x) :=
    fun x hx => misselects_iff hv hmeasured hhints hl hroom hlong hx
  cases found with
  | none =>
    refine .inl ⟨hsearch, fun x hx hnone => ?_⟩
    have hvisited : (Scene.mk d.tables (Image.hold outside image)).Visited
        d.outline [Image.address] x :=
      Scene.Visited.congr (by rfl) hinside hx
    obtain ⟨xs', hxs', y, hy, hunder⟩ := Scene.visited_iff.1 hvisited
    obtain rfl := Except.ok.inj (hxs'.symm.trans hxs)
    exact hfinds y hy x hunder ((hnames x hvisited).2 hnone)
  | some bad =>
    obtain ⟨x, hfirst, hid, u, hu, hread, hcount⟩ := hfinds
    obtain ⟨-, y, hy, hunder⟩ := hfirst.exists_under
    have hdiscriminant := discriminants_hold hv hmeasured hhints hl hroom hlong
      (Scene.visited_iff.2 ⟨xs, hxs, y, hy, hunder⟩) hid hu
    obtain ⟨hvalue, -⟩ := List.cons.inj (hread.symm.trans hdiscriminant)
    refine .inr ⟨xs, x, bad.union, u, hxs,
      hfirst.congr hinside hnames fun z hz => .root hxs hz, hid, hu, ?_⟩
    rw [hsearch, ← hvalue, ← hcount]

end Walks

/-! ## Reading texts -/

section Texts

variable {text : String} (hv : d.Verified) (hmeasured : d.Measured)
  (hhints : d.tables.HintsWidest)
  (htext : text.length < Positions.capacity)

include htext

/-- There is room in memory for a value that a text spells. -/
theorem room_of_spells (hspelled : Image.Spells text image)
    (hlong : l.size ≤ image.length) :
    Image.address + l.size + 16 < Word.limit := by
  have hhalf := hspelled.length_le
  have hroom : Image.address + Positions.capacity + 16 < Word.limit := by decide
  omega

include hv hmeasured hhints

/-- What there is to say of a text is what is said of it, whatever is around the image. -/
theorem readImage_of_judges {r : Except ImageError Bytes} (h : d.Judges text r)
    (outside : Memory) : d.readImage outside text = .ok r := by
  obtain ⟨hflat_iff, hpointers_iff⟩ := hmeasured.isFlat_iff hv
  cases r with
  | ok image =>
    obtain ⟨hflat, hspelled, ⟨l, hl, hlong⟩, hnamed⟩ := h
    refine readImage_eq_ok_iff.2 ⟨hflat_iff.2 hflat,
      Image.decode_digits_iff.2 hspelled, l, hl, hlong, ?_⟩
    rcases badVariant_cases hv hmeasured.variants hhints hl
      (room_of_spells htext hspelled hlong)
      (hflat_iff.2 hflat) hlong outside
        with ⟨hbad, -⟩ | ⟨xs, x, id, u, hxs, hfirst, -⟩
    · exact hbad
    · obtain ⟨hnone, y, hy, hunder⟩ := hfirst.exists_under
      exact absurd hnone (hnamed x (Scene.visited_iff.2 ⟨xs, hxs, y, hy, hunder⟩))
  | error e =>
    cases h with
    | notFlat haddress => simp only [readImage, hpointers_iff.2 haddress]
    | hex hflat hmisspelled =>
      simp only [readImage, hflat_iff.2 hflat, Image.decode_digits_error_iff.2 hmisspelled]
    | tooShort hflat hspelled hl hshort =>
      simp only [readImage, hflat_iff.2 hflat,
        Image.decode_digits_iff.2 hspelled, hl, if_pos hshort]
    | @badVariant image l xs x id u hflat hspelled hl hlong hxs hfirst hid hu =>
      simp only [readImage, hflat_iff.2 hflat, Image.decode_digits_iff.2 hspelled, hl,
        if_neg (Nat.not_lt.2 hlong), checkImage]
      rcases badVariant_cases hv hmeasured.variants hhints hl
        (room_of_spells htext hspelled hlong)
        (hflat_iff.2 hflat) hlong outside
          with ⟨-, hnamed⟩ | ⟨xs', x', id', u', hxs', hfirst', hid', hu', hbad⟩
      · obtain ⟨hnone, y, hy, hunder⟩ := hfirst.exists_under
        exact absurd hnone (hnamed x (Scene.visited_iff.2 ⟨xs, hxs, y, hy, hunder⟩))
      · obtain rfl := Except.ok.inj (hxs.symm.trans hxs')
        obtain rfl := hfirst.unique hfirst'
        obtain rfl := Node.union.inj (hid.symm.trans hid')
        obtain rfl := Except.ok.inj (hu.symm.trans hu')
        simp only [hbad]

/-- There is something to say of every text. -/
theorem exists_judges : ∃ r, d.Judges text r := by
  obtain ⟨hflat_iff, -⟩ := hmeasured.isFlat_iff hv
  by_cases hflat : d.outline.ReachesAddress d.tables
  · exact ⟨.error .notFlat, .notFlat hflat⟩
  cases hdecode : Hex.decode (Image.digits text) with
  | error cause =>
    exact ⟨.error (.hex cause), .hex hflat (Image.decode_digits_error_iff.1 hdecode)⟩
  | ok image =>
    have hspelled := Image.decode_digits_iff.1 hdecode
    obtain ⟨l, hl⟩ := hmeasured.ranges _ .root
    by_cases hshort : image.length < l.size
    · exact ⟨.error (.tooShort image.length l.size), .tooShort hflat hspelled hl hshort⟩
    have hlong := Nat.le_of_not_lt hshort
    rcases badVariant_cases hv hmeasured.variants hhints hl
      (room_of_spells htext hspelled hlong)
      (hflat_iff.2 hflat) hlong .zero
        with ⟨-, hnamed⟩ | ⟨xs, x, id, u, hxs, hfirst, hid, hu, -⟩
    · exact ⟨.ok image, hflat, hspelled, ⟨l, hl, hlong⟩, hnamed⟩
    · exact ⟨.error (.badVariant id (Image.discriminant image u x) u.variants.size),
        .badVariant hflat hspelled hl hlong hxs hfirst hid hu⟩

end Texts

/-- A text that memory can hold is read as the image that it is, or refused for the
first reason why it is none, if nothing overflows and hints name widest variants.  The
discriminants that decide this lie in the bytes that are measured. -/
theorem images_decoded {file : Bytes} (h : ofBytes file = .ok d) (hmeasured : d.Measured)
    (hhints : d.tables.HintsWidest) {text : String}
    (htext : text.length < Positions.capacity) :
    ∃ r, (∀ outside, d.readImage outside text = .ok r) ∧
      (∀ image, r = .ok image ↔ d.IsImage text image) ∧
      (∀ e, r = .error e ↔ d.RefusesImage text e) ∧
      (∀ image, r = .ok image →
        (Buffer.zeroed image.length).set? 0 image = some ⟨image⟩) ∧
      ∀ image l x id u, Image.Spells text image →
        d.outline.layout d.tables = .ok l → l.size ≤ image.length →
        (Image.scene d.tables image).Visited d.outline [Image.address] x →
        x.node = .union id → d.tables.union id = .ok u → u.hasDiscriminant = true →
          ∃ i, x.cursor = [Image.address + i] ∧ i + Word.size ≤ l.size := by
  have hv : d.Verified := verified_of_verify (ofBytes_eq_ok_iff.1 h).1
  obtain ⟨r, hr⟩ := exists_judges hv hmeasured hhints htext
  have hread := readImage_of_judges hv hmeasured hhints htext hr
  have honly : ∀ r', d.Judges text r' → r = r' := fun r' hr' =>
    Except.ok.inj
      ((hread .zero).symm.trans (readImage_of_judges hv hmeasured hhints htext hr' .zero))
  refine ⟨r, hread, fun image => ⟨?_, fun himage => honly (.ok image) himage⟩,
    fun e => ⟨?_, fun he => honly (.error e) he⟩,
    fun image _ => Buffer.set?_zeroed image, ?_⟩
  · rintro rfl
    exact hr
  · rintro rfl
    exact hr
  · intro image l x id u hspelled hl hlong hx hid hu hstored
    exact discriminant_inside hv hmeasured.variants hhints hl
      (room_of_spells htext hspelled hlong) hx hid hu hstored

theorem images_decoded_packet : ∃ file, ofBytes file = .ok packet ∧ packet.Measured ∧
    packet.IsImage "0X07 0000 0000 0000 00 0100000000000000 05000000 0100 0200"
      [7, 0, 0, 0, 0, 0, 0, 0, 1, 0, 0, 0, 0, 0, 0, 0, 5, 0, 0, 0, 1, 0, 2, 0] ∧
    packet.RefusesImage "070000000000000002000000000000000500000001000200"
      (.badVariant 0 2 2) := by
  have hfile : ∃ file, packet.toBytes = .ok file ∧ ofBytes file = .ok packet := by
    refine ⟨_, rfl, ?_⟩
    decide +kernel
  obtain ⟨file, -, hload⟩ := hfile
  have hmeasured : packet.Measured :=
    measured_of_measures (by decide +kernel) packet_variantsMeasured
  have hread :
      packet.readImage .zero "0X07 0000 0000 0000 00 0100000000000000 05000000 0100 0200" =
      .ok (.ok [7, 0, 0, 0, 0, 0, 0, 0, 1, 0, 0, 0, 0, 0, 0, 0, 5, 0, 0, 0, 1, 0, 2, 0]) :=
        by decide +kernel
  have hrefused :
      packet.readImage .zero "070000000000000002000000000000000500000001000200" =
      .ok (.error (.badVariant 0 2 2)) := by decide +kernel
  obtain ⟨r, hr, haccepted, -⟩ := images_decoded hload hmeasured packet_hintsWidest
    (show "0X07 0000 0000 0000 00 0100000000000000 05000000 0100 0200".length <
      Positions.capacity by decide +kernel)
  obtain ⟨r', hr', -, hfaults, -⟩ := images_decoded hload hmeasured packet_hintsWidest
    (show "070000000000000002000000000000000500000001000200".length <
      Positions.capacity by decide +kernel)
  obtain rfl := Except.ok.inj ((hr .zero).symm.trans hread)
  obtain rfl := Except.ok.inj ((hr' .zero).symm.trans hrefused)
  exact ⟨file, hload, hmeasured, (haccepted _).1 rfl, (hfaults _).1 rfl⟩

end Descriptor

end ShapeCode
