import ShapeCode.Proofs.BinaryRoundTrip
import ShapeCode.Proofs.Containment
import ShapeCode.Proofs.ImageText
import ShapeCode.Proofs.Reading

set_option autoImplicit false

/-!
# What walks over images read

A text is accepted as an image if it has the measured size and a walk over it meets no
discriminant that names no variant.  The walk follows the variants that the value
selects; the size is that of the variants that hints name.  Nothing makes a hint name a
widest variant, so a walk may read behind an image that is as long as measured
(`images_unsafe`).  It does not if and only if the reads of every walk stay inside the
measured size (`images_safe_iff`), as they do if hints name widest variants
(`readsWithin_of_hints`).

That images are safe means two things: what is read of an image lies in it, and what is
found out about it does not depend on the memory around it (`SafeImage`).  The second
follows from the first, as a walk makes the same steps over two memories that agree
wherever it reads (`Scene.run_congr`).
-/

namespace ShapeCode

/-! ## Images in memory -/

namespace Image

variable {outside outside' : Memory} {image first second : Bytes} {a : Nat}

/-- The address is one of the first `n` of an image. -/
def Within (n a : Nat) : Prop := address ≤ a ∧ a < address + n

theorem write_congr {m m' : Memory} {start : Nat} {run : Array UInt8} (h : start ≤ a)
    (h' : a < start + run.size) :
    (m.write start run).byteAt a = (m'.write start run).byteAt a := by
  obtain ⟨i, rfl⟩ : ∃ i, a = start + i := ⟨a - start, by omega⟩
  have hi : i < run.size := by omega
  rw [Memory.byteAt_write_of_mem hi, Memory.byteAt_write_of_mem hi]

theorem align_dvd_address {align : Nat} (h : Word.IsAlign align) : align ∣ address :=
  Nat.dvd_trans (h.dvd_of_le (.inr (.inr (.inr rfl))) h.le) (by decide)

theorem hold_congr (h : Within image.length a) :
    (hold outside image).byteAt a = (hold outside' image).byteAt a :=
  write_congr h.1 (by simpa using h.2)

theorem address_add_le_secondAddress (first : Bytes) :
    address + first.length ≤ secondAddress first := by
  have hpos : 0 < address := by decide
  have hmod := Nat.div_add_mod first.length address
  have hlt := Nat.mod_lt first.length hpos
  have hmul : (first.length / address + 2) * address =
      address * (first.length / address) + 2 * address := by
    rw [Nat.add_mul, Nat.mul_comm (first.length / address)]
  unfold secondAddress
  omega

/-- Where two images are held, the first is as where it is held alone. -/
theorem holdTwo_first (h : Within first.length a) :
    (holdTwo outside first second).byteAt a = (hold outside' first).byteAt a := by
  have hle := address_add_le_secondAddress first
  have hlt : a < secondAddress first := Nat.lt_of_lt_of_le h.2 hle
  unfold holdTwo
  rw [Memory.byteAt_write_of_lt hlt]
  exact hold_congr h

theorem holdTwo_second (h : secondAddress first ≤ a)
    (h' : a < secondAddress first + second.length) :
    (holdTwo outside first second).byteAt a = (holdTwo outside' first second).byteAt a :=
  write_congr h (by simpa using h')

/-- The image of `n` bytes that a memory holds. -/
def contents (m : Memory) (n : Nat) : Bytes :=
  (List.range n).map fun i => m.byteAt (address + i)

@[simp] theorem length_contents (m : Memory) (n : Nat) : (contents m n).length = n := by
  simp [contents]

/-- Holding what a memory holds anyway changes nothing. -/
theorem hold_contents (m : Memory) (n : Nat) : hold m (contents m n) = m := by
  have hbyte : ∀ a, (hold m (contents m n)).byteAt a = m.byteAt a := by
    intro a
    by_cases hbefore : a < address
    · exact Memory.byteAt_write_of_lt hbefore
    · by_cases hin : a < address + n
      · obtain ⟨i, rfl⟩ : ∃ i, a = address + i := ⟨a - address, by omega⟩
        have hi : i < (contents m n).toArray.size := by
          rw [List.size_toArray, length_contents]
          omega
        unfold hold
        rw [Memory.byteAt_write_of_mem hi]
        simp [contents]
      · apply Memory.byteAt_write_of_ge
        rw [List.size_toArray, length_contents]
        omega
  obtain ⟨byteAt⟩ := m
  exact congrArg Memory.mk (funext hbyte)

/-- Both images fit into memory at once. -/
def Fit (first second : Bytes) : Prop := secondAddress first + second.length < Word.limit

/-- How far the second image lies behind the first. -/
def distance (first : Bytes) : Nat := secondAddress first - address

theorem dvd_distance (first : Bytes) : 8 ∣ distance first := by
  unfold distance secondAddress address
  omega

theorem address_add_distance (first : Bytes) :
    address + distance first = secondAddress first := by
  have hle := address_add_le_secondAddress first
  unfold distance
  omega

/-- The two lanes of a walk over two images. -/
theorem spread_distance (hfit : Fit first second) :
    Cursor.spread [distance first] address = [address, secondAddress first] := by
  have hlt : secondAddress first < Word.limit :=
    Nat.lt_of_le_of_lt (Nat.le_add_right _ _) hfit
  simp only [Cursor.spread, List.map_cons, List.map_nil,
    address_add_distance, Word.wrap_of_lt hlt]

/-- Where the first lane is at a byte of the first image, the second lane is at one of
the second image. -/
theorem wrap_add_distance {n : Nat} (hfit : Fit first second) (hn : n ≤ second.length)
    (ha : Within n a) :
    secondAddress first ≤ Word.wrap (a + distance first) ∧
      Word.wrap (a + distance first) < secondAddress first + second.length := by
  obtain ⟨hle, hlt⟩ := ha
  have hsum := address_add_distance first
  have hin : a + distance first < secondAddress first + second.length := by omega
  rw [Word.wrap_of_lt (Nat.lt_trans hin hfit)]
  omega

end Image

/-! ## Walks over images -/

namespace Scene

variable {t : Tables} {m₀ m m' : Memory} {n : Nat} {distances : List Nat} {x : Spot}

/-- What is read in several lanes is what the first lane reads, and as far from it
as the lanes are. -/
theorem reads_spread (hcursor : ∃ b, x.cursor = [b]) {a : Nat}
    (ha : (x.spread distances).Reads t a) :
    ∃ a₀, x.Reads t a₀ ∧
      (a = a₀ ∨ ∃ k ∈ distances, a = Word.wrap (a₀ + k)) := by
  obtain ⟨b, hb⟩ := hcursor
  obtain ⟨c, hc, i, hi, rfl⟩ := ha
  refine ⟨Word.wrap (b + i), ⟨b, by simp [hb], i, hi, rfl⟩, ?_⟩
  simp only [Spot.spread, hb, List.headD_cons, Cursor.spread,
    List.mem_cons, List.mem_map] at hc
  rcases hc with rfl | ⟨k, hk, rfl⟩
  · exact .inl rfl
  · exact .inr ⟨k, hk, Cursor.wrap_comm b i k⟩

/-- Two memories that agree on the start of an image, in every lane, agree wherever a
spot of that start is read. -/
theorem sameAt_spread (hcursor : ∃ b, x.cursor = [b])
    (hreads : ∀ a, x.Reads t a → Image.Within n a)
    (hfirst : ∀ a, Image.Within n a → m.byteAt a = m'.byteAt a)
    (hlanes : ∀ k ∈ distances, ∀ a, Image.Within n a →
      m.byteAt (Word.wrap (a + k)) = m'.byteAt (Word.wrap (a + k))) :
    SameAt t m m' (x.spread distances) := by
  intro a ha
  obtain ⟨a₀, ha₀, rfl | ⟨k, hk, rfl⟩⟩ := reads_spread hcursor ha
  · exact hfirst a (hreads a ha₀)
  · exact hlanes k hk a₀ (hreads a₀ ha₀)

/-- A union selects in the first lane what it selects in a memory that agrees with the
start of the image. -/
theorem selectsSame_of_agrees (hcursor : ∃ b, x.cursor = [b])
    (hreads : ∀ a, x.Reads t a → Image.Within n a)
    (hfirst : ∀ a, Image.Within n a → m.byteAt a = m₀.byteAt a) :
    SelectsSame t m₀ m distances x := by
  intro id u hid hu
  have hsame : SameAt t m m₀ (x.spread []) :=
    sameAt_spread hcursor hreads hfirst (by simp)
  rw [Spot.spread_nil hcursor] at hsame
  rw [← discriminants_congr hsame hid hu]
  obtain ⟨b, hb⟩ := hcursor
  unfold discriminants
  split
  · simp [Spot.spread, hb, Cursor.spread]
  · simp [Spot.spread, hb, Cursor.spread, Cursor.splat]

/-- What is visited in an image is alike in two memories that agree with it, wherever
the visitors are. -/
theorem alike_of_agrees {σ : Type} {v v' : Visitor σ} {o : Outline}
    (hflat : x.node.isFlat = true) (hx : (Scene.mk t m₀).Visited o [Image.address] x)
    (hreads : ∀ a, x.Reads t a → Image.Within n a)
    (hfirst : ∀ a, Image.Within n a → m.byteAt a = m₀.byteAt a)
    (hfirst' : ∀ a, Image.Within n a → m'.byteAt a = m₀.byteAt a)
    (hlanes : ∀ k ∈ distances, ∀ a, Image.Within n a →
      m.byteAt (Word.wrap (a + k)) = m'.byteAt (Word.wrap (a + k)))
    (henter : SameAt t m m' (x.spread distances) →
      ∀ content, (Scene.mk t m).content x.node x.inner (x.spread distances).cursor =
      .ok content → v.enter x.node (x.spread distances).cursor content =
      v'.enter x.node (x.spread distances).cursor content) :
    Walk.Alike (Scene.mk t m₀) m m' v v' distances x := by
  have hcursor := cursor_of_visited hx
  have hinline := Node.isInline_of_isFlat hflat
  have hsame : SameAt t m m' (x.spread distances) :=
    sameAt_spread hcursor hreads (fun a ha =>
      (hfirst a ha).trans (hfirst' a ha).symm) hlanes
  exact ⟨hcursor, hinline, content_congr hsame hinline,
    selectsSame_of_agrees hcursor hreads hfirst, henter hsame⟩

end Scene

namespace Descriptor

variable {d : Descriptor} {outside outside' : Memory} {image first second : Bytes} {n : Nat}

/-- Whatever memory a walk over a value gets through, it reads only the first `n`
bytes of the value. -/
def ReadsWithin (d : Descriptor) (n : Nat) : Prop :=
  ∀ m, (Scene.mk d.tables m).Completes d.outline [Image.address] →
    ∀ x, (Scene.mk d.tables m).Visited d.outline [Image.address] x →
      ∀ a, x.Reads d.tables a → Image.Within n a

/-- The search for a discriminant that names no variant does not depend on the memory
around an image. -/
theorem badVariant_congr (hv : d.Verified) (hflat : d.outline.isFlat d.tables = .ok true)
    (hcompletes :
      (Scene.mk d.tables (Image.hold outside image)).Completes d.outline [Image.address])
    (hreads : ∀ x, (Scene.mk d.tables (Image.hold outside image)).Visited d.outline
      [Image.address] x → ∀ a, x.Reads d.tables a → Image.Within image.length a) :
    d.badVariant outside' image = d.badVariant outside image := by
  have halike : ∀ x,
      (Scene.mk d.tables (Image.hold outside image)).Visited d.outline [Image.address] x →
      Walk.Alike (Scene.mk d.tables (Image.hold outside image)) (Image.hold outside' image)
        (Image.hold outside image) Image.visitor Image.visitor [] x := by
    intro x hx
    exact Scene.alike_of_agrees
      (Outline.visited_isFlat hv.tables.sound hv.root hflat hx) hx (hreads x hx)
      (fun a ha => Image.hold_congr ha) (fun _ _ => rfl) (by simp) fun _ _ _ => rfl
  exact Scene.run_congr hv.tables hv.root hcompletes (by simp) halike rfl rfl none

/-- The text of an image does not depend on the memory around it. -/
theorem renderImage_congr (hv : d.Verified) (hflat : d.outline.isFlat d.tables = .ok true)
    (hcompletes :
      (Scene.mk d.tables (Image.hold outside image)).Completes d.outline [Image.address])
    (hreads : ∀ x, (Scene.mk d.tables (Image.hold outside image)).Visited d.outline
      [Image.address] x → ∀ a, x.Reads d.tables a → Image.Within image.length a) :
    d.renderImage outside' image = d.renderImage outside image := by
  have hsame : ∀ x,
      (Scene.mk d.tables (Image.hold outside image)).Visited d.outline [Image.address] x →
      Scene.SameAt d.tables (Image.hold outside image) (Image.hold outside' image) x := by
    intro x hx a ha
    exact Image.hold_congr (hreads x hx a ha)
  have halike : ∀ x,
      (Scene.mk d.tables (Image.hold outside image)).Visited d.outline [Image.address] x →
      Walk.Alike (Scene.mk d.tables (Image.hold outside image)) (Image.hold outside image)
        (Image.hold outside' image) (ValueText.visitor (Image.hold outside image))
        (ValueText.visitor (Image.hold outside' image)) [] x := by
    intro x hx
    have hxflat := Outline.visited_isFlat hv.tables.sound hv.root hflat hx
    refine Scene.alike_of_agrees hxflat hx (hreads x hx) (fun _ _ => rfl)
      (fun a ha => Image.hold_congr ha)
      (by simp) fun hspread content hcontent => ?_
    obtain ⟨b, hb⟩ := Scene.cursor_of_visited hx
    rw [Spot.spread_nil ⟨b, hb⟩] at hcontent ⊢
    obtain ⟨ys, hys⟩ := hcompletes.inside x hx
    apply Scene.render_enter_congr hxflat (by simp [hb]) (hsame x hx)
    rintro span rfl hbytes
    exact Scene.spanBytes_congr hb (Scene.inner_of_visited hx)
      (Node.isInline_of_isFlat hxflat) hys hcontent
      hbytes fun y hy => hsame y (.inside hx hys hy)
  have hrun : Walk.run ⟨d.tables, Image.hold outside image⟩
      (ValueText.visitor (Image.hold outside image))
      (Image.depth d.tables image) d.outline [Image.address] Phrase.empty =
        Walk.run ⟨d.tables, Image.hold outside' image⟩
          (ValueText.visitor (Image.hold outside' image))
          (Image.depth d.tables image) d.outline [Image.address] Phrase.empty :=
    Scene.run_congr (s := Scene.mk d.tables (Image.hold outside image)) hv.tables
      hv.root hcompletes (by simp)
      halike (ValueText.attends_visitor _ _) (ValueText.leave_visitor _ _) .empty
  unfold renderImage Scene.render
  rw [hrun]

/-- The order of two images that fit into memory does not depend on the memory around
them, if the first is read no further than `n` bytes and neither is shorter. -/
theorem compareImages_congr (hv : d.Verified) (hflat : d.outline.isFlat d.tables = .ok true)
    (hcompletes :
      (Scene.mk d.tables (Image.hold outside first)).Completes d.outline [Image.address])
    (hreads : ∀ x, (Scene.mk d.tables (Image.hold outside first)).Visited d.outline
      [Image.address] x → ∀ a, x.Reads d.tables a → Image.Within n a)
    (hfirst : n ≤ first.length) (hsecond : n ≤ second.length)
    (hfit : Image.Fit first second) (m m' : Memory) :
    d.compareImages m first second = d.compareImages m' first second := by
  have hheld : ∀ m a, Image.Within n a →
      (Image.holdTwo m first second).byteAt a = (Image.hold outside first).byteAt a := by
    intro m a ha
    refine Image.holdTwo_first ⟨ha.1, ?_⟩
    have := ha.2
    omega
  have hlane : ∀ a, Image.Within n a →
      (Image.holdTwo m first second).byteAt (Word.wrap (a + Image.distance first)) =
        (Image.holdTwo m' first second).byteAt (Word.wrap (a + Image.distance first)) := by
    intro a ha
    obtain ⟨hle, hlt⟩ := Image.wrap_add_distance hfit hsecond ha
    exact Image.holdTwo_second hle hlt
  have halike : ∀ x,
      (Scene.mk d.tables (Image.hold outside first)).Visited d.outline [Image.address] x →
      Walk.Alike (Scene.mk d.tables (Image.hold outside first))
        (Image.holdTwo m first second)
        (Image.holdTwo m' first second) (ValueOrder.visitor (Image.holdTwo m first second))
        (ValueOrder.visitor (Image.holdTwo m' first second)) [Image.distance first] x := by
    intro x hx
    have hxflat := Outline.visited_isFlat hv.tables.sound hv.root hflat hx
    refine Scene.alike_of_agrees hxflat hx (hreads x hx) (hheld m) (hheld m') ?_ ?_
    · rw [List.forall_mem_singleton]
      exact hlane
    · intro hsame content _
      exact Scene.compare_enter_congr (x := x.spread [Image.distance first]) hxflat hsame
  have hrun : Walk.run ⟨d.tables, Image.holdTwo m first second⟩
      (ValueOrder.visitor (Image.holdTwo m first second))
        (Image.depth d.tables first) d.outline
      (Cursor.spread [Image.distance first] Image.address) .eq =
        Walk.run ⟨d.tables, Image.holdTwo m' first second⟩
          (ValueOrder.visitor (Image.holdTwo m' first second))
            (Image.depth d.tables first) d.outline
          (Cursor.spread [Image.distance first] Image.address) .eq :=
    Scene.run_congr (s := Scene.mk d.tables (Image.hold outside first))
      hv.tables hv.root hcompletes
      (by simpa using Image.dvd_distance first) halike (ValueOrder.attends_visitor _ _)
      (ValueOrder.leave_visitor _ _) .eq
  rw [Image.spread_distance hfit] at hrun
  exact hrun

/-- A walk over two images that fit into memory reads the first in one lane and the
second in the other. -/
theorem pair_reads (hv : d.Verified)
    (hcompletes :
      (Scene.mk d.tables (Image.hold outside first)).Completes d.outline [Image.address])
    (hreads : ∀ x, (Scene.mk d.tables (Image.hold outside first)).Visited d.outline
      [Image.address] x → ∀ a, x.Reads d.tables a → Image.Within n a)
    (hfirst : n ≤ first.length) (hsecond : n ≤ second.length)
    (hfit : Image.Fit first second) {m : Memory} {z : Spot}
    (hz : (Scene.mk d.tables (Image.holdTwo m first second)).Visited d.outline
      [Image.address, Image.secondAddress first] z)
    {a : Nat} (ha : z.Reads d.tables a) :
    Image.Within first.length a ∨
      (Image.secondAddress first ≤ a ∧ a < Image.secondAddress first + second.length) :=
        by
  rw [← Image.spread_distance hfit] at hz
  have hin : ∀ b, Image.Within n b → Image.Within first.length b :=
    fun b hb => ⟨hb.1, Nat.lt_of_lt_of_le hb.2 (Nat.add_le_add_left hfirst _)⟩
  have hselects : ∀ x,
      (Scene.mk d.tables (Image.hold outside first)).Visited d.outline [Image.address] x →
      Scene.SelectsSame d.tables (Image.hold outside first) (Image.holdTwo m first second)
        [Image.distance first] x := by
    intro x hx
    exact Scene.selectsSame_of_agrees (Scene.cursor_of_visited hx) (hreads x hx)
      fun b hb => Image.holdTwo_first (hin b hb)
  have hspread : ∃ x,
      (Scene.mk d.tables (Image.hold outside first)).Visited d.outline [Image.address] x ∧
      x.Sound d.tables ∧ z = x.spread [Image.distance first] :=
    Scene.visited_spread hv.tables (by simpa using Image.dvd_distance first)
      hv.root hcompletes hselects hz
  obtain ⟨x, hx, -, rfl⟩ := hspread
  obtain ⟨a₀, ha₀, hlane⟩ := Scene.reads_spread (Scene.cursor_of_visited hx) ha
  have hread : Image.Within n a₀ := hreads x hx a₀ ha₀
  rcases hlane with hlane | ⟨k, hk, hlane⟩
  · rw [hlane]
    exact .inl (hin a₀ hread)
  · rw [hlane, List.mem_singleton.1 hk]
    exact .inr (Image.wrap_add_distance hfit hsecond hread)

end Descriptor

/-! ## Discriminants in range -/

theorem Image.thorough : Image.visitor.Thorough where
  enter := by
    intro node c content st st' _ _ henter
    simp only [Image.visitor, Image.enter] at henter ⊢
    split at henter
    · split at henter
      · obtain ⟨rfl, -⟩ := Prod.mk.inj henter
        rfl
      · cases (Prod.mk.inj henter).2
    · cases (Prod.mk.inj henter).2
  leave _ _ _ := rfl

/-- A walk over an image may enter as many unions inside one another as the table holds. -/
theorem Image.unions_le_depth (t : Tables) (image : Bytes) :
    t.unions.size ≤ depth t image := by
  unfold Image.depth
  calc t.unions.size ≤ t.unions.size + 1 := Nat.le_succ _
    _ ≤ (t.unions.size + 1) * (image.length + 2) := Nat.le_mul_of_pos_right _ (by omega)

/-- The unions stored at the spot nest less than `depth` deep. -/
def Spot.Nests (t : Tables) (depth : Nat) (x : Spot) : Prop :=
  ∀ id, x.node = .union id ∨
    (x.node.storesInline = true ∧ x.inner.Stores id) → t.Nests depth id.toNat

/-- Where unions nest less deep than `depth`, a walk may enter one. -/
theorem Spot.Nests.depth_pos {t : Tables} {depth : Nat} {x : Spot} (h : x.Nests t depth)
    (id : UInt16) (hid : x.node = .union id) : 0 < depth := by
  have hunion := h id (.inl hid)
  cases depth with
  | zero => exact False.elim hunion
  | succ k => exact Nat.succ_pos k

/-- The unions stored at a node of a range nest less deep than their table is long. -/
theorem Tables.Verified.spot_nests {t : Tables} (ht : t.Verified) {o : Outline}
    (ho : o.Sound t) {x : Spot} (hx : o.Has x.node x.inner) {depth : Nat}
    (hdepth : t.unions.size ≤ depth) : x.Nests t depth := by
  intro id hid
  exact (ht.nests (ho.lt_of_stores (hx.stores hid))).mono hdepth

theorem Spot.Nests.inside {s : Scene} {depth : Nat} {x : Spot} (h : x.Nests s.tables depth)
    {ys : List Spot} (hys : s.inside x = .ok ys) :
    ∀ y ∈ ys, y.Nests s.tables (x.below depth) := by
  intro y hy id hid
  rcases Scene.has_of_inside hys with hin | ⟨id', u, v, fields, hid', hu, hfields, hhas⟩
  · obtain ⟨hstores, hhas⟩ := hin y hy
    have hbelow : x.below depth = depth := by
      unfold Spot.below
      split
      · rename_i id' hid'
        rw [hid'] at hstores
        cases hstores
      · rfl
    rw [hbelow]
    exact h id (.inr ⟨hstores, hhas.stores hid⟩)
  · have houter := h id' (.inl hid')
    have hbelow : x.below depth = depth - 1 := by
      unfold Spot.below
      rw [hid']
    have hinside : s.tables.Inside id.toNat id'.toNat :=
      Tables.inside_of_stores hu hfields ((hhas y hy).stores hid)
    rw [hbelow]
    cases depth with
    | zero => exact False.elim houter
    | succ k => exact houter _ hinside

namespace Scene

variable {s : Scene} {depth : Nat}

/-- A spot that can be gone into has contents, and a union there selects an
existing variant. -/
theorem enter_of_inside {x : Spot} {ys : List Spot} (hcursor : ∃ b, x.cursor = [b])
    (hinline : x.node.isInline = true) (hys : s.inside x = .ok ys) :
    ∃ content, s.content x.node x.inner x.cursor = .ok content ∧
      Image.visitor.enter x.node x.cursor content none = (none, true) := by
  obtain ⟨node, inner, c, l⟩ := x
  obtain ⟨b, hb⟩ := hcursor
  simp only at hb
  subst hb
  cases node with
  | scalar | handle | record | resource => exact ⟨.plain, rfl, rfl⟩
  | pointer => cases hinline
  | union id =>
    simp only [inside] at hys
    split at hys
    · cases hys
    · rename_i u hu
      refine ⟨.union u (s.discriminants u [b]), by simp only [content, hu], ?_⟩
      obtain ⟨selected, hselected⟩ :
          ∃ selected, s.discriminants u [b] = [selected] := by
        unfold discriminants
        split
        · exact ⟨_, rfl⟩
        · exact ⟨_, rfl⟩
      rw [hselected] at hys ⊢
      obtain ⟨u', fields, hu', hfields, -⟩ := variantSpots_eq_ok hys
      obtain rfl := Except.ok.inj (hu.symm.trans hu')
      have hlt := Union.lt_of_variant hfields
      simp only [Image.visitor, Image.enter]
      rw [if_neg (by omega)]
  | run form plain elem =>
    cases form with
    | vec | unboxedVec | slice => cases hinline
    | fixedVec count =>
      simp only [inside] at hys
      split at hys
      · cases hys
      · rename_i span hspan
        exact ⟨.run span, by simp only [content, hspan], rfl⟩

/-- Where a walk gets through, the search for a discriminant that names no
variant finds none. -/
theorem visitSpot_of_goes {x : Spot} (hcursor : ∃ b, x.cursor = [b]) (hgoes : s.Goes x)
    (hinline : ∀ y, s.Under x y → y.node.isInline = true)
    (hnests : x.Nests s.tables depth) :
    Walk.visitSpot s Image.visitor depth x none = .ok none := by
  revert hcursor hgoes hinline hnests
  refine Walk.visit_induction (s := s) (p := fun depth x =>
    (∃ b, x.cursor = [b]) → s.Goes x →
    (∀ y, s.Under x y → y.node.isInline = true) → x.Nests s.tables depth →
      Walk.visitSpot s Image.visitor depth x none = .ok none) ?_ depth x
  intro depth x ih hcursor hgoes hinline hnests
  obtain ⟨ys, hys, hgoesAll⟩ := goes_iff.1 hgoes
  obtain ⟨content, hcontent, henter⟩ := enter_of_inside hcursor (hinline x .refl) hys
  have hdepth := hnests.depth_pos
  obtain ⟨b, hb⟩ := hcursor
  have hall : ∀ y ∈ ys,
      Walk.visitSpot s Image.visitor (x.below depth) y none = .ok none := by
    intro y hy
    refine ih ys hys hdepth y hy (cursor_of_inside hb hys y hy) (hgoesAll y hy)
      (fun z hz => hinline z ?_)
      (hnests.inside hys y hy)
    exact under_iff.2 (.inr ⟨ys, hys, y, hy, hz⟩)
  rw [Walk.visitSpot_of_enter rfl (hinline x .refl) hcontent hys hdepth henter,
    Walk.visitAll_of_forall hall]
  rfl

end Scene

namespace Descriptor.Verified

variable {d : Descriptor} {l : Layout} (hv : d.Verified)
  (hl : d.outline.layout d.tables = .ok l)

include hv hl

theorem rangeLayout_root : d.tables.rangeLayout d.outline .empty = .ok l :=
  (hv.tables.layout_eq hv.root).symm.trans hl

theorem isAlign_root : Word.IsAlign l.align :=
  (hv.tables.rangeLayout_proper hv.root Layout.isAlign_empty
    (hv.rangeLayout_root hl)).isAlign

end Descriptor.Verified

namespace Descriptor

variable {d : Descriptor} {outside : Memory} {image : Bytes}

/-- An image that a walk gets through has no discriminant out of range. -/
theorem badVariant_of_completes (hv : d.Verified)
    (hflat : d.outline.isFlat d.tables = .ok true)
    (hcompletes :
      (Scene.mk d.tables (Image.hold outside image)).Completes d.outline [Image.address]) :
    d.badVariant outside image = .ok none := by
  obtain ⟨xs, hxs⟩ := hcompletes.root
  have hvisit : ∀ x ∈ xs,
      Walk.visitSpot ⟨d.tables, Image.hold outside image⟩ Image.visitor
      (Image.depth d.tables image) x none = .ok none := by
    intro x hx
    have hvisited : (Scene.mk d.tables (Image.hold outside image)).Visited
        d.outline [Image.address] x :=
      .root hxs hx
    refine Scene.visitSpot_of_goes (Walk.cursor_of_spots hxs x hx)
      (hcompletes.goes hvisited) (fun y hy => ?_)
      (hv.tables.spot_nests hv.root (Walk.has_of_spots hxs x hx)
        (Image.unions_le_depth d.tables image))
    apply Node.isInline_of_isFlat
    exact Outline.visited_isFlat hv.tables.sound hv.root hflat
      (Scene.visited_iff.2 ⟨xs, hxs, x, hx, hy⟩)
  have hall : Walk.visitAll ⟨d.tables, Image.hold outside image⟩ Image.visitor
      (Image.depth d.tables image) xs none =
      .ok none := Walk.visitAll_of_forall hvisit
  exact (Walk.range_eq_visitAll hxs none).trans hall

/-- What is promised of an image, alone and together with another that it fits into
memory with: walks read inside the images, and whether discriminants are in range, the
text and the order do not depend on the memory around. -/
structure SafeImage (d : Descriptor) (outside : Memory) (image : Bytes) : Prop where
  reads : ∀ x,
    (Scene.mk d.tables (Image.hold outside image)).Visited d.outline [Image.address] x →
    ∀ a, x.Reads d.tables a → Image.Within image.length a
  check : ∀ outside', d.badVariant outside' image = .ok none
  text : ∀ outside', d.renderImage outside' image = d.renderImage outside image
  pairReads : ∀ outside' text second, d.readImage outside' text = .ok (.ok second) →
    Image.Fit image second →
    ∀ m z, (Scene.mk d.tables (Image.holdTwo m image second)).Visited d.outline
      [Image.address, Image.secondAddress image] z → ∀ a, z.Reads d.tables a →
        Image.Within image.length a ∨
          (Image.secondAddress image ≤ a ∧
            a < Image.secondAddress image + second.length)
  order : ∀ outside' text second, d.readImage outside' text = .ok (.ok second) →
    Image.Fit image second →
    ∀ m m', d.compareImages m image second = d.compareImages m' image second

/-- An accepted image is one of a flat shape, no shorter than measured, and without a
discriminant out of range. -/
theorem readImage_eq_ok_iff {text : String} :
    d.readImage outside text = .ok (.ok image) ↔
      d.outline.isFlat d.tables = .ok true ∧
        Hex.decode (Image.digits text) = .ok image ∧
        ∃ l, d.outline.layout d.tables = .ok l ∧ l.size ≤ image.length ∧
          d.badVariant outside image = .ok none := by
  constructor
  · intro h
    unfold readImage at h
    split at h
    · cases h
    · cases h
    · rename_i hflat
      split at h
      · cases h
      · rename_i decoded hdecoded
        split at h
        · cases h
        · rename_i l hl
          split at h
          · cases h
          · rename_i hlong
            unfold checkImage at h
            split at h
            · cases h
            · cases h
            · rename_i hbad
              obtain rfl := Except.ok.inj (Except.ok.inj h)
              exact ⟨hflat, hdecoded, l, hl, Nat.le_of_not_lt hlong, hbad⟩
  · rintro ⟨hflat, hdecoded, l, hl, hle, hbad⟩
    simp only [readImage, hflat, hdecoded, hl, if_neg (Nat.not_lt.2 hle), checkImage, hbad]

/-- What is read of a value that stands where measuring says does not exceed its size. -/
theorem readSize_le_size (hv : d.Verified) (hhints : d.tables.HintsWidest) {x : Spot}
    (hx : x.Fits d.tables) :
    x.readSize d.tables ≤ x.layout.size := by
  obtain ⟨node, inner, c, l⟩ := x
  have hlayout := hx.layout
  cases node with
  | scalar s =>
    obtain rfl : s.layout = l := Except.ok.inj hlayout
    exact Nat.le_refl _
  | union id =>
    simp only [Spot.readSize]
    split
    · exact Nat.zero_le _
    · rename_i u hu
      have hhead := hv.tables.unionHead_le_union hhints hu hlayout
      split
      · rename_i hd
        simpa [Measure.unionHead, hd, Placement.discriminant] using hhead
      · exact Nat.zero_le _
  | handle | pointer | record | resource | run => exact Nat.zero_le _

/-- If all hints name widest variants, then nothing is read behind the measured size. -/
theorem within_of_hints (hv : d.Verified) (hmeasured : d.tables.VariantsMeasured)
    (hhints : d.tables.HintsWidest) {l : Layout} (hl : d.outline.layout d.tables = .ok l)
    (hlimit : Image.address + l.size + 16 < Word.limit) {m : Memory} {x : Spot}
    (hx : (Scene.mk d.tables m).Visited d.outline [Image.address] x) {a : Nat}
    (ha : x.Reads d.tables a) : Image.Within l.size a := by
  obtain ⟨b, hb, i, hi, rfl⟩ := ha
  obtain ⟨hfits, hplace⟩ :=
    hv.tables.visited_place hhints hmeasured hv.root (hv.rangeLayout_root hl)
      (Image.align_dvd_address (hv.isAlign_root hl)) hlimit hx
  rw [hfits.cursor, List.mem_singleton] at hb
  subst hb
  have hread := readSize_le_size hv hhints hfits
  rcases hplace with hwithin | hvoid
  · have hle := hwithin.le_address
    have hstop := hwithin.stop_le
    unfold Spot.stop at hstop
    have hin : x.address + i < Image.address + l.size := by omega
    rw [Word.wrap_of_lt (by omega)]
    exact ⟨Nat.le_trans hle (Nat.le_add_right _ _), hin⟩
  · have hzero := hvoid.size_eq
    omega

theorem readsWithin_of_hints (hv : d.Verified) (hmeasured : d.tables.VariantsMeasured)
    (hhints : d.tables.HintsWidest) {l : Layout} (hl : d.outline.layout d.tables = .ok l)
    (hlimit : Image.address + l.size + 16 < Word.limit) : d.ReadsWithin l.size :=
  fun _ _ _ hx _ ha => within_of_hints hv hmeasured hhints hl hlimit hx ha

/-- Images are safe if and only if no walk over a value reads behind the measured
size of its shape. -/
theorem images_safe_iff {file : Bytes} (h : ofBytes file = .ok d) :
    (∀ outside text image, d.readImage outside text = .ok (.ok image) →
      d.SafeImage outside image) ↔
      ∀ l, d.outline.isFlat d.tables = .ok true →
        d.outline.layout d.tables = .ok l → d.ReadsWithin l.size := by
  have hv : d.Verified := verified_of_verify (ofBytes_eq_ok_iff.1 h).1
  constructor
  · intro hsafe l hflat hl m hcompletes
    -- The bytes at the address are an image, and the memory is one that holds it.
    let image := Image.contents m l.size
    have hlength : image.length = l.size := Image.length_contents m l.size
    have hhold : Image.hold m image = m := Image.hold_contents m l.size
    have hbad : d.badVariant m image = .ok none := by
      apply badVariant_of_completes hv hflat
      rw [hhold]
      exact hcompletes
    have hread : d.readImage m (Image.text image) = .ok (.ok image) :=
      readImage_eq_ok_iff.2 ⟨hflat, Image.decode_digits_text image,
        l, hl, by omega, hbad⟩
    have hreads := (hsafe m _ image hread).reads
    rw [hhold, hlength] at hreads
    exact hreads
  · intro hwithin outside text image hread
    obtain ⟨hflat, -, l, hl, hle, hbad⟩ := readImage_eq_ok_iff.1 hread
    have hcompletes : (Scene.mk d.tables (Image.hold outside image)).Completes
        d.outline [Image.address] :=
      Scene.completes_of_run Image.thorough hbad rfl
    have hreads := hwithin l hflat hl (Image.hold outside image) hcompletes
    have hreads' : ∀ x, (Scene.mk d.tables (Image.hold outside image)).Visited
        d.outline [Image.address] x →
        ∀ a, x.Reads d.tables a → Image.Within image.length a := by
      intro x hx a ha
      have hin := hreads x hx a ha
      exact ⟨hin.1, Nat.lt_of_lt_of_le hin.2 (Nat.add_le_add_left hle _)⟩
    refine ⟨hreads', fun outside' => ?_, fun outside' => ?_, ?_, ?_⟩
    · rw [badVariant_congr hv hflat hcompletes hreads', hbad]
    · exact renderImage_congr hv hflat hcompletes hreads'
    · intro outside' text' second hsecond hfit m z hz a ha
      obtain ⟨-, -, l', hl', hle', -⟩ := readImage_eq_ok_iff.1 hsecond
      obtain rfl := Except.ok.inj (hl.symm.trans hl')
      exact pair_reads hv hcompletes hreads hle hle' hfit hz ha
    · intro outside' text' second hsecond hfit m m'
      obtain ⟨-, -, l', hl', hle', -⟩ := readImage_eq_ok_iff.1 hsecond
      obtain rfl := Except.ok.inj (hl.symm.trans hl')
      exact compareImages_congr hv hflat hcompletes hreads hle hle' hfit m m'

/-- A union whose hint names the smaller of its variants. -/
def undersized : Descriptor :=
  ⟨Emit.union 0, ⟨#[⟨#[[], Emit.scalar .u64 ++ Emit.scalar .u64], [0]⟩], #[]⟩⟩

theorem images_safe_iff_undersized : ∃ file, ofBytes file = .ok undersized ∧
    ((∀ outside text image, undersized.readImage outside text = .ok (.ok image) →
      undersized.SafeImage outside image) ↔
        ∀ l, undersized.outline.isFlat undersized.tables = .ok true →
          undersized.outline.layout undersized.tables = .ok l →
          undersized.ReadsWithin l.size) := by
  have hfile : ∃ file, undersized.toBytes = .ok file ∧
      ofBytes file = .ok undersized := by
    refine ⟨_, rfl, ?_⟩
    decide +kernel
  obtain ⟨file, -, hload⟩ := hfile
  exact ⟨file, hload, images_safe_iff hload⟩

/-- An image of the first variant's size that selects the second is accepted.  Its
text shows two words behind it, the second of them behind the sixteen bytes that the
image is kept in. -/
theorem images_unsafe : ¬ ∀ file d, ofBytes file = .ok d → ∀ outside text image,
    d.readImage outside text = .ok (.ok image) → d.SafeImage outside image := by
  intro h
  have hload :
      ofBytes [83, 72, 80, 68, 1, 0, 1, 0, 0, 0, 0, 0, 3, 0, 0, 0, 12, 0, 0, 2, 0, 1, 0, 0,
      0, 0, 0, 2, 0, 3, 3] = .ok undersized := by decide +kernel
  have hread : undersized.readImage .zero "0100000000000000" =
      .ok (.ok [1, 0, 0, 0, 0, 0, 0, 0]) := by
    decide +kernel
  have hzero : undersized.renderImage .zero [1, 0, 0, 0, 0, 0, 0, 0] = .ok "(0, 0)" := by
    decide +kernel
  have hone : undersized.renderImage (Memory.zero.write (Image.address + 16) #[1])
      [1, 0, 0, 0, 0, 0, 0, 0] = .ok "(0, 1)" := by decide +kernel
  have htext := (h _ _ hload _ _ _ hread).text (Memory.zero.write (Image.address + 16) #[1])
  rw [hzero, hone] at htext
  exact absurd htext (by decide +kernel)

end Descriptor

end ShapeCode
