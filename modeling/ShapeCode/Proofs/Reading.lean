import ShapeCode.Proofs.Agreement
import ShapeCode.Proofs.FlatShapes
import ShapeCode.Value.Order
import ShapeCode.Value.Text

set_option autoImplicit false

/-!
# What walks over flat values read

A walk over a value of a flat shape reads scalars and discriminants (`Spot.Reads`), and
nothing else: two memories that hold the same bytes where a spot is read have the same
contents there (`Scene.content_congr`), and writing and ordering values do the same with
them.  The bytes of a run that is written as a string are those of its elements
(`Scene.spanBytes_congr`).
-/

namespace ShapeCode

/-! ## Bytes read -/

namespace Spot

/-- How many bytes of the value a walk over a flat shape reads at the spot: a scalar, or
a discriminant. -/
def readSize (t : Tables) (x : Spot) : Nat :=
  match x.node with
  | .scalar s => s.size
  | .union id =>
    match t.union id with
    | .error _ => 0
    | .ok u => if u.hasDiscriminant then Word.size else 0
  | _ => 0

/-- The address is that of a byte read at the spot, in some lane. -/
def Reads (t : Tables) (x : Spot) (a : Nat) : Prop :=
  ∃ b ∈ x.cursor, ∃ i < x.readSize t, a = Word.wrap (b + i)

end Spot

namespace Memory

variable {m m' : Memory}

theorem bytes_congr {a a' n : Nat}
    (h : ∀ i < n, m.byteAt (Word.wrap (a + i)) = m'.byteAt (Word.wrap (a' + i))) :
    m.bytes a n = m'.bytes a' n := by
  induction n generalizing a a' with
  | zero => rfl
  | succ n ih =>
    have hfirst := h 0 (Nat.succ_pos n)
    rw [Nat.add_zero, Nat.add_zero] at hfirst
    have hrest : m.bytes (a + 1) n = m'.bytes (a' + 1) n := by
      apply ih
      intro i hi
      rw [Nat.add_right_comm, Nat.add_assoc, Nat.add_right_comm a', Nat.add_assoc a']
      exact h (i + 1) (by omega)
    simp only [bytes, hfirst, hrest]

theorem number_congr {a a' n : Nat}
    (h : ∀ i < n, m.byteAt (Word.wrap (a + i)) = m'.byteAt (Word.wrap (a' + i))) :
    m.number n a = m'.number n a' := by
  unfold number
  rw [bytes_congr h]

end Memory

namespace Scene

/-- The memories hold the same bytes wherever the spot is read. -/
def SameAt (t : Tables) (m m' : Memory) (x : Spot) : Prop :=
  ∀ a, x.Reads t a → m.byteAt a = m'.byteAt a

variable {t : Tables} {m m' : Memory} {x : Spot}

theorem word_congr {id : UInt16} {u : Union} (h : SameAt t m m' x)
    (hid : x.node = .union id) (hu : t.union id = .ok u) (hd : u.hasDiscriminant = true) :
    ∀ b ∈ x.cursor, m.word b = m'.word b := by
  intro b hb
  apply Memory.number_congr
  intro i hi
  refine h _ ⟨b, hb, i, ?_, rfl⟩
  simpa [Spot.readSize, hid, hu, hd] using hi

theorem discriminants_congr {id : UInt16} {u : Union} (h : SameAt t m m' x)
    (hid : x.node = .union id) (hu : t.union id = .ok u) :
    (Scene.mk t m).discriminants u x.cursor = (Scene.mk t m').discriminants u x.cursor := by
  unfold discriminants
  split
  · rename_i hd
    exact List.map_congr_left (word_congr h hid hu hd)
  · rfl

/-- What is found at a spot that stores its contents inline is read there. -/
theorem content_congr (h : SameAt t m m' x) (hinline : x.node.isInline = true) :
    (Scene.mk t m).content x.node x.inner x.cursor =
        (Scene.mk t m').content x.node x.inner x.cursor := by
  cases hnode : x.node with
  | scalar | handle | record | resource => rfl
  | pointer =>
    rw [hnode] at hinline
    cases hinline
  | union id =>
    simp only [content]
    cases hu : t.union id with
    | error f => rfl
    | ok u => simp only [discriminants_congr h hnode hu]
  | run form =>
    rw [hnode] at hinline
    cases form with
    | vec | unboxedVec | slice => cases hinline
    | fixedVec count => rfl

theorem scalar_congr {s : Scalar} (h : SameAt t m m' x) (hnode : x.node = .scalar s) :
    ∀ b ∈ x.cursor, s.number m b = s.number m' b := by
  intro b hb
  apply Memory.number_congr
  intro i hi
  refine h _ ⟨b, hb, i, ?_, rfl⟩
  simpa [Spot.readSize, hnode] using hi

end Scene

/-! ## Runs of bytes -/

/-- The range of one byte. -/
theorem Outline.ofBytes_byte :
    Outline.ofBytes [(Kind.scalar .u8).byte] = .cons (.scalar .u8) .done .done := by
  have hread : Node.read [(Kind.scalar .u8).byte] = .ok (.scalar .u8, []) := rfl
  rw [Outline.ofBytes_of_read hread]
  simp [Node.nested]

/-- Between an address and a stop that follow one another in memory, every
byte is an element. -/
theorem Walk.byte_of_elementSpots {t : Tables} {span : Span} {bound a e : Nat}
    {xs : List Spot}
    (hxs : elementSpots t (.cons (.scalar .u8) .done .done)
      (span.elementsFrom bound [a]) = .ok xs)
    (hstride : span.stride = 1) (hstop : span.stop = [e]) (he : e < Word.limit)
    (hbound : e - a ≤ bound) :
    ∀ i < e - a, ∃ x ∈ xs, x.node = .scalar .u8 ∧ x.cursor = [a + i] := by
  induction bound generalizing a xs with
  | zero =>
    intro i hi
    omega
  | succ bound ih =>
    intro i hi
    have helem : span.hasElement [a] = true := by
      have hroom : 1 ≤ e - a := by omega
      simpa [Span.hasElement, Cursor.fits, Cursor.distance, hstride, hstop] using hroom
    have hfirst : spots t true (.cons (.scalar .u8) .done .done) [a] false =
        .ok [⟨.scalar .u8, .done, [a], ⟨1, 1⟩⟩] :=
      rfl
    have hnext : Cursor.advance [a] span.stride = [a + 1] := by
      rw [hstride]
      simp only [Cursor.advance, List.map_cons, List.map_nil]
      rw [Word.wrap_of_lt (by omega)]
    simp only [Span.elementsFrom, helem, if_true, elementSpots, hfirst, hnext] at hxs
    split at hxs
    · cases hxs
    · rename_i later hlater
      obtain rfl := Except.ok.inj hxs
      cases i with
      | zero => exact ⟨_, List.mem_cons_self, rfl, rfl⟩
      | succ i =>
        obtain ⟨x, hx, hnode, hcursor⟩ := ih hlater (by omega) i (by omega)
        refine ⟨x, List.mem_append_right _ hx, hnode, ?_⟩
        rw [hcursor]
        congr 1
        omega

/-- The bytes of a run of bytes are read at its elements. -/
theorem Scene.spanBytes_congr {s : Scene} {m' : Memory} {x : Spot} {a : Nat} {span : Span}
    {ys : List Spot} (hcursor : x.cursor = [a])
    (hread : x.inner = Outline.ofBytes x.node.nested) (hinline : x.node.isInline = true)
    (hys : s.inside x = .ok ys)
    (hcontent : s.content x.node x.inner x.cursor = .ok (.run span))
    (hbytes : span.isBytes = true) (hsame : ∀ y ∈ ys, SameAt s.tables s.mem m' y) :
    ValueText.spanBytes s.mem span = ValueText.spanBytes m' span := by
  obtain ⟨node, inner, c, l⟩ := x
  simp only at hcursor hread
  subst hcursor
  cases node with
  | scalar | handle | record | resource | pointer => cases hcontent
  | union id =>
    simp only [content] at hcontent
    split at hcontent
    · cases hcontent
    · cases hcontent
  | run form plain elem =>
    cases form with
    | vec | unboxedVec | slice => cases hinline
    | fixedVec count =>
      simp only [content] at hcontent
      simp only [inside] at hys
      split at hcontent
      · cases hcontent
      · rename_i span' hspan
        obtain rfl := Content.run.inj (Except.ok.inj hcontent)
        rw [hspan] at hys
        obtain ⟨spacing, hspacing, rfl⟩ := Span.resolve_fixedVec_eq_ok hspan
        obtain rfl : elem = [(Kind.scalar .u8).byte] := by simpa [Span.isBytes] using hbytes
        have hinner : inner = .cons (.scalar .u8) .done .done :=
          hread.trans Outline.ofBytes_byte
        subst hinner
        have hstride :
            Outline.spacing s.tables (.cons (.scalar .u8) .done .done) = .ok ⟨1, 16⟩ :=
          rfl
        obtain rfl := Except.ok.inj (hspacing.symm.trans hstride)
        have hbyte := Walk.byte_of_elementSpots hys rfl rfl (Word.wrap_lt _) (Nat.le_refl _)
        apply Memory.bytes_congr
        intro i hi
        obtain ⟨y, hy, hnode, hc⟩ := hbyte i hi
        apply hsame y hy
        refine ⟨a + i, by simp [hc], 0, ?_, rfl⟩
        simp only [Spot.readSize, hnode]
        decide

/-! ## Writing and ordering -/

theorem ValueText.attends_visitor (m m' : Memory) :
    (visitor m).attends = (visitor m').attends :=
  rfl

theorem ValueText.leave_visitor (m m' : Memory) : (visitor m).leave = (visitor m').leave :=
  rfl

theorem ValueOrder.attends_visitor (m m' : Memory) :
    (visitor m).attends = (visitor m').attends :=
  rfl

theorem ValueOrder.leave_visitor (m m' : Memory) : (visitor m).leave = (visitor m').leave :=
  rfl

namespace Scene

variable {t : Tables} {m m' : Memory} {x : Spot}

/-- A value is written the same if the bytes read at its spot, and those of a
run of bytes, are. -/
theorem render_enter_congr (hflat : x.node.isFlat = true) (hcursor : x.cursor ≠ [])
    (h : SameAt t m m' x) {content : Content}
    (hbytes : ∀ span, content = .run span → span.isBytes = true →
      ValueText.spanBytes m span = ValueText.spanBytes m' span) :
    (ValueText.visitor m).enter x.node x.cursor content =
        (ValueText.visitor m').enter x.node x.cursor content := by
  funext st
  obtain ⟨b, rest, hc⟩ := List.exists_cons_of_ne_nil hcursor
  simp only [ValueText.visitor]
  cases hnode : x.node with
  | scalar s =>
    have hnumber := scalar_congr h hnode b (by simp [hc])
    simp only [ValueText.enter, hc, List.headD_cons, hnumber]
  | handle | pointer =>
    rw [hnode] at hflat
    cases hflat
  | record | resource => rfl
  | union => cases content <;> rfl
  | run form =>
    cases content with
    | plain | union | pointer => rfl
    | run span =>
      simp only [ValueText.enter]
      split
      · rename_i hspan
        rw [hbytes span rfl hspan]
      · rfl

/-- Values are ordered the same if the bytes read at their spot are. -/
theorem compare_enter_congr (hflat : x.node.isFlat = true) (h : SameAt t m m' x)
    {content : Content} :
    (ValueOrder.visitor m).enter x.node x.cursor content =
      (ValueOrder.visitor m').enter x.node x.cursor content := by
  funext st
  simp only [ValueOrder.visitor]
  cases hnode : x.node with
  | scalar s =>
    have hnumber := scalar_congr h hnode
    have hscalars : ValueOrder.scalars m s x.cursor = ValueOrder.scalars m' s x.cursor := by
      unfold ValueOrder.scalars
      split
      · rename_i a b hc
        rw [hc] at hnumber
        simp only [List.forall_mem_cons] at hnumber
        rw [hnumber.1, hnumber.2.1]
      · rfl
    simp only [ValueOrder.enter, hscalars]
  | handle | pointer =>
    rw [hnode] at hflat
    cases hflat
  | record | resource | run => rfl
  | union => cases content <;> rfl

end Scene

end ShapeCode
