import ShapeCode.Proofs.Reading
import ShapeCode.Proofs.TreeOrder

set_option autoImplicit false

/-!
# The text of a tree

A printer of trees keeps no account of separators: the text of a value is made of the
texts of what is inside, joined (`Values.text`).  A walk that writes a value goes front
to back and owes separators as it goes.  What carries over is that a group of siblings,
once it is closed, is one sibling again, however deep it is and whether or not any text
was written in it (`Phrase.group`).  By induction on the tree that a walk reads, the
text written is the text of the tree (`Descriptor.render_eq_text`).
-/

namespace ShapeCode

/-! ## Printing trees -/

namespace Head

/-- The number of a scalar. -/
def number : Head → Nat
  | .scalar _ n => n
  | _ => 0

/-- The text of a value, by its head, the numbers of the scalars inside as bytes, and
the texts of what is inside. -/
def text (h : Head) (bytes : Bytes) (inside : List String) : String :=
  match h with
  | .scalar s n => s.text n
  | .handle h _ => h.name
  | .record => "(" ++ ", ".intercalate inside ++ ")"
  | .resource => if inside.isEmpty then "res" else "res(" ++ ", ".intercalate inside ++ ")"
  | .union _ => if inside.isEmpty then "" else "(" ++ ", ".intercalate inside ++ ")"
  | .run isBytes _ =>
    if isBytes then Quoted.bytes bytes else "[" ++ ", ".intercalate inside ++ "]"
  | .null form => form.sigil ++ "(null)"
  | .pointer form => form.sigil ++ ", ".intercalate inside

end Head

namespace Values

/-- The numbers of scalars side by side, as bytes. -/
def bytes : Values → Bytes
  | .nil => []
  | .cons head _ rest => UInt8.ofNat head.number :: rest.bytes

/-- The text of each of the values side by side. -/
def texts : Values → List String
  | .nil => []
  | .cons head inside rest => head.text inside.bytes inside.texts :: rest.texts

/-- The text of values side by side. -/
def text (v : Values) : String := ", ".intercalate v.texts

end Values

/-! ## Siblings -/

namespace Phrase

variable {separator : String} {p : Phrase}

/-- Siblings of one piece each. -/
def siblings (separator : String) (texts : List String) (p : Phrase) : Phrase :=
  texts.foldl (fun p s => p.leaf separator s) p

theorem siblings_nil : p.siblings separator [] = p := rfl

theorem siblings_cons {s : String} {texts : List String} :
    p.siblings separator (s :: texts) = (p.leaf separator s).siblings separator texts := rfl

theorem leaf_eq {s : String} :
    p.leaf separator s =
        ⟨(if p.owes then p.text ++ separator else p.text) ++ s, true⟩ := by
  simp [leaf, start, finish]

/-- A separator goes before each sibling behind a first one. -/
theorem siblings_text_of_owes {t : String} {texts : List String} :
    ((⟨t, true⟩ : Phrase).siblings separator texts).text =
      if texts = [] then t else t ++ separator ++ separator.intercalate texts := by
  induction texts generalizing t with
  | nil => rfl
  | cons s texts ih =>
    rw [siblings_cons, leaf_eq, if_pos rfl, ih]
    cases texts with
    | nil => simp
    | cons s' texts => simp [String.append_assoc]

/-- Where nothing is owed, siblings are written as their texts joined. -/
theorem siblings_text {t : String} {texts : List String} :
    ((⟨t, false⟩ : Phrase).siblings separator texts).text =
        t ++ separator.intercalate texts := by
  cases texts with
  | nil => simp [siblings_nil]
  | cons s texts =>
    rw [siblings_cons, leaf_eq, siblings_text_of_owes]
    cases texts with
    | nil => simp
    | cons s' texts => simp [String.append_assoc]

/-- Siblings between brackets are one sibling, and none of them changes what is
owed around them. -/
theorem group {opening closing : String} {texts : List String} :
    ((p.start separator opening).siblings separator texts).finish closing =
      p.leaf separator (opening ++ separator.intercalate texts ++ closing) := by
  rw [start, finish, siblings_text, leaf_eq]
  simp [String.append_assoc]

/-- A sibling that starts with one piece and goes on with another is one sibling. -/
theorem start_leaf {s s' : String} :
    (p.start separator s).leaf separator s' = p.leaf separator (s ++ s') := by
  simp [leaf_eq, start, String.append_assoc]

end Phrase

/-! ## What is inside -/

theorem Walk.spots_ofBytes_eq_nil_iff {t : Tables} {bs : Bytes} {c : Cursor}
    {aligned : Bool} {xs : List Spot}
    (h : spots t false (Outline.ofBytes bs) c aligned = .ok xs) : xs = [] ↔ bs = [] := by
  by_cases hnil : bs = []
  · subst hnil
    rw [Outline.ofBytes_nil] at h
    simp [← Except.ok.inj h]
  · simp only [hnil, iff_false]
    rintro rfl
    cases hread : Node.read bs with
    | error f =>
      rw [Outline.ofBytes_of_fault hnil hread] at h
      cases h
    | ok r =>
      rw [Outline.ofBytes_of_read hread, spots_cons_eq_ok_iff] at h
      obtain ⟨l, c', -, -, ⟨hfalse, -⟩ | ⟨-, later, -, hcons⟩⟩ := h
      · cases hfalse
      · cases hcons

/-- What a walk comes to inside a spot was read like the spot. -/
theorem Scene.inner_of_contents {s : Scene} {x : Spot}
    (hx : x.inner = Outline.ofBytes x.node.nested) {ys : List Spot}
    (hys : s.contents x = .ok ys) :
    ∀ y ∈ ys, y.inner = Outline.ofBytes y.node.nested := by
  intro y hy
  rcases has_of_contents hys hy with ⟨-, hhas⟩ | ⟨id, u, v, fields, -, -, -, hhas⟩
  · exact (hx ▸ hhas).eq_ofBytes
  · exact hhas.eq_ofBytes

namespace Tree

variable {s : Scene} {depth : Nat} {xs : List Spot} {v : Values}

theorem texts_eq_nil_iff (h : Tree s depth xs v) : v.texts = [] ↔ xs = [] := by
  cases h <;> simp [Values.texts]

/-- Of one spot one text is written. -/
theorem texts_eq_singleton {o : Outline} {c : Cursor} {aligned : Bool}
    (hxs : Walk.spots s.tables true o c aligned = .ok xs) (h : Tree s depth xs v) :
    ∃ t, v.texts = [t] := by
  cases o with
  | done | broken f => cases hxs
  | cons node inner rest =>
    obtain ⟨l, c', -, -, ⟨-, rfl⟩ | ⟨hfalse, -⟩⟩ :=
      Walk.spots_cons_eq_ok_iff.1 hxs
    · cases h with
      | cons _ _ _ _ hrest =>
        cases hrest
        exact ⟨_, rfl⟩
    · cases hfalse

/-- What is read of bytes side by side are these bytes. -/
theorem bytes_eq {l : Layout} {n a : Nat}
    (h : Tree s depth ((List.range n).map fun i =>
      ⟨.scalar .u8, .done, [a + i], l⟩) v) : v.bytes = s.mem.bytes a n := by
  induction n generalizing a v with
  | zero =>
    cases h
    rfl
  | succ n ih =>
    rw [List.range_succ_eq_map, List.map_cons, List.map_map] at h
    cases h with
    | cons hhead _ _ _ hrest =>
      obtain ⟨content, -, rfl⟩ := Scene.head_eq_ok_iff.1 hhead
      have hbyte : UInt8.ofNat (Scalar.u8.number s.mem a) = s.mem.byteAt (Word.wrap a) := by
        simp [Scalar.number, Scalar.size, Memory.number, Memory.bytes, Bytes.toNat]
      have hshift : (fun i => Spot.mk (.scalar .u8) .done [a + i] l) ∘ Nat.succ =
          fun i => ⟨.scalar .u8, .done, [a + 1 + i], l⟩ := by
        funext i
        simp only [Function.comp_apply, Nat.succ_eq_add_one]
        rw [Nat.add_right_comm, Nat.add_assoc]
      rw [hshift] at hrest
      simp only [Values.bytes, ValueTree.head, Head.number, List.headD_cons, Nat.add_zero,
        hbyte, ih hrest, Memory.bytes]

end Tree

/-! ## Writing trees -/

namespace ValueText

variable {s : Scene} {depth k : Nat}

/-- Null pointers are written where they are met. -/
theorem passesNull (m : Memory) : (visitor m).PassesNull := by
  intro form bytes c cells p p' henter
  by_contra hcells
  simp only [visitor, enter, Bool.eq_true_of_not_eq_false hcells, if_true, leaf,
    Prod.mk.injEq] at henter
  cases henter.2

/-- A variant is bare if it has no fields. -/
theorem isBare_eq_true_iff {u : Union} {selected : Nat} {fields : Bytes}
    (h : u.variant selected = .ok fields) (more : List Nat) :
    isBare u (selected :: more) = true ↔ fields = [] := by
  unfold Union.variant at h
  split at h
  · rename_i hget
    obtain rfl := Except.ok.inj h
    simp [isBare, hget]
  · cases h

/-- The bytes of a run of bytes are those read inside. -/
theorem bytes_of_inside (ht : s.tables.Verified) {form : RunForm} {plain : Bool}
    {elem : Bytes} {inner : Outline} {a : Nat} {l : Layout}
    (hx : Spot.Sound s.tables ⟨.run form plain elem, inner, [a], l⟩)
    (hread : inner = Outline.ofBytes elem) {span : Span}
    (hspan : Span.resolve s.tables s.mem form plain elem inner [a] = .ok span)
    (hbytes : span.isBytes = true) {ys : List Spot}
    (hys : s.contents ⟨.run form plain elem, inner, [a], l⟩ = .ok ys) {inside : Values}
    (hinside : Tree s depth ys inside) : spanBytes s.mem span = inside.bytes := by
  simp only [Scene.contents, hspan] at hys
  obtain ⟨spacing, e, hspacing, he, rfl⟩ := Span.resolve_one_eq_ok_iff.1 hspan
  obtain rfl : elem = [(Kind.scalar .u8).byte] := by simpa [Span.isBytes] using hbytes
  obtain rfl : inner = .cons (.scalar .u8) .done .done := hread.trans Outline.ofBytes_byte
  have hone : Outline.spacing s.tables (.cons (.scalar .u8) .done .done) =
      .ok ⟨1, 16⟩ :=
    rfl
  obtain rfl := Except.ok.inj (hspacing.symm.trans hone)
  obtain ⟨node, none, layout, hinner, hspots⟩ :=
    ht.elementSpots_of_spacing hx.inner (hx.single rfl) hspacing
  obtain ⟨rfl, rfl, -⟩ := Outline.cons.inj hinner
  rw [Span.elements_one rfl rfl (Span.laneStop_lt he)] at hys
  change Walk.elementSpots s.tables (.cons (.scalar .u8) .done .done) _ = .ok ys at hys
  rw [hspots, List.map_map] at hys
  obtain rfl := Except.ok.inj hys
  simp only [Function.comp_def, Nat.mul_one, Nat.div_one] at hinside
  exact (Tree.bytes_eq hinside).symm

section Spots

variable (ht : s.tables.Verified) {x : Spot} (hx : x.Sound s.tables)
  (hcursor : x.cursor ≠ []) {content : Content}
  (hcontent : s.content x.node x.inner x.cursor = .ok content)

include ht hx hcursor hcontent

/-- What is not gone into is written in one piece. -/
theorem visit_of_leaf {t : String}
    (henter : ∀ p, (visitor s.mem).enter x.node x.cursor content p = leaf t p)
    (p : Phrase) : Walk.visitSpot s (visitor s.mem) k x p = .ok (p.leaf separator t) :=
  (Walk.visitSpot_eq_ok_iff ht (passesNull s.mem) hx hcursor rfl).2
    ⟨content, hcontent, .inl (henter p)⟩

/-- What is gone into is written around what is inside. -/
theorem visit_of_opening (hdepth : ∀ id, x.node = .union id → 0 < k) {ys : List Spot}
    (hys : s.contents x = .ok ys) {texts : List String}
    (hall : ∀ p,
      Walk.visitAll s (visitor s.mem) (x.below k) ys p = .ok (p.siblings separator texts))
    {t : String}
    (henter : ∀ p, (visitor s.mem).enter x.node x.cursor content p = opening t p)
    (p : Phrase) :
    Walk.visitSpot s (visitor s.mem) k x p =
      .ok (leave x.node ((p.start separator t).siblings separator texts)) :=
  (Walk.visitSpot_eq_ok_iff ht (passesNull s.mem) hx hcursor rfl).2
    ⟨content, hcontent, .inr ⟨_, henter p, hdepth, ys, _, hys, hall _, rfl⟩⟩

end Spots

/-- Where what is inside a spot is written as siblings, the spot is written as one. -/
theorem visit_of_inside (ht : s.tables.Verified) {x : Spot} (hx : x.Sound s.tables)
    (hlane : x.Twin x) (hread : x.inner = Outline.ofBytes x.node.nested) {h : Head}
    (hh : s.head x = .ok h) (hdepth : ∀ id, x.node = .union id → 0 < k) {ys : List Spot}
    (hys : s.contents x = .ok ys) {inside : Values} (hinside : Tree s depth ys inside)
    (hall : ∀ p, Walk.visitAll s (visitor s.mem) (x.below k) ys p =
      .ok (p.siblings separator inside.texts))
    (p : Phrase) :
    Walk.visitSpot s (visitor s.mem) k x p =
        .ok (p.leaf separator (h.text inside.bytes inside.texts)) := by
  obtain ⟨content, hcontent, rfl⟩ := Scene.head_eq_ok_iff.1 hh
  obtain ⟨a, hcursor⟩ := hlane.left
  have hne : x.cursor ≠ [] := by simp [hcursor]
  have hleaf {t : String} := visit_of_leaf (k := k) ht hx hne hcontent (t := t)
  have hopening {t : String} := visit_of_opening ht hx hne hcontent hdepth hys hall (t := t)
  obtain ⟨node, inner, c, l⟩ := x
  obtain rfl := hcursor
  cases node with
  | scalar n => exact hleaf (fun p => rfl) p
  | handle n => exact hleaf (fun p => rfl) p
  | record fields =>
    rw [hopening (fun p => rfl)]
    exact congrArg Except.ok Phrase.group
  | resource id fields =>
    obtain rfl : inner = Outline.ofBytes fields := hread
    have hempty : inside.texts = [] ↔ fields = [] :=
      hinside.texts_eq_nil_iff.trans (Walk.spots_ofBytes_eq_nil_iff hys)
    by_cases hfields : fields = []
    · rw [hleaf (t := "res") (fun p => by simp [visitor, enter, hfields])]
      simp [ValueTree.head, Head.text, hempty.2 hfields]
    · rw [hopening (t := "res(") (fun p => by simp [visitor, enter, hfields])]
      simp only [ValueTree.head, Head.text, List.isEmpty_iff, mt hempty.1 hfields, if_false]
      exact congrArg Except.ok Phrase.group
  | union id =>
    obtain ⟨u, hu, rfl⟩ := Scene.content_union_eq_ok_iff.1 hcontent
    simp only [Scene.discriminants_eq_map, List.map_cons,
      List.map_nil] at hleaf hopening ⊢
    simp only [Scene.contents, Scene.inside, hu, Scene.discriminants_eq_map,
      List.map_cons, List.map_nil] at hys
    obtain ⟨u', fields, hu', hfields, hspots⟩ := Scene.variantSpots_eq_ok hys
    obtain rfl := Except.ok.inj (hu.symm.trans hu')
    have hempty : inside.texts = [] ↔ fields = [] :=
      hinside.texts_eq_nil_iff.trans (Walk.spots_ofBytes_eq_nil_iff hspots)
    have hbare := isBare_eq_true_iff hfields []
    by_cases hnone : fields = []
    · rw [hleaf (t := "") (fun p => by simp only [visitor, enter, hbare.2 hnone, if_true])]
      simp [ValueTree.head, Head.text, hempty.2 hnone]
    · rw [hopening (t := "(") (fun p =>
        by simp only [visitor, enter, mt hbare.1 hnone, Bool.false_eq_true, if_false])]
      simp only [ValueTree.head, Head.text, List.isEmpty_iff, mt hempty.1 hnone, if_false]
      exact congrArg Except.ok Phrase.group
  | run form plain elem =>
    obtain ⟨span, hspan, rfl⟩ := Scene.content_run_eq_ok_iff.1 hcontent
    by_cases hbytes : span.isBytes = true
    · rw [hleaf (fun p => by simp only [visitor, enter, hbytes, if_true]; rfl)]
      simp only [ValueTree.head, Head.text, hbytes, if_true]
      rw [bytes_of_inside ht hx hread hspan hbytes hys hinside]
    · rw [hopening (t := "[") (fun p =>
        by simp only [visitor, enter, hbytes, Bool.false_eq_true, if_false])]
      simp only [ValueTree.head, Head.text, hbytes, Bool.false_eq_true, if_false]
      exact congrArg Except.ok Phrase.group
  | pointer form bytes =>
    obtain rfl := Except.ok.inj hcontent
    by_cases hnull : ([a].map s.mem.word).contains 0 = true
    · rw [hleaf (t := form.sigil ++ "(null)") (fun p =>
        by simp only [visitor, enter, hnull, if_true])]
      simp only [ValueTree.head, Head.text, hnull, if_true]
    · -- What a pointer points at is one sibling.
      obtain ⟨text, htext⟩ : ∃ t, inside.texts = [t] := by
        simp only [Scene.contents, hnull, Bool.false_eq_true, if_false] at hys
        split at hys
        · cases hys
        · exact Tree.texts_eq_singleton hys hinside
      rw [hopening (t := form.sigil) (fun p =>
        by simp only [visitor, enter, hnull, Bool.false_eq_true, if_false])]
      simp only [ValueTree.head, Head.text, hnull, Bool.false_eq_true, if_false, htext,
        String.intercalate_singleton]
      exact congrArg Except.ok Phrase.start_leaf

end ValueText

/-- Writing spots whose trees are read writes the texts of the trees as siblings. -/
theorem Tree.visitAll_text {s : Scene} {depth k : Nat} {xs : List Spot} {v : Values}
    (ht : s.tables.Verified) (hv : Tree s depth xs v)
    (hxs : ∀ x ∈ xs, x.Sound s.tables ∧ x.Twin x ∧
      x.inner = Outline.ofBytes x.node.nested)
    (hk : depth ≤ k) (p : Phrase) :
    Walk.visitAll s (ValueText.visitor s.mem) k xs p =
        .ok (p.siblings ValueText.separator v.texts) := by
  induction hv generalizing k p with
  | nil => rfl
  | @cons depth x xs ys h inside rest hh hdepth hcontents hinside _ ihinside ihrest =>
    obtain ⟨hx, hlane, hread⟩ := hxs x List.mem_cons_self
    have hall :=
      ihinside (fun y hy => ⟨hx.contents ht.sound hcontents y hy,
        hlane.contents ht hx hh hcontents y hy,
        Scene.inner_of_contents hread hcontents y hy⟩) (x.below_mono hk)
    have hvisit := ValueText.visit_of_inside ht hx hlane hread hh
      (fun id hid => Nat.lt_of_lt_of_le (hdepth id hid) hk) hcontents hinside hall p
    simp only [Walk.visitAll, hvisit, ihrest (fun y hy =>
      hxs y (List.mem_cons_of_mem x hy)) hk, Values.texts, Phrase.siblings_cons]

namespace Descriptor

/-- Where a value is read as a tree, writing it comes to an end and gives the
text of the tree. -/
theorem render_eq_text {d : Descriptor} (hverify : d.verify = .ok ()) (m : Memory)
    {p depth : Nat} {v : Values}
    (hv : Scene.value ⟨d.tables, m⟩ depth (Outline.ofBytes d.shape) p = .ok v) {k : Nat}
    (hk : depth ≤ k) :
    Scene.render ⟨d.tables, m⟩ k (Outline.ofBytes d.shape) p = .ok v.text := by
  have hd := verified_of_verify hverify
  obtain ⟨xs, hxs, htree⟩ := Tree.of_value hd.tables hd.root hv
  obtain ⟨htwins, -⟩ := Walk.twins_of_spots hxs hxs
  have hall :=
    Tree.visitAll_text hd.tables htree
      (fun x hx => ⟨hd.root.spot (Walk.has_of_spots hxs x hx), htwins.self x hx,
        (Walk.has_of_spots hxs x hx).eq_ofBytes⟩) hk .empty
  have hrun : Walk.run ⟨d.tables, m⟩ (ValueText.visitor m) k
      (Outline.ofBytes d.shape) [p] .empty =
      .ok (Phrase.empty.siblings ValueText.separator v.texts) :=
        Walk.range_eq_ok_iff.2 ⟨xs, hxs, hall⟩
  have htext : (Phrase.empty.siblings ValueText.separator v.texts).text = v.text := by
    rw [Phrase.empty, Phrase.siblings_text, String.empty_append]
    rfl
  rw [Scene.render, hrun, ← htext]
  rfl

/-- A number, perhaps another one, two pointers, a string, and a resource without fields. -/
def sampler : Descriptor where
  shape := Kind.record.byte :: 29 :: 0 :: (Emit.scalar .u8 ++ Emit.union 0 ++
    Kind.uniq.byte :: 1 :: 0 :: Emit.scalar .u8 ++
    Kind.borrow.byte :: 7 :: 0 :: Kind.record.byte :: 4 :: 0 ::
      (Emit.scalar .u8 ++ Emit.union 0) ++
    Kind.slice.byte :: 1 :: 1 :: 1 :: 0 :: Emit.scalar .u8 ++
      Kind.resource.byte :: 0 :: 0 :: 0 :: 0 :: [])
  tables := ⟨#[⟨#[[], Emit.scalar .u8], [1]⟩], #[0]⟩

/-- No other number, a null pointer, a pointer to 7 and 9, and three characters
before a terminator. -/
def samplerMemory : Memory :=
  Memory.zero.write 0 #[5, 0, 0, 0, 0, 0, 0, 0, 0, 0, 0, 0, 0, 0, 0,
    0, 0, 0, 0, 0, 0, 0, 0, 0,
    0, 0, 0, 0, 0, 0, 0, 0, 64, 0, 0, 0, 0, 0, 0, 0, 96, 0, 0, 0, 0, 0, 0,
    0, 4, 0, 0, 0, 0, 0, 0, 0,
    0, 0, 0, 0, 0, 0, 0, 0, 7, 0, 0, 0, 0, 0, 0, 0, 1, 0, 0, 0, 0, 0, 0,
    0, 9, 0, 0, 0, 0, 0, 0, 0,
    0, 0, 0, 0, 0, 0, 0, 0, 104, 105, 10, 0]

/-- The tree of the value. -/
def samplerTree : Values :=
  let byte (n : Nat) (rest : Values) : Values := .cons (.scalar .u8 n) .nil rest
  let pair := Values.cons .record (byte 7 (.cons (.union 1) (byte 9 .nil) .nil)) .nil
  .cons .record
    (byte 5 (.cons (.union 0) .nil (.cons (.null .uniq) .nil (.cons (.pointer .borrow) pair
    (.cons (.run true 3) (byte 104 (byte 105 (byte 10 .nil)))
      (.cons .resource .nil .nil)))))) .nil

theorem render_eq_text_sampler : sampler.verify = .ok () ∧
    Scene.value ⟨sampler.tables, samplerMemory⟩ 1 (Outline.ofBytes sampler.shape) 0 =
      .ok samplerTree ∧
    ∀ k, 1 ≤ k →
      Scene.render ⟨sampler.tables, samplerMemory⟩ k (Outline.ofBytes sampler.shape) 0 =
      .ok "(5, , ~(null), &(7, (9)), \"hi\\n\", res)" := by
  have hverify : sampler.verify = .ok () := by decide +kernel
  have hvalue : Scene.value ⟨sampler.tables, samplerMemory⟩ 1
      (Outline.ofBytes sampler.shape) 0 = .ok samplerTree := by
    decide +kernel
  have htext : samplerTree.text = "(5, , ~(null), &(7, (9)), \"hi\\n\", res)" := by
    decide +kernel
  refine ⟨hverify, hvalue, fun k hk => ?_⟩
  exact htext ▸ render_eq_text hverify samplerMemory hvalue hk

end Descriptor

end ShapeCode
