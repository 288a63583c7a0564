import ShapeCode.Proofs.Grammar
import ShapeCode.Proofs.ProperLayout
import ShapeCode.Proofs.TreeText
import ShapeCode.ShapeText

set_option autoImplicit false

/-!
# The text of a range

Writing a range owes commas as it goes, one account for all depths.  A printer without
one puts the text of a node together from the texts of what is inside, joined by commas
(`Outline.texts`).  For every well-formed range the two agree, since a group that is
closed is one sibling again (`Phrase.group`), whether or not it holds any.

Before the element of a run is written it is measured, and this is all that can keep a
text from being written (`ShapeText.range_eq_ok_iff`).  Where no union holds itself,
only an overflow does.
-/

namespace ShapeCode

/-! ## Printing nodes -/

/-- The text of a node, from the texts of the nodes inside it. -/
def Node.text (t : Tables) (node : Node) (inside : List String) : String :=
  let joined := ",".intercalate inside
  match node with
  | .scalar s => s.name
  | .handle h => h.name
  | .union id => s!"tag{id.toNat}"
  | .record _ => "(" ++ joined ++ ")"
  | .run .vec _ _ => "vec<" ++ joined ++ ">"
  | .run .unboxedVec _ _ => "unboxed_vec<" ++ joined ++ ">"
  | .run (.slice _) _ _ => "slice<" ++ joined ++ ">"
  | .run (.fixedVec count) _ _ => s!"fixedvec<{count.toNat}, " ++ joined ++ ">"
  | .pointer form _ => form.sigil ++ "<" ++ joined ++ ">"
  | .resource id _ =>
    let name := "res@0x" ++ Numeral.hex (t.resources.getD id.toNat 0).toNat
    if inside = [] then name else name ++ "(" ++ joined ++ ")"

/-- Whether the node is a run of elements. -/
def Node.isRun : Node → Bool
  | .run _ _ _ => true
  | _ => false

namespace Outline

/-- The text of each node of a range. -/
def texts (t : Tables) : Outline → List String
  | .done | .broken _ => []
  | .cons node inner rest => node.text t (inner.texts t) :: rest.texts t

/-- A run in the range, at any depth, has elements of the given outline. -/
def HoldsRun : Outline → Outline → Prop
  | .done, _ | .broken _, _ => False
  | .cons node inner rest, elem =>
    (node.isRun = true ∧ inner = elem) ∨ inner.HoldsRun elem ∨ rest.HoldsRun elem

/-- The elements of every run in the range can be spaced. -/
def RunsSpaced (t : Tables) (o : Outline) : Prop :=
  ∀ elem, o.HoldsRun elem → ∃ spacing, elem.spacing t = .ok spacing

variable {t : Tables}

theorem length_texts (o : Outline) : (o.texts t).length = o.length := by
  induction o with
  | done | broken => rfl
  | cons node inner rest _ ih => rw [texts, length, List.length_cons, ih]

theorem runsSpaced_cons {node : Node} {inner rest : Outline} :
    (Outline.cons node inner rest).RunsSpaced t ↔
      (node.isRun = true → ∃ spacing, inner.spacing t = .ok spacing) ∧
      inner.RunsSpaced t ∧ rest.RunsSpaced t := by
  constructor
  · intro h
    exact ⟨fun hrun => h inner (.inl ⟨hrun, rfl⟩),
      fun elem helem => h elem (.inr (.inl helem)),
      fun elem helem => h elem (.inr (.inr helem))⟩
  · rintro ⟨hown, hinner, hrest⟩ elem (⟨hrun, rfl⟩ | helem | helem)
    · exact hown hrun
    · exact hinner elem helem
    · exact hrest elem helem

/-- What a sound range holds is sound. -/
theorem Sound.of_holdsRun {o elem : Outline} (ho : o.Sound t)
    (h : o.HoldsRun elem) : elem.Sound t := by
  induction o with
  | done | broken => exact False.elim h
  | cons node inner rest ihi ihr =>
    obtain ⟨-, -, hinner, hrest⟩ := ho
    rcases h with ⟨-, rfl⟩ | h | h
    · exact hinner
    · exact ihi hinner h
    · exact ihr hrest h

/-- The nested outline of every node, at any depth, is that of its nested bytes. -/
def FromBytes : Outline → Prop
  | .done | .broken _ => True
  | .cons node inner rest =>
    inner = ofBytes node.nested ∧ inner.FromBytes ∧ rest.FromBytes

theorem fromBytes_ofBytes (bs : Bytes) : (ofBytes bs).FromBytes := by
  generalize hlen : bs.length = n
  induction n using Nat.strong_induction_on generalizing bs with
  | _ n ih =>
    by_cases hnil : bs = []
    · subst hnil
      rw [ofBytes_nil]
      trivial
    · cases hread : Node.read bs with
      | error f =>
        rw [ofBytes_of_fault hnil hread]
        trivial
      | ok r =>
        have hlt := Node.length_read hread
        rw [ofBytes_of_read hread]
        exact ⟨rfl, ih _ (by omega) r.1.nested rfl, ih _ (by omega) r.2 rfl⟩

/-- Of bytes that do not break off, no text is written only if there are none. -/
theorem texts_ofBytes_eq_nil_iff {bs : Bytes} (h : (ofBytes bs).Sound t) :
    (ofBytes bs).texts t = [] ↔ bs = [] := by
  by_cases hnil : bs = []
  · subst hnil
    simp [texts]
  · cases hread : Node.read bs with
    | error f =>
      rw [ofBytes_of_fault hnil hread] at h
      exact False.elim h
    | ok r =>
      rw [ofBytes_of_read hread]
      simp [texts, hnil]

end Outline

/-! ## Writing ranges -/

namespace ShapeText

variable {t : Tables}

theorem close_eq_ok_iff {s : String} {r : Except Fault Phrase} {q : Phrase} :
    close s r = .ok q ↔ ∃ p, r = .ok p ∧ q = p.finish s := by
  cases r with
  | error f => simp [close]
  | ok p => simp [close, eq_comm]

/-- Writes a node and what is inside. -/
def written (t : Tables) (inner : Outline) (p : Phrase) : Node → Except Fault Phrase
  | .scalar s => .ok (p.leaf separator s.name)
  | .handle h => .ok (p.leaf separator h.name)
  | .union id => .ok (p.leaf separator s!"tag{id.toNat}")
  | .record _ => close ")" (range t false inner (p.start separator "("))
  | .run form _ _ =>
    match inner.spacing t with
    | .error f => .error f
    | .ok _ => close ">" (range t true inner (p.start separator (openRun form)))
  | .pointer form _ =>
    close ">" (range t true inner (p.start separator (form.sigil ++ "<")))
  | .resource id fields =>
    match t.resource id with
    | .error f => .error f
    | .ok handle =>
      if fields.isEmpty then .ok (p.leaf separator (resourceName handle))
      else close ")" (range t false inner (p.start separator (resourceName handle ++ "(")))

theorem range_cons {single : Bool} {node : Node} {inner rest : Outline} {p : Phrase} :
    range t single (.cons node inner rest) p =
      match written t inner p node with
      | .error f => .error f
      | .ok p => if single then .ok p else range t false rest p := by
  cases node <;> rfl

/-- A group is written around the nodes inside it, joined. -/
theorem close_siblings {opening closing : String} {p q : Phrase} {measured : Prop}
    {r : Except Fault Phrase} {texts : List String}
    (h : ∀ q, r = .ok q ↔
      measured ∧ q = (p.start separator opening).siblings separator texts) :
    close closing r = .ok q ↔
      measured ∧
      q = p.leaf separator (opening ++ separator.intercalate texts ++ closing) := by
  rw [close_eq_ok_iff, ← Phrase.group]
  constructor
  · rintro ⟨p', hp', rfl⟩
    obtain ⟨hmeasured, rfl⟩ := (h p').1 hp'
    exact ⟨hmeasured, rfl⟩
  · rintro ⟨hmeasured, rfl⟩
    exact ⟨_, (h _).2 ⟨hmeasured, rfl⟩, rfl⟩

/-- A node is written as one sibling, if its elements can be spaced and what is inside
can be written. -/
theorem written_eq_ok_iff {node : Node} {inner : Outline} (hids : node.IdsIn t)
    (hone : node.holdsOne = true → inner.length = 1)
    (hread : inner = Outline.ofBytes node.nested) (hsound : inner.Sound t)
    (hinner : ∀ single, (single = true → inner.length = 1) → ∀ p q,
      range t single inner p = .ok q ↔
        inner.RunsSpaced t ∧ q = p.siblings separator (inner.texts t))
    (p q : Phrase) :
    written t inner p node = .ok q ↔
      ((node.isRun = true → ∃ spacing, inner.spacing t = .ok spacing) ∧
        inner.RunsSpaced t) ∧
        q = p.leaf separator (node.text t (inner.texts t)) := by
  have hfields := hinner false nofun
  cases node with
  | scalar | handle | union =>
    obtain rfl : inner = .done := hread.trans Outline.ofBytes_nil
    simp [written, Node.isRun, Node.text, Outline.RunsSpaced, Outline.HoldsRun, eq_comm]
  | record fields =>
    rw [written, close_siblings fun q => hfields _ q]
    simp [Node.isRun, Node.text, separator]
  | pointer form bytes =>
    rw [written, close_siblings fun q => hinner true (fun _ => hone rfl) _ q]
    simp [Node.isRun, Node.text, separator]
  | run form plain elem =>
    simp only [written]
    cases hspacing : inner.spacing t with
    | error f => simp [Node.isRun]
    | ok spacing =>
      simp only
      rw [close_siblings fun q => hinner true (fun _ => hone rfl) _ q]
      cases form <;> simp [Node.isRun, Node.text, separator, openRun]
  | resource id fields =>
    obtain rfl : inner = Outline.ofBytes fields := hread
    have hlt : id.toNat < t.resources.size := hids
    have hnone : (Outline.ofBytes fields).texts t = [] ↔ fields = [] :=
      Outline.texts_ofBytes_eq_nil_iff hsound
    have hname : "res@0x" ++ Numeral.hex (t.resources.getD id.toNat 0).toNat =
        resourceName t.resources[id.toNat] := by
      simp [resourceName, hlt]
    simp only [written, Tables.resource_of_lt hlt, Node.text, hname,
      hnone, List.isEmpty_iff]
    by_cases hnil : fields = []
    · simp [hnil, Node.isRun, Outline.RunsSpaced, Outline.HoldsRun, eq_comm]
    · rw [if_neg hnil, if_neg hnil, close_siblings fun q => hfields _ q]
      simp [Node.isRun, separator]

/-- A range is written as the texts of its nodes, if the elements of every run in
it can be spaced. -/
theorem range_eq_ok_iff {o : Outline} (ho : o.Sound t) (hread : o.FromBytes) (single : Bool)
    (hone : single = true → o.length = 1) (p q : Phrase) :
    range t single o p = .ok q ↔
      o.RunsSpaced t ∧ q = p.siblings separator (o.texts t) := by
  induction o generalizing single p q with
  | done =>
    cases single with
    | true => cases hone rfl
    | false =>
      simp [range, Outline.RunsSpaced, Outline.HoldsRun, Outline.texts,
        Phrase.siblings_nil, eq_comm]
  | broken f => exact False.elim ho
  | cons node inner rest ihi ihr =>
    obtain ⟨hids, hholds, hinner, hrest⟩ := ho
    obtain ⟨hnested, hreadInner, hreadRest⟩ := hread
    have hnode := written_eq_ok_iff hids hholds hnested hinner (ihi hinner hreadInner) p
    rw [range_cons, Outline.runsSpaced_cons, Outline.texts, Phrase.siblings_cons]
    cases hwritten : written t inner p node with
    | error f =>
      have hunspaced : ¬ ((node.isRun = true →
          ∃ spacing, inner.spacing t = .ok spacing) ∧ inner.RunsSpaced t) := by
        intro hspaced
        cases hwritten.symm.trans ((hnode _).2 ⟨hspaced, rfl⟩)
      simp only [reduceCtorEq, false_iff]
      rintro ⟨⟨hown, hinside, -⟩, -⟩
      exact hunspaced ⟨hown, hinside⟩
    | ok p' =>
      obtain ⟨⟨hown, hinside⟩, rfl⟩ := (hnode p').1 hwritten
      cases single with
      | true =>
        -- A single node is all there is.
        have hsound : (Outline.cons node inner rest).Sound t :=
          ⟨hids, hholds, hinner, hrest⟩
        obtain ⟨_, _, hcons⟩ := hsound.eq_single (hone rfl)
        obtain ⟨-, -, rfl⟩ := Outline.cons.inj hcons
        have hdone : Outline.done.RunsSpaced t := fun elem helem => False.elim helem
        simp only [if_true, Except.ok.injEq, Outline.texts, Phrase.siblings_nil,
          hinside, hdone, and_true]
        exact ⟨fun h => ⟨hown, h.symm⟩, fun h => h.2.symm⟩
      | false =>
        simp only [Bool.false_eq_true, if_false,
          ihr hrest hreadRest false nofun, hinside, true_and]
        exact ⟨fun h => ⟨⟨hown, h.1⟩, h.2⟩, fun h => ⟨h.1.2, h.2⟩⟩

end ShapeText

namespace Outline

/-- A sound range is written as the texts of its nodes joined by commas, if the elements
of every run in it can be spaced. -/
theorem text_eq_ok_iff {t : Tables} {bs : Bytes} {s : String}
    (hsound : (ofBytes bs).Sound t) :
    (ofBytes bs).text t = .ok s ↔
      (ofBytes bs).RunsSpaced t ∧ s = ",".intercalate ((ofBytes bs).texts t) := by
  have hrange := ShapeText.range_eq_ok_iff hsound (fromBytes_ofBytes bs) false nofun .empty
  have hjoined : (Phrase.empty.siblings ShapeText.separator ((ofBytes bs).texts t)).text =
      ",".intercalate ((ofBytes bs).texts t) := by
    rw [Phrase.empty, Phrase.siblings_text, String.empty_append, ShapeText.separator]
  unfold text
  cases hwritten : ShapeText.range t false (ofBytes bs) .empty with
  | error f =>
    simp only [reduceCtorEq, false_iff]
    rintro ⟨hspaced, -⟩
    cases hwritten.symm.trans ((hrange _).2 ⟨hspaced, rfl⟩)
  | ok p =>
    obtain ⟨hspaced, rfl⟩ := (hrange p).1 hwritten
    simp only [Except.ok.injEq, hjoined, hspaced, true_and, eq_comm]

/-- A well-formed range is written as the texts of its nodes joined by commas, one text
a node, exactly if the elements of every run in it can be spaced; over verified tables,
where no union holds itself, that is if none of their layouts overflows. -/
theorem text_eq_joined {t : Tables} {n : Nat} {bs : Bytes} (hbs : WellFormed t n bs) :
    ((ofBytes bs).texts t).length = n ∧
    (∀ s, (ofBytes bs).text t = .ok s ↔
      (ofBytes bs).RunsSpaced t ∧ s = ",".intercalate ((ofBytes bs).texts t)) ∧
    (t.Verified → (∀ elem f, (ofBytes bs).HoldsRun elem →
        elem.layout t = .error f → ¬ f.Overflow) →
      (ofBytes bs).text t = .ok (",".intercalate ((ofBytes bs).texts t))) := by
  obtain ⟨hsound, hlength⟩ :=
    Verify.sound_of_range (@Verify.range_of_wellFormed t 0 0 bs n hbs)
  refine ⟨?_, fun s => text_eq_ok_iff hsound,
    fun ht hroom => (text_eq_ok_iff hsound).2 ⟨fun elem helem => ?_, rfl⟩⟩
  · rw [length_texts]
    omega
  · rcases (ht.spacing_yields (hsound.of_holdsRun helem)).cases
      with ⟨f, -, hover, hf⟩ | ⟨spacing, hspacing, -⟩
    · exact absurd hover (hroom elem f helem hf)
    · exact ⟨spacing, hspacing⟩

/-- Two nodes: a record of a vector of records, a string and a resource without fields,
and a resource around two numbers in a fixed vector. -/
def assorted : Bytes :=
  Kind.record.byte :: 25 :: 0 ::
    (Kind.vec.byte :: 0 :: 7 :: 0 ::
      (Kind.record.byte :: 4 :: 0 :: (Emit.scalar .u8 ++ Emit.union 0)) ++
    Kind.borrow.byte :: 6 :: 0 ::
      (Kind.slice.byte :: 1 :: 1 :: 1 :: 0 :: Emit.scalar .u8) ++
    Kind.resource.byte :: 0 :: 0 :: 0 :: 0 :: []) ++
  Kind.resource.byte :: 1 :: 0 :: 7 :: 0 ::
    (Kind.fixedVec.byte :: 2 :: 0 :: 1 :: 1 :: 0 :: Emit.scalar .i32)

/-- A union of nothing or a number, and two resources. -/
def assortedTables : Tables := ⟨#[⟨#[[], Emit.scalar .i64], [1]⟩], #[0xbeef, 0]⟩

theorem text_eq_joined_assorted :
    WellFormed assortedTables 2 assorted ∧
    (ofBytes assorted).RunsSpaced assortedTables ∧
    (ofBytes assorted).text assortedTables =
      .ok "(vec<(u8,tag0)>,&<slice<u8>>,res@0xbeef),res@0x0(fixedvec<2, i32>)" := by
  have haccepted : Verify.range assortedTables assorted 0 0 = .ok 2 := by decide +kernel
  have hbs : WellFormed assortedTables 2 assorted := Verify.range_eq_ok_iff.1 haccepted
  have htext : (ofBytes assorted).text assortedTables =
      .ok "(vec<(u8,tag0)>,&<slice<u8>>,res@0xbeef),res@0x0(fixedvec<2, i32>)" :=
        by decide +kernel
  obtain ⟨-, hjoined, -⟩ := text_eq_joined hbs
  exact ⟨hbs, ((hjoined _).1 htext).1, htext⟩

end Outline

end ShapeCode
