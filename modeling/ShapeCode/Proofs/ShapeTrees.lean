import ShapeCode.Draft
import ShapeCode.Proofs.Grammar

set_option autoImplicit false

/-!
# Trees of shape bytecode

A shape is a tree: a leaf, or a node with the list of trees that its nested range holds
(`Shape`).  Trees are written to a draft by one step each, the contents of a node by the
steps that are passed to its own.  However deep the steps go, what a draft held before
stays in front of what they append, so the placeholder of a length is found again where
it was put (`Draft.nested_of_contents`).  Trees are written as `Shape.code` says, with
every length in its place, unless the code of some contents does not fit its length
(`Shape.written_or_too_long`).

Reading takes nodes off the front until nothing is left, and does the same with each
nested range.  It finds the trees that were written (`Shape.read_code`), and the grammar
has the code if the tables have its ids and what stands for one value is one tree
(`Shape.wellFormed_code`).
-/

namespace ShapeCode

/-! ## Drafts -/

namespace Draft

theorem ext_finish {draft draft' : Draft}
    (h : draft.finish = draft'.finish) : draft = draft' := by
  cases draft
  cases draft'
  exact congrArg Draft.mk (Array.toList_inj.1 h)

@[simp] theorem finish_append (draft : Draft) (bs : Bytes) :
    (draft.append bs).finish = draft.finish ++ bs :=
  Array.toList_appendList

theorem append_nil (draft : Draft) : draft.append [] = draft := ext_finish (by simp)

theorem append_append (draft : Draft) (bs bs' : Bytes) :
    (draft.append bs).append bs' = draft.append (bs ++ bs') :=
  ext_finish (by simp)

/-- Bytes are put in the place of as many others, and the rest stays. -/
theorem finish_overwrite {pre old post bs : Bytes} {draft : Draft}
    (hlength : bs.length = old.length) (h : draft.finish = pre ++ (old ++ post)) :
    (draft.overwrite pre.length bs).finish = pre ++ (bs ++ post) := by
  induction bs generalizing pre old draft with
  | nil =>
    rw [List.eq_nil_of_length_eq_zero hlength.symm] at h
    exact h
  | cons b rest ih =>
    cases old with
    | nil => cases hlength
    | cons c old =>
      have hset : (⟨draft.bytes.setIfInBounds pre.length b⟩ : Draft).finish =
          (pre ++ [b]) ++ (old ++ post) :=
        calc (draft.bytes.setIfInBounds pre.length b).toList
            = draft.finish.set pre.length b := Array.toList_setIfInBounds
          _ = (pre ++ (c :: old ++ post)).set pre.length b := by rw [h]
          _ = (pre ++ [b]) ++ (old ++ post) := by simp
      have hrest := ih (Nat.succ.inj hlength) hset
      rw [List.length_append] at hrest
      simpa [overwrite] using hrest

theorem size_bytes (draft : Draft) : draft.bytes.size = draft.finish.length :=
  Array.length_toList.symm

/-- A nested range is written behind its length if its contents are appended, whatever
the draft held before. -/
theorem nested_of_contents {head inner : Bytes} {contents : Step} {draft : Draft}
    (h : contents ((draft.append head).append placeholder) =
      .ok (((draft.append head).append placeholder).append inner)) :
    nested head contents draft =
      match Emit.nested head inner with
      | .error f => .error f
      | .ok bs => .ok (draft.append bs) := by
  have hplace : draft.bytes.size + head.length = (draft.finish ++ head).length := by
    rw [size_bytes, List.length_append]
  have hlength : (((draft.append head).append placeholder).append inner).bytes.size -
      (draft.bytes.size + head.length) - placeholder.length = inner.length := by
    rw [size_bytes, hplace]
    simp only [finish_append, List.length_append]
    omega
  simp only [nested, h, close, hlength, Emit.nested]
  by_cases hfits : inner.length < 65536
  · have hword : Emit.u16 (UInt16.ofNat inner.length) = Bytes.ofNat 2 inner.length := by
      unfold Emit.u16
      rw [UInt16.toNat_ofNat_of_lt' hfits]
    have hopen : (((draft.append head).append placeholder).append inner).finish =
        (draft.finish ++ head) ++ (placeholder ++ inner) := by simp
    have hwidth : (Bytes.ofNat 2 inner.length).length = placeholder.length := by
      simp [placeholder, Emit.u16]
    have hclosed := finish_overwrite hwidth hopen
    simp only [hfits, if_true, hplace, hword]
    refine congrArg Except.ok (ext_finish ?_)
    rw [hclosed]
    simp
  · simp only [hfits, if_false]

end Draft

/-! ## Trees -/

/-- A node that holds nothing. -/
inductive Leaf where
  | scalar (s : Scalar)
  | union (id : UInt16)
  | handle (h : Handle)
  deriving DecidableEq, Repr, Inhabited

/-- What a node is besides what it holds. -/
inductive Stem where
  | record
  | run (form : RunForm) (plain : Bool)
  | pointer (form : PointerForm)
  | resource (id : UInt16)
  deriving DecidableEq, Repr, Inhabited

/-- A shape as a tree. -/
inductive Shape where
  | leaf (leaf : Leaf)
  | nest (stem : Stem) (contents : List Shape)
  deriving Repr, Inhabited

/-- Lists of trees by what their first tree is. -/
@[elab_as_elim]
theorem Shape.forest_induction {motive : List Shape → Prop} (nil : motive [])
    (leaf : ∀ l rest, motive rest → motive (.leaf l :: rest))
    (nest : ∀ stem contents rest, motive contents → motive rest →
      motive (.nest stem contents :: rest))
    (trees : List Shape) : motive trees :=
  @Shape.rec_1 (fun tree => ∀ rest, motive rest → motive (tree :: rest)) motive leaf
    (fun stem contents hcontents rest hrest => nest stem contents rest hcontents hrest) nil
    (fun _ rest htree hrest => htree rest hrest) trees

namespace Leaf

/-- The step that writes a leaf. -/
def step : Leaf → Draft.Step
  | .scalar s => Draft.scalar s
  | .union id => Draft.union id
  | .handle h => Draft.handle h

/-- The kind of a leaf. -/
def kind : Leaf → Kind
  | .scalar s => .scalar s
  | .union _ => .union
  | .handle h => Emit.handleKind h

/-- What stands behind the kind of a leaf. -/
def operands : Leaf → Bytes
  | .scalar _ | .handle _ => []
  | .union id => Emit.u16 id

/-- A leaf as a node. -/
def node : Leaf → Node
  | .scalar s => .scalar s
  | .union id => .union id
  | .handle h => .handle h

end Leaf

namespace Stem

/-- The step that writes a node with the given contents. -/
def step (contents : Draft.Step) : Stem → Draft.Step
  | .record => Draft.record contents
  | .run form plain => Draft.run form plain contents
  | .pointer form => Draft.pointer form contents
  | .resource id => Draft.resource id contents

/-- The kind of a node. -/
def kind : Stem → Kind
  | .record => .record
  | .run .vec _ => .vec
  | .run .unboxedVec _ => .unboxedVec
  | .run (.slice _) _ => .slice
  | .run (.fixedVec _) _ => .fixedVec
  | .pointer form => Emit.pointerKind form
  | .resource _ => .resource

/-- What stands between the kind of a node and the length of its nested range. -/
def operands : Stem → Bytes
  | .record | .pointer _ => []
  | .run .vec plain | .run .unboxedVec plain => Emit.flag plain
  | .run (.slice isStr) plain => Emit.flag plain ++ Emit.flag isStr
  | .run (.fixedVec count) plain => Emit.u16 count ++ Emit.flag plain
  | .resource id => Emit.u16 id

/-- A node with the given nested range. -/
def node (inner : Bytes) : Stem → Node
  | .record => .record inner
  | .run form plain => .run form plain inner
  | .pointer form => .pointer form inner
  | .resource id => .resource id inner

end Stem

namespace Shape

mutual

/-- The step that writes a tree. -/
def step : Shape → Draft.Step
  | .leaf l => l.step
  | .nest stem contents => stem.step (Draft.sequence (steps contents))

/-- The steps that write trees. -/
def steps : List Shape → List Draft.Step
  | [] => []
  | tree :: rest => step tree :: steps rest

end

mutual

/-- The bytes of a tree, whatever their number. -/
def codeOne : Shape → Bytes
  | .leaf l => l.kind.byte :: l.operands
  | .nest stem contents =>
    stem.kind.byte :: stem.operands ++ Bytes.ofNat 2 (code contents).length ++ code contents

/-- The bytes of trees, whatever their number. -/
def code : List Shape → Bytes
  | [] => []
  | tree :: rest => codeOne tree ++ code rest

end

/-- Trees that some node of `trees` holds, at any depth. -/
inductive Nested (contents : List Shape) : (trees : List Shape) → Prop where
  | here {stem : Stem} {rest : List Shape} : Nested contents (.nest stem contents :: rest)
  | inside {stem : Stem} {outer rest : List Shape} (h : Nested contents outer) :
      Nested contents (.nest stem outer :: rest)
  | later {tree : Shape} {rest : List Shape} (h : Nested contents rest) :
      Nested contents (tree :: rest)

/-- The code of what each node holds fits its length. -/
def Short (trees : List Shape) : Prop :=
  ∀ contents, Nested contents trees → (code contents).length < 65536

variable {tree : Shape} {stem : Stem} {contents rest trees : List Shape}

theorem Short.here (h : Short (.nest stem contents :: rest)) :
    (code contents).length < 65536 :=
  h contents .here

theorem Short.inside (h : Short (.nest stem contents :: rest)) : Short contents :=
  fun inner hnested => h inner (.inside hnested)

theorem Short.later (h : Short (tree :: rest)) : Short rest :=
  fun inner hnested => h inner (.later hnested)

theorem short_nil : Short [] := by
  intro contents h
  cases h

theorem Short.leaf {l : Leaf} (h : Short rest) : Short (.leaf l :: rest) := by
  intro contents hnested
  cases hnested with
  | later hnested => exact h contents hnested

theorem Short.nest (h : (code contents).length < 65536) (hcontents : Short contents)
    (hrest : Short rest) :
    Short (.nest stem contents :: rest) := by
  intro inner hnested
  cases hnested with
  | here => exact h
  | inside hnested => exact hcontents inner hnested
  | later hnested => exact hrest inner hnested

/-! ## Writing -/

theorem step_leaf (l : Leaf) (draft : Draft) :
    l.step draft = .ok (draft.append (l.kind.byte :: l.operands)) := by
  cases l <;> rfl

theorem step_nest (stem : Stem) (contents : Draft.Step) :
    stem.step contents = Draft.nested (stem.kind.byte :: stem.operands) contents := by
  cases stem with
  | run form => cases form <;> rfl
  | record | pointer | resource => rfl

/-- A node is written as its code, unless the code of what it holds does not
fit its length. -/
theorem step_nest_of_contents (stem : Stem) (draft : Draft)
    (h : ∀ draft,
      Draft.sequence (steps contents) draft = .ok (draft.append (code contents))) :
    step (.nest stem contents) draft =
      if (code contents).length < 65536
        then .ok (draft.append (codeOne (.nest stem contents)))
      else .error (.nestedTooLong (code contents).length) := by
  rw [step, step_nest, Draft.nested_of_contents (h _)]
  unfold Emit.nested
  by_cases hfits : (code contents).length < 65536
  · simp only [hfits, if_true, codeOne]
  · simp only [hfits, if_false]

/-- Trees are written as their code, or the code of the contents of some node does not
fit its length. -/
theorem written_or_too_long (trees : List Shape) :
    (Short trees ∧
      ∀ draft, Draft.sequence (steps trees) draft = .ok (draft.append (code trees))) ∨
    ∃ contents, Nested contents trees ∧ 65535 < (code contents).length ∧
      ∀ draft, Draft.sequence (steps trees) draft =
        .error (.nestedTooLong (code contents).length) := by
  induction trees using forest_induction with
  | nil => exact .inl ⟨short_nil, fun draft => congrArg Except.ok draft.append_nil.symm⟩
  | leaf l rest ih =>
    have hfirst : ∀ draft, Draft.sequence (steps (.leaf l :: rest)) draft =
        Draft.sequence (steps rest) (draft.append (codeOne (.leaf l))) := by
      intro draft
      simp only [steps, step, Draft.sequence, step_leaf, codeOne]
    rcases ih with ⟨hshort, hok⟩ | ⟨contents, hnested, hlong, herror⟩
    · refine .inl ⟨hshort.leaf, fun draft => ?_⟩
      rw [hfirst, hok, Draft.append_append, code]
    · exact .inr ⟨contents, .later hnested, hlong,
        fun draft => (hfirst draft).trans (herror _)⟩
  | nest stem contents rest ihc ihr =>
    rcases ihc with ⟨hshort, hok⟩ | ⟨inner, hnested, hlong, herror⟩
    · have hstep := fun draft => step_nest_of_contents stem draft hok
      by_cases hfits : (code contents).length < 65536
      · simp only [hfits, if_true] at hstep
        rcases ihr with ⟨hshort', hok'⟩ | ⟨inner, hnested, hlong, herror⟩
        · refine .inl ⟨.nest hfits hshort hshort', fun draft => ?_⟩
          simp only [steps, Draft.sequence, hstep, hok', Draft.append_append, code]
        · refine .inr ⟨inner, .later hnested, hlong, fun draft => ?_⟩
          simp only [steps, Draft.sequence, hstep, herror]
      · simp only [hfits, if_false] at hstep
        refine .inr ⟨contents, .here, by omega, fun draft => ?_⟩
        simp only [steps, Draft.sequence, hstep]
    · refine .inr ⟨inner, .inside hnested, hlong, fun draft => ?_⟩
      simp only [steps, step, Draft.sequence, step_nest, Draft.nested, herror]

end Shape

/-! ## Operands read back -/

theorem Emit.toNat_u16 (n : UInt16) : Bytes.toNat (u16 n) = n.toNat :=
  Bytes.toNat_ofNat_of_lt n.toNat_lt

namespace Reader

theorem u16_emit (n : UInt16) (rest : Bytes) :
    u16 (Emit.u16 n ++ rest) = .ok (n, rest) := by
  have hsplit : Bytes.split? 2 (Emit.u16 n ++ rest) = some (Emit.u16 n, rest) :=
    Bytes.split?_eq_some_iff.2 ⟨rfl, Bytes.length_ofNat _ _⟩
  rw [u16_of_split? hsplit, Emit.toNat_u16, UInt16.ofNat_toNat]

theorem flag_emit (b : Bool) (rest : Bytes) :
    flag (Emit.flag b ++ rest) = .ok (b, rest) := by
  cases b <;> rfl

theorem range_emit {inner : Bytes} (h : inner.length < 65536) (rest : Bytes) :
    range (Bytes.ofNat 2 inner.length ++ (inner ++ rest)) = .ok (inner, rest) := by
  have hword : Bytes.split? 2 (Bytes.ofNat 2 inner.length ++ (inner ++ rest)) =
      some (Bytes.ofNat 2 inner.length, inner ++ rest) :=
    Bytes.split?_eq_some_iff.2 ⟨rfl, Bytes.length_ofNat _ _⟩
  refine range_of_split? hword (Bytes.split?_eq_some_iff.2 ⟨rfl, ?_⟩)
  rw [Bytes.toNat_ofNat_of_lt h]

end Reader

theorem Leaf.read_code (l : Leaf) (rest : Bytes) :
    Node.read (l.kind.byte :: (l.operands ++ rest)) = .ok (l.node, rest) := by
  rw [Verify.read_of_kind (Kind.ofByte?_byte _)]
  cases l with
  | scalar s => rfl
  | union id =>
    simp only [kind, operands, node, Node.readOperands, Node.readUnion, Reader.u16_emit]
  | handle h => cases h <;> rfl

theorem Stem.read_code (stem : Stem) {inner : Bytes} (h : inner.length < 65536)
    (rest : Bytes) :
    Node.read (stem.kind.byte ::
        (stem.operands ++ (Bytes.ofNat 2 inner.length ++ (inner ++ rest)))) =
      .ok (stem.node inner, rest) := by
  have hrange := Reader.range_emit h rest
  rw [Verify.read_of_kind (Kind.ofByte?_byte _)]
  cases stem with
  | record =>
    simp only [kind, operands, node, List.nil_append, Node.readOperands,
      Node.readRecord, hrange]
  | resource id =>
    simp only [kind, operands, node, Node.readOperands, Node.readResource,
      Reader.u16_emit, hrange]
  | pointer form =>
    cases form <;>
      simp only [kind, operands, node, List.nil_append, Emit.pointerKind,
        Node.readOperands, Node.readPointer, hrange]
  | run form plain =>
    cases form with
    | vec | unboxedVec =>
      simp only [kind, operands, node, Node.readOperands, Node.readRun,
        Reader.flag_emit, hrange]
    | slice isStr =>
      simp only [kind, operands, node, List.append_assoc, Node.readOperands,
        Node.readSlice, Reader.flag_emit, hrange]
    | fixedVec count =>
      simp only [kind, operands, node, List.append_assoc, Node.readOperands,
        Node.readFixedVec, Node.readRun, Reader.u16_emit, Reader.flag_emit, hrange]

namespace Shape

/-! ## Reading -/

/-- The tree of a node whose nested range holds the given trees. -/
def ofNode (contents : List Shape) : Node → Shape
  | .scalar s => .leaf (.scalar s)
  | .union id => .leaf (.union id)
  | .handle h => .leaf (.handle h)
  | .record _ => .nest .record contents
  | .run form plain _ => .nest (.run form plain) contents
  | .pointer form _ => .nest (.pointer form) contents
  | .resource id _ => .nest (.resource id) contents

/-- The trees of a range: nodes are taken off the front until nothing is left, and so in
each nested range. -/
def read (bs : Bytes) : Except Fault (List Shape) :=
  if bs = [] then .ok []
  else
    match _ : Node.read bs with
    | .error f => .error f
    | .ok (node, rest) =>
      match read node.nested with
      | .error f => .error f
      | .ok contents =>
        match read rest with
        | .error f => .error f
        | .ok trees => .ok (ofNode contents node :: trees)
termination_by bs.length
decreasing_by
  all_goals
    have := Node.length_read ‹Node.read bs = .ok _›
    omega

theorem read_nil : read [] = .ok [] := by
  rw [read, if_pos rfl]

theorem read_of_node {bs rest : Bytes} {node : Node} {contents trees : List Shape}
    (hnode : Node.read bs = .ok (node, rest)) (hcontents : read node.nested = .ok contents)
    (hrest : read rest = .ok trees) : read bs = .ok (ofNode contents node :: trees) := by
  have hne : bs ≠ [] := by
    rintro rfl
    cases hnode
  rw [read, if_neg hne]
  split
  · rename_i hread
    cases hnode.symm.trans hread
  · rename_i hread
    cases hnode.symm.trans hread
    simp only [hcontents, hrest]

/-- Reading the code of trees finds the trees. -/
theorem read_code (trees : List Shape) (h : Short trees) :
    read (code trees) = .ok trees := by
  induction trees using forest_induction with
  | nil => exact read_nil
  | leaf l rest ih =>
    have hrest := ih h.later
    have hcontents : read l.node.nested = .ok [] := by cases l <;> exact read_nil
    have hread := read_of_node (l.read_code (code rest)) hcontents hrest
    have htree : ofNode [] l.node = .leaf l := by cases l <;> rfl
    rw [htree] at hread
    exact hread
  | nest stem contents rest ihc ihr =>
    have hinner := ihc h.inside
    have hrest := ihr h.later
    have hcontents : read (stem.node (code contents)).nested = .ok contents := by
      cases stem <;> exact hinner
    have hread := read_of_node (stem.read_code h.here (code rest)) hcontents hrest
    have htree : ofNode contents (stem.node (code contents)) = .nest stem contents := by
      cases stem <;> rfl
    rw [htree] at hread
    simpa [code, codeOne] using hread

end Shape

/-! ## What the grammar says -/

namespace Leaf

theorem isComposite_kind (l : Leaf) : l.kind.isComposite = false := by
  cases l with
  | scalar | union => rfl
  | handle h => cases h <;> rfl

theorem length_operands (l : Leaf) : l.operands.length = l.kind.operandSize := by
  cases l with
  | scalar | union => rfl
  | handle h => cases h <;> rfl

theorem idIn_kind {t : Tables} {l : Leaf} (h : l.node.IdsIn t) :
    l.kind.IdIn t l.operands := by
  cases l with
  | scalar => trivial
  | union id => exact lt_of_eq_of_lt (Emit.toNat_u16 id) h
  | handle handle => cases handle <;> trivial

end Leaf

namespace Stem

theorem isComposite_kind (stem : Stem) : stem.kind.isComposite = true := by
  cases stem with
  | record | resource => rfl
  | run form => cases form <;> rfl
  | pointer form => cases form <;> rfl

theorem length_operands (stem : Stem) : stem.operands.length = stem.kind.operandSize := by
  cases stem with
  | record | resource => rfl
  | run form => cases form <;> rfl
  | pointer form => cases form <;> rfl

theorem holdsOne_node {stem : Stem} {inner : Bytes} (h : stem.kind.holdsFields = false) :
    (stem.node inner).holdsOne = true := by
  cases stem with
  | record | resource => cases h
  | run | pointer => rfl

theorem idIn_kind {t : Tables} {stem : Stem} {inner : Bytes}
    (h : (stem.node inner).IdsIn t) : stem.kind.IdIn t stem.operands := by
  cases stem with
  | record => trivial
  | run form => cases form <;> trivial
  | pointer form => cases form <;> trivial
  | resource id => exact lt_of_eq_of_lt (Emit.toNat_u16 id) h

end Stem

namespace Shape

/-- The ids of the trees lie inside the tables, and what stands for one
value is one tree. -/
inductive Admissible (t : Tables) : List Shape → Prop where
  | nil : Admissible t []
  | leaf {l : Leaf} {rest : List Shape} (hids : l.node.IdsIn t)
      (hrest : Admissible t rest) : Admissible t (.leaf l :: rest)
  | nest {stem : Stem} {contents rest : List Shape}
      (hids : (stem.node (code contents)).IdsIn t)
      (hone : (stem.node (code contents)).holdsOne = true → contents.length = 1)
      (hcontents : Admissible t contents) (hrest : Admissible t rest) :
      Admissible t (.nest stem contents :: rest)

/-- The code of admissible trees is well formed, with as many nodes. -/
theorem wellFormed_code {t : Tables} {trees : List Shape} (h : Short trees)
    (ht : Admissible t trees) :
    WellFormed t trees.length (code trees) := by
  induction ht with
  | nil => exact .nil
  | leaf hids _ ih =>
    exact .plain (Leaf.isComposite_kind _) (Leaf.length_operands _)
      (Leaf.idIn_kind hids) (ih h.later)
  | @nest stem contents rest hids hone _ _ ihc ihr =>
    have hinner := ihc h.inside
    have hrest := ihr h.later
    have hlength :
        (code contents).length = Bytes.toNat (Bytes.ofNat 2 (code contents).length) :=
      (Bytes.toNat_ofNat_of_lt h.here).symm
    have hnode :=
      WellFormed.composite stem.isComposite_kind stem.length_operands
        (Stem.idIn_kind hids) (Bytes.length_ofNat _ _) hlength hinner (fun hfields =>
        hone (Stem.holdsOne_node hfields)) hrest
    simpa [code, codeOne] using hnode

/-! ## Round trips -/

/-- Trees are written unless the code of what some node holds does not fit its length.
What is written reads back as the same trees with nothing left over, and the verifier
accepts it with their number if the trees are admissible. -/
theorem written_reads_back (trees : List Shape) :
    ((∃ f, Draft.shape (Draft.sequence (steps trees)) = .error f) ↔
      ∃ contents, Nested contents trees ∧ 65535 < (code contents).length) ∧
    (∀ f, Draft.shape (Draft.sequence (steps trees)) = .error f →
      ∃ contents, Nested contents trees ∧ f = .nestedTooLong (code contents).length) ∧
    ∀ bs, Draft.shape (Draft.sequence (steps trees)) = .ok bs →
      read bs = .ok trees ∧ ∀ t, Admissible t trees →
        ∀ offset count, Verify.range t bs offset count = .ok (count + trees.length) := by
  rcases written_or_too_long trees
    with ⟨hshort, hok⟩ | ⟨contents, hnested, hlong, herror⟩
  · have hwritten : Draft.shape (Draft.sequence (steps trees)) = .ok (code trees) := by
      simp only [Draft.shape, hok, Draft.finish_append]
      rfl
    rw [hwritten]
    refine ⟨?_, fun f hf => (nomatch hf), fun bs hbs => ?_⟩
    · constructor
      · rintro ⟨f, hf⟩
        cases hf
      · rintro ⟨contents, hnested, hlong⟩
        have := hshort contents hnested
        omega
    · obtain rfl := Except.ok.inj hbs
      exact ⟨read_code trees hshort, fun t ht offset count =>
        Verify.range_of_wellFormed (wellFormed_code hshort ht)⟩
  · have hfails : Draft.shape (Draft.sequence (steps trees)) =
        .error (.nestedTooLong (code contents).length) := by
      simp only [Draft.shape, herror]
    rw [hfails]
    refine ⟨?_, fun f hf => ⟨contents, hnested, (Except.error.inj hf).symm⟩,
      fun bs hbs => (nomatch hbs)⟩
    constructor
    · intro _
      exact ⟨contents, hnested, hlong⟩
    · intro _
      exact ⟨_, rfl⟩

/-- A record of a vector of unions and a box. -/
def mixed : List Shape :=
  [.nest .record [.nest (.run .vec false) [.leaf (.union 0)],
    .nest (.pointer .box) [.leaf (.scalar .u8)]]]

theorem written_reads_back_mixed :
    Draft.shape (Draft.sequence (steps mixed)) =
        .ok [17, 11, 0, 11, 0, 3, 0, 12, 0, 0, 10, 1, 0, 0] ∧
      read [17, 11, 0, 11, 0, 3, 0, 12, 0, 0, 10, 1, 0, 0] = .ok mixed := by
  have hwritten : Draft.shape (Draft.sequence (steps mixed)) =
      .ok [17, 11, 0, 11, 0, 3, 0, 12, 0, 0, 10, 1, 0, 0] := rfl
  exact ⟨hwritten, ((written_reads_back mixed).2.2 _ hwritten).1⟩

end Shape

end ShapeCode
