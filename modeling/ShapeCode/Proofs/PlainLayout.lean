import ShapeCode.Measure
import ShapeCode.Proofs.Acyclic
import ShapeCode.Proofs.Rounding

set_option autoImplicit false

/-!
# Layouts without a memory of unions

Measuring passes along what is known of unions and refuses a union met inside itself.
`Plain` is the same recursion with neither: a union is measured again wherever it is
met, to a bounded depth.  For verified tables the bound is never reached
(`union_eq_of_nests`), so the layout of a union satisfies its own recursive equation
(`unionLayout_eq`), and measuring agrees with it whatever was known before (`layout_eq`,
`node_layout_eq`).

The agreement is carried by one invariant: what is known of a union is its plain layout
(`Known.Sound`).  That no union is met inside itself follows from the order in which
unions lie inside one another.
-/

namespace ShapeCode

namespace Plain

/-- The layout of a node, given that of its nested range and how to measure a union. -/
def storageLayout (union : UInt16 → Except Fault Layout) (nested : Except Fault Layout) :
    Storage → Except Fault Layout
  | .own l => .ok l
  | .fields => nested
  | .copies count =>
    match nested with
    | .error f => .error f
    | .ok elem => elem.copies count
  | .union id => union id

/-- The layout of a range whose nodes follow `before`. -/
def range (union : UInt16 → Except Fault Layout) :
    Outline → (before : Layout) → Except Fault Layout
  | .done, before => before.padded
  | .broken f, _ => .error f
  | .cons node inner rest, before =>
    match storageLayout union (range union inner .empty) node.storage with
    | .error f => .error f
    | .ok l =>
      match before.append l with
      | .error f => .error f
      | .ok sofar => range union rest sofar

/-- The layout of a variant, behind the discriminant if there is one. -/
def variant (union : UInt16 → Except Fault Layout) (u : Union) (v : Nat) :
    Except Fault Layout :=
  match u.variant v with
  | .error f => .error f
  | .ok fields => range union (Outline.ofBytes fields) (Measure.unionHead u)

/-- The size and alignment that the given variants need at most, on top of `widest`. -/
def variants (union : UInt16 → Except Fault Layout) (u : Union) :
    List UInt16 → (widest : Layout) → Except Fault Layout
  | [], widest => .ok widest
  | v :: rest, widest =>
    match variant union u v.toNat with
    | .error f => .error f
    | .ok l => variants union u rest ⟨max widest.size l.size, max widest.align l.align⟩

/-- The layout of a union, given how to measure the unions inside it. -/
def unionStep (t : Tables) (union : UInt16 → Except Fault Layout) (id : UInt16) :
    Except Fault Layout :=
  match t.union id with
  | .error f => .error f
  | .ok u =>
    match variants union u u.hint .empty with
    | .error f => .error f
    | .ok widest => Measure.unionLayout u widest

/-- The layout of a union that nests less than `depth` deep. -/
def union (t : Tables) : (depth : Nat) → UInt16 → Except Fault Layout
  | 0, id => .error (.selfContaining id.toNat)
  | depth + 1, id => unionStep t (union t depth) id

/-! ## Answers -/

section Answers

variable {t : Tables} {union : UInt16 → Except Fault Layout} {before l : Layout}

theorem storageLayout_copies_eq_ok_iff {nested : Except Fault Layout} {count : Nat} :
    storageLayout union nested (.copies count) = .ok l ↔
      ∃ elem, nested = .ok elem ∧ elem.copies count = .ok l := by
  simp only [storageLayout]
  cases nested <;> simp

theorem range_cons_eq_ok_iff {node : Node} {inner rest : Outline} :
    range union (.cons node inner rest) before = .ok l ↔
      ∃ own sofar,
        storageLayout union (range union inner .empty) node.storage = .ok own ∧
        before.append own = .ok sofar ∧ range union rest sofar = .ok l := by
  simp only [range]
  cases storageLayout union (range union inner .empty) node.storage with
  | error f => simp
  | ok own => cases hsofar : before.append own <;> simp [hsofar]

theorem variant_eq_ok_iff {u : Union} {v : Nat} :
    variant union u v = .ok l ↔
      ∃ fields, u.variant v = .ok fields ∧
        range union (Outline.ofBytes fields) (Measure.unionHead u) = .ok l := by
  unfold variant
  cases u.variant v <;> simp

theorem variants_cons_eq_ok_iff {u : Union} {v : UInt16} {rest : List UInt16} :
    variants union u (v :: rest) before = .ok l ↔
      ∃ own, variant union u v.toNat = .ok own ∧
        variants union u rest ⟨max before.size own.size,
          max before.align own.align⟩ = .ok l := by
  simp only [variants]
  cases variant union u v.toNat <;> simp

theorem unionStep_eq_ok_iff {id : UInt16} :
    unionStep t union id = .ok l ↔
      ∃ u widest, t.union id = .ok u ∧ variants union u u.hint .empty = .ok widest ∧
        Measure.unionLayout u widest = .ok l := by
  unfold unionStep
  cases t.union id with
  | error f => simp
  | ok u => cases hwidest : variants union u u.hint .empty <;> simp [hwidest]

end Answers

/-! ## Only what is stored inline matters -/

/-- A node has a layout of its own, or that of what it stores inline. -/
theorem storage_cases (node : Node) :
    (∃ l, node.storage = .own l) ∨
      (node.storage = .fields ∧ node.storesInline = true) ∨
      (∃ count, node.storage = .copies count ∧ node.storesInline = true) ∨
      ∃ id, node.storage = .union id ∧ node = .union id := by
  cases node with
  | scalar | pointer | handle => exact .inl ⟨_, rfl⟩
  | record | resource => exact .inr (.inl ⟨rfl, rfl⟩)
  | union id => exact .inr (.inr (.inr ⟨id, rfl, rfl⟩))
  | run form =>
    cases form with
    | fixedVec count => exact .inr (.inr (.inl ⟨_, rfl, rfl⟩))
    | vec | unboxedVec | slice => exact .inl ⟨_, rfl⟩

/-- The layout of a range depends on the unions stored inline in it alone. -/
theorem range_congr {u u' : UInt16 → Except Fault Layout} {o : Outline} {before : Layout}
    (h : ∀ id, o.Stores id → u id = u' id) : range u o before = range u' o before := by
  induction o generalizing before with
  | done => rfl
  | broken f => rfl
  | cons node inner rest ihi ihr =>
    have hnode : storageLayout u (range u inner .empty) node.storage =
        storageLayout u' (range u' inner .empty) node.storage := by
      rcases storage_cases node
        with ⟨l, hs⟩ | ⟨hs, hin⟩ | ⟨count, hs, hin⟩ | ⟨id, hs, rfl⟩
      · rw [hs]
        rfl
      · rw [hs, ihi fun id hid => h id (.inr (.inl ⟨hin, hid⟩))]
        rfl
      · rw [hs, ihi fun id hid => h id (.inr (.inl ⟨hin, hid⟩))]
        rfl
      · rw [hs]
        exact h id (.inl rfl)
    simp only [range, hnode, ihr fun id hid => h id (.inr (.inr hid))]

theorem variants_congr {u u' : UInt16 → Except Fault Layout} {un : Union}
    {vs : List UInt16} {widest : Layout}
    (h : ∀ fields ∈ un.variants, ∀ id, (Outline.ofBytes fields).Stores id →
      u id = u' id) :
    variants u un vs widest = variants u' un vs widest := by
  induction vs generalizing widest with
  | nil => rfl
  | cons v rest ih =>
    have hv : variant u un v.toNat = variant u' un v.toNat := by
      unfold variant
      split
      · rfl
      · rename_i fields hfields
        exact range_congr (h fields (Union.mem_of_variant hfields))
    simp only [variants, hv, ih]

theorem unionStep_congr {t : Tables} {u u' : UInt16 → Except Fault Layout} {id : UInt16}
    (h : ∀ id' : UInt16, t.Inside id'.toNat id.toNat → u id' = u' id') :
    unionStep t u id = unionStep t u' id := by
  unfold unionStep
  split
  · rfl
  · rename_i un hun
    have hvariants : variants u un un.hint .empty = variants u' un un.hint .empty := by
      apply variants_congr
      intro fields hf id' hid'
      exact h id' ⟨un, id', Tables.union_eq_ok_iff.1 hun, rfl, fields, hf, hid'⟩
    rw [hvariants]

/-- No more depth is used than unions nest. -/
theorem union_eq_of_nests {t : Tables} {depth depth' : Nat} {id : UInt16}
    (h : t.Nests depth id.toNat) (hle : depth ≤ depth') :
    union t depth' id = union t depth id := by
  induction depth generalizing depth' id with
  | zero => exact False.elim h
  | succ depth ih =>
    obtain ⟨k, rfl⟩ : ∃ k, depth' = k + 1 := ⟨depth' - 1, by omega⟩
    apply unionStep_congr
    intro id' hid'
    exact ih (h _ hid') (by omega)

end Plain

namespace Tables

/-- The plain layout of a union. -/
def unionLayout (t : Tables) : UInt16 → Except Fault Layout := Plain.union t t.unions.size

/-- The plain layout of a range whose nodes follow `before`. -/
def rangeLayout (t : Tables) (o : Outline) (before : Layout) : Except Fault Layout :=
  Plain.range t.unionLayout o before

/-- The plain layout of a node with the given nested outline. -/
def nodeLayout (t : Tables) (node : Node) (inner : Outline) : Except Fault Layout :=
  Plain.storageLayout t.unionLayout (t.rangeLayout inner .empty) node.storage

/-- The layout of a union is made from those of the unions inside it. -/
theorem Verified.unionLayout_eq {t : Tables} (h : t.Verified) {id : UInt16}
    (hid : id.toNat < t.unions.size) :
    t.unionLayout id = Plain.unionStep t t.unionLayout id := by
  have hnests := h.nests hid
  unfold unionLayout
  rw [← Plain.union_eq_of_nests hnests (Nat.le_succ _)]
  rfl

@[simp] theorem rangeLayout_done (t : Tables) (before : Layout) :
    t.rangeLayout .done before = before.padded := rfl

theorem rangeLayout_cons (t : Tables) (node : Node) (inner rest : Outline)
    (before : Layout) :
    t.rangeLayout (.cons node inner rest) before =
      match t.nodeLayout node inner with
      | .error f => .error f
      | .ok l =>
        match before.append l with
        | .error f => .error f
        | .ok sofar => t.rangeLayout rest sofar := rfl

theorem rangeLayout_cons_eq_ok {t : Tables} {node : Node} {inner rest : Outline}
    {before l : Layout} (h : t.rangeLayout (.cons node inner rest) before = .ok l) :
    ∃ own sofar, t.nodeLayout node inner = .ok own ∧ before.append own = .ok sofar ∧
      t.rangeLayout rest sofar = .ok l := by
  rw [rangeLayout_cons] at h
  split at h
  · cases h
  · rename_i own hown
    split at h
    · cases h
    · rename_i sofar hsofar
      exact ⟨own, sofar, hown, hsofar, h⟩

end Tables

/-! ## Measuring agrees -/

namespace Measure

/-- What is known of a union is its plain layout. -/
def Known.Sound (t : Tables) (known : Known) : Prop :=
  ∀ id l, known.lookup id = some l → t.unionLayout id = .ok l

theorem Known.Sound.nil (t : Tables) : Known.Sound t [] := by
  intro id l h
  cases h

theorem Known.Sound.cons {t : Tables} {known : Known} (h : Known.Sound t known)
    {id : UInt16} {l : Layout} (hl : t.unionLayout id = .ok l) :
    Known.Sound t ((id, l) :: known) := by
  intro id' l' h'
  rw [List.lookup_cons] at h'
  split at h'
  · rename_i heq
    obtain rfl := Option.some.inj h'
    rw [beq_iff_eq.1 heq]
    exact hl
  · exact h id' l' h'

/-- A measurement gives the plain answer, and what is known after it is sound. -/
def Agrees {α : Type} (t : Tables) (measured : Except Fault (α × Known))
    (plain : Except Fault α) : Prop :=
  match measured with
  | .error f => plain = .error f
  | .ok (x, known) => plain = .ok x ∧ Known.Sound t known

variable {t : Tables} {union : UInt16 → Measured Layout}

theorem Agrees.cases {α : Type} {measured : Except Fault (α × Known)}
    {plain : Except Fault α} (h : Agrees t measured plain) :
    (∃ f, measured = .error f ∧ plain = .error f) ∨
      ∃ x known, measured = .ok (x, known) ∧ plain = .ok x ∧ Known.Sound t known := by
  cases measured with
  | error f => exact .inl ⟨f, rfl, h⟩
  | ok r => exact .inr ⟨r.1, r.2, rfl, h.1, h.2⟩

theorem storageLayout_agrees {node : Node} {inner : Outline} {known : Known}
    (hknown : Known.Sound t known)
    (hunion : ∀ id, node = .union id → Agrees t (union id known) (t.unionLayout id))
    (hinner : node.storesInline = true →
      Agrees t (range union inner .empty known) (t.rangeLayout inner .empty)) :
    Agrees t (storageLayout union (range union inner .empty) node.storage known)
      (t.nodeLayout node inner) := by
  unfold Tables.nodeLayout
  rcases Plain.storage_cases node
    with ⟨l, hs⟩ | ⟨hs, hin⟩ | ⟨count, hs, hin⟩ | ⟨id, hs, rfl⟩
  · rw [hs]
    exact ⟨rfl, hknown⟩
  · rw [hs]
    exact hinner hin
  · rw [hs]
    simp only [storageLayout, Plain.storageLayout]
    rcases (hinner hin).cases with ⟨f, hm, hp⟩ | ⟨elem, known', hm, hp, hknown'⟩
    · simp only [hm, hp]
      rfl
    · simp only [hm, hp]
      cases elem.copies count with
      | error f => rfl
      | ok l => exact ⟨rfl, hknown'⟩
  · rw [hs]
    exact hunion id rfl

/-- Measuring a range agrees, if measuring the unions stored inline in it does. -/
theorem range_agrees {o : Outline} {before : Layout} {known : Known}
    (hknown : Known.Sound t known)
    (hunion : ∀ id, o.Stores id → ∀ known, Known.Sound t known →
      Agrees t (union id known) (t.unionLayout id)) :
    Agrees t (range union o before known) (t.rangeLayout o before) := by
  induction o generalizing before known with
  | done =>
    simp only [range, Tables.rangeLayout_done]
    cases before.padded with
    | error f => rfl
    | ok l => exact ⟨rfl, hknown⟩
  | broken f => rfl
  | cons node inner rest ihi ihr =>
    have hnode :
        Agrees t (storageLayout union (range union inner .empty) node.storage known)
        (t.nodeLayout node inner) :=
      storageLayout_agrees hknown
        (fun id hid => hunion id (.inl hid) known hknown)
        (fun hin => ihi hknown fun id hid => hunion id (.inr (.inl ⟨hin, hid⟩)))
    simp only [range, Tables.rangeLayout_cons]
    rcases hnode.cases with ⟨f, hm, hp⟩ | ⟨l, known', hm, hp, hknown'⟩
    · simp only [hm, hp]
      rfl
    · simp only [hm, hp]
      cases before.append l with
      | error f => rfl
      | ok sofar => exact ihr hknown' fun id hid => hunion id (.inr (.inr hid))

theorem variants_agrees {u : Union} {vs : List UInt16} {widest : Layout} {known : Known}
    (hknown : Known.Sound t known)
    (hunion : ∀ fields ∈ u.variants, ∀ id, (Outline.ofBytes fields).Stores id →
      ∀ known, Known.Sound t known → Agrees t (union id known) (t.unionLayout id)) :
    Agrees t (variants union u (unionHead u) vs widest known)
      (Plain.variants t.unionLayout u vs widest) := by
  induction vs generalizing widest known with
  | nil => exact ⟨rfl, hknown⟩
  | cons v rest ih =>
    simp only [variants, Plain.variants, Plain.variant]
    cases hv : u.variant v.toNat with
    | error f => rfl
    | ok fields =>
      have hrange : Agrees t (range union (Outline.ofBytes fields) (unionHead u) known)
          (t.rangeLayout (Outline.ofBytes fields) (unionHead u)) :=
        range_agrees hknown (hunion fields (Union.mem_of_variant hv))
      rcases hrange.cases with ⟨f, hm, hp⟩ | ⟨l, known', hm, hp, hknown'⟩
      · unfold Tables.rangeLayout at hp
        simp only [hm, hp]
        rfl
      · unfold Tables.rangeLayout at hp
        simp only [hm, hp]
        exact ih hknown'

/-- Measuring a union agrees, if none that is being measured is or lies inside it. -/
theorem union_agrees (ht : t.Verified) {depth : Nat} {path : List UInt16} {id : UInt16}
    {known : Known} (hid : id.toNat < t.unions.size) (hdepth : t.Nests depth id.toNat)
    (hpath : ∀ j ∈ path, ¬ Relation.ReflTransGen t.Inside j.toNat id.toNat)
    (hknown : Known.Sound t known) :
    Agrees t (Measure.union t depth path id known) (t.unionLayout id) := by
  induction depth generalizing path id known with
  | zero => exact False.elim hdepth
  | succ depth ih =>
    have hunion := Tables.union_of_lt hid
    unfold Measure.union
    rw [hunion]
    simp only
    cases hlookup : known.lookup id with
    | some l => exact ⟨hknown id l hlookup, hknown⟩
    | none =>
      have hmem : id ∉ path := fun h => hpath id h .refl
      simp only [if_neg hmem]
      rw [ht.unionLayout_eq hid]
      unfold Plain.unionStep
      rw [hunion]
      simp only
      -- A union inside this one nests less deep, and neither this one nor any on the
      -- path lies inside it.
      have hvariants : Agrees t
          (variants (Measure.union t depth (id :: path)) t.unions[id.toNat]
            (unionHead t.unions[id.toNat]) t.unions[id.toNat].hint .empty known)
          (Plain.variants t.unionLayout t.unions[id.toNat]
            t.unions[id.toNat].hint .empty) := by
        apply variants_agrees hknown
        intro fields hf id' hid' known hknown
        have hinside : t.Inside id'.toNat id.toNat :=
          ⟨_, id', Tables.union_eq_ok_iff.1 hunion, rfl, fields, hf, hid'⟩
        refine ih (ht.sound.lt_of_inside hinside) (hdepth _ hinside) ?_ hknown
        rw [List.forall_mem_cons]
        refine ⟨?_, fun j hj hji => hpath j hj (hji.tail hinside)⟩
        intro h
        exact ht.not_inside_self _ (Relation.TransGen.tail' h hinside)
      rcases hvariants.cases with ⟨f, hm, hp⟩ | ⟨widest, known', hm, hp, hknown'⟩
      · simp only [hm, hp]
        rfl
      · simp only [hm, hp]
        cases hl : unionLayout t.unions[id.toNat] widest with
        | error f => rfl
        | ok l =>
          refine ⟨rfl, hknown'.cons ?_⟩
          rw [ht.unionLayout_eq hid]
          unfold Plain.unionStep
          simp only [hunion, hp, hl]

theorem anyUnion_agrees (ht : t.Verified) {id : UInt16} {known : Known}
    (hid : id.toNat < t.unions.size) (hknown : Known.Sound t known) :
    Agrees t (anyUnion t id known) (t.unionLayout id) :=
  union_agrees ht hid (ht.nests hid) (by simp) hknown

end Measure

/-! ## Measured layouts -/

namespace Tables.Verified

variable {t : Tables} (ht : t.Verified)

include ht

theorem measure_agrees {o : Outline} (ho : o.Sound t) :
    Measure.Agrees t (o.measure t) (t.rangeLayout o .empty) :=
  Measure.range_agrees (Measure.Known.Sound.nil t)
    fun _ hid _ hknown => Measure.anyUnion_agrees ht (ho.lt_of_stores hid) hknown

/-- The layout measured of a range is its plain layout. -/
theorem layout_eq {o : Outline} (ho : o.Sound t) : o.layout t = t.rangeLayout o .empty := by
  unfold Outline.layout
  rcases (ht.measure_agrees ho).cases with ⟨f, hm, hp⟩ | ⟨l, known, hm, hp, -⟩
  · rw [hm, hp]
  · rw [hm, hp]

/-- The layout measured of a node is its plain layout. -/
theorem node_layout_eq {node : Node} {inner : Outline} (hids : node.IdsIn t)
    (ho : inner.Sound t) :
    node.layout t inner = t.nodeLayout node inner := by
  have h : Measure.Agrees t
      (Measure.storageLayout (Measure.anyUnion t)
        (Measure.range (Measure.anyUnion t) inner .empty)
        node.storage [])
      (t.nodeLayout node inner) := by
    apply Measure.storageLayout_agrees (Measure.Known.Sound.nil t)
    · intro id hid
      rw [hid] at hids
      exact Measure.anyUnion_agrees ht hids (Measure.Known.Sound.nil t)
    · intro _
      exact ht.measure_agrees ho
  unfold Node.layout
  rcases h.cases with ⟨f, hm, hp⟩ | ⟨l, known, hm, hp, -⟩
  · rw [hm, hp]
  · rw [hm, hp]

end Tables.Verified

end ShapeCode
