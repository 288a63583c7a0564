import ShapeCode.Proofs.PlainLayout

set_option autoImplicit false

/-!
# Layouts are proper, or leave the machine word

Every layout measured of verified tables is a multiple of its alignment, which is one,
two, four or eight (`Layout.Proper`), and the only thing that keeps a layout from being
measured is a size beyond the machine word.  `Yields` states both about one computation:
the property of its result, and the faults it may end in.
-/

namespace ShapeCode

/-! ## Computations that answer or end in given faults -/

/-- The computation gives a result with the property `p`, or ends in a fault of
which `fails` holds. -/
def Yields {α : Type} (fails : Fault → Prop) (p : α → Prop) : Except Fault α → Prop
  | .error f => fails f
  | .ok x => p x

/-- The fault is a computation that left the machine word. -/
def Fault.Overflow (f : Fault) : Prop := f.isOverflow = true

namespace Yields

variable {α : Type}
  {fails fails' : Fault → Prop} {p p' : α → Prop} {r : Except Fault α}

theorem cases (h : Yields fails p r) :
    (∃ f, r = .error f ∧ fails f) ∨ ∃ x, r = .ok x ∧ p x := by
  cases r with
  | error f => exact .inl ⟨f, rfl, h⟩
  | ok x => exact .inr ⟨x, rfl, h⟩

theorem of_ok (h : Yields fails p r) {x : α} (hr : r = .ok x) : p x := by
  rw [hr] at h
  exact h

theorem mono (h : Yields fails p r) (hf : ∀ f, r = .error f → fails f → fails' f)
    (hp : ∀ x, r = .ok x → p x → p' x) : Yields fails' p' r := by
  cases r with
  | error f => exact hf f rfl h
  | ok x => exact hp x rfl h

/-- What a computation is used for, from its faults and its results. -/
@[elab_as_elim]
theorem elim {motive : Except Fault α → Prop} (h : Yields fails p r)
    (fault : ∀ f, fails f → motive (.error f))
      (result : ∀ x, p x → motive (.ok x)) : motive r := by
  cases r with
  | error f => exact fault f h
  | ok x => exact result x h

end Yields

/-! ## The arithmetic of layouts -/

/-- The alignment is one that shapes have, and the size is a multiple of it. -/
structure Layout.Proper (l : Layout) : Prop where
  isAlign : Word.IsAlign l.align
  dvd : l.align ∣ l.size

namespace Layout

variable {l field elem l' : Layout} {count : Nat} {f : Fault}

theorem append_eq_ok_iff_of_isPowerOfTwo (h : Word.isPowerOfTwo field.align = true) :
    l.append field = .ok l' ↔
      l.size + field.align < Word.limit ∧
        Word.roundUp l.size field.align + field.size < Word.limit ∧
        l' = ⟨Word.roundUp l.size field.align + field.size, max l.align field.align⟩ :=
          by
  unfold append
  cases hup : Word.alignUp l.size field.align with
  | error f =>
    have hno : ¬ l.size + field.align < Word.limit := by
      intro hlt
      have hok := Word.alignUp_eq_ok_iff.2 ⟨h, hlt, rfl⟩
      rw [hup] at hok
      cases hok
    simp [hno]
  | ok start =>
    obtain ⟨-, hlt, rfl⟩ := Word.alignUp_eq_ok_iff.1 hup
    simp only [hlt, true_and]
    cases hadd : Word.add (Word.roundUp l.size field.align) field.size with
    | error f =>
      have hno : ¬ Word.roundUp l.size field.align + field.size < Word.limit := by
        intro hlt
        rw [Word.add_eq_ok_iff.2 ⟨hlt, rfl⟩] at hadd
        cases hadd
      simp [hno]
    | ok size =>
      obtain ⟨hsum, rfl⟩ := Word.add_eq_ok_iff.1 hadd
      simp [hsum, eq_comm]

theorem append_eq_ok_iff (h : Word.IsAlign field.align) :
    l.append field = .ok l' ↔
      l.size + field.align < Word.limit ∧
        Word.roundUp l.size field.align + field.size < Word.limit ∧
        l' = ⟨Word.roundUp l.size field.align + field.size, max l.align field.align⟩ :=
  append_eq_ok_iff_of_isPowerOfTwo h.isPowerOfTwo

theorem append_error (h : Word.IsAlign field.align)
    (hf : l.append field = .error f) : f.Overflow := by
  unfold append at hf
  split at hf
  · rename_i hup
    obtain rfl := Except.error.inj hf
    rw [h.alignUp_error hup]
    rfl
  · split at hf
    · rename_i hadd
      obtain rfl := Except.error.inj hf
      rw [Word.add_eq_error hadd]
      rfl
    · cases hf

theorem padded_eq_ok_iff (h : Word.IsAlign l.align) :
    l.padded = .ok l' ↔
      l.size + l.align < Word.limit ∧
      l' = ⟨Word.roundUp l.size l.align, l.align⟩ := by
  have hmax : max l.align 1 = l.align := max_eq_left h.pos
  unfold padded
  rw [hmax]
  cases hup : Word.alignUp l.size l.align with
  | error f =>
    have hno : ¬ l.size + l.align < Word.limit := by
      intro hlt
      have hok := Word.alignUp_eq_ok_iff.2 ⟨h.isPowerOfTwo, hlt, rfl⟩
      rw [hup] at hok
      cases hok
    simp [hno]
  | ok size =>
    obtain ⟨-, hlt, rfl⟩ := Word.alignUp_eq_ok_iff.1 hup
    simp [hlt, eq_comm]

theorem padded_error (h : Word.IsAlign l.align)
    (hf : l.padded = .error f) : f.Overflow := by
  have hmax : max l.align 1 = l.align := max_eq_left h.pos
  unfold padded at hf
  rw [hmax] at hf
  split at hf
  · rename_i hup
    obtain rfl := Except.error.inj hf
    rw [h.alignUp_error hup]
    rfl
  · cases hf

theorem copies_eq_ok_iff :
    elem.copies count = .ok l' ↔
      count * elem.size < Word.limit ∧ l' = ⟨count * elem.size, elem.align⟩ := by
  unfold copies
  cases hmul : Word.mul count elem.size with
  | error f =>
    have hno : ¬ count * elem.size < Word.limit := by
      intro hlt
      rw [Word.mul_eq_ok_iff.2 ⟨hlt, rfl⟩] at hmul
      cases hmul
    simp [hno]
  | ok size =>
    obtain ⟨hlt, rfl⟩ := Word.mul_eq_ok_iff.1 hmul
    simp [hlt, eq_comm]

theorem copies_error (hf : elem.copies count = .error f) : f.Overflow := by
  unfold copies at hf
  split at hf
  · rename_i hmul
    obtain rfl := Except.error.inj hf
    rw [Word.mul_eq_error hmul]
    rfl
  · cases hf

/-- Fields appended one after another have an alignment of shapes, but the size is not
yet padded to it. -/
theorem append_isAlign (hl : Word.IsAlign l.align) (h : Word.IsAlign field.align)
    (hok : l.append field = .ok l') : Word.IsAlign l'.align := by
  obtain ⟨-, -, rfl⟩ := (append_eq_ok_iff h).1 hok
  exact hl.max h

theorem padded_proper (h : Word.IsAlign l.align) (hok : l.padded = .ok l') : l'.Proper := by
  obtain ⟨-, rfl⟩ := (padded_eq_ok_iff h).1 hok
  exact ⟨h, Word.dvd_roundUp _ _⟩

theorem copies_proper (h : elem.Proper) (hok : elem.copies count = .ok l') : l'.Proper := by
  obtain ⟨-, rfl⟩ := copies_eq_ok_iff.1 hok
  exact ⟨h.isAlign, Nat.dvd_mul_left_of_dvd h.dvd count⟩

theorem isAlign_empty : Word.IsAlign empty.align := .inl rfl

end Layout

theorem Scalar.layout_proper (s : Scalar) : s.layout.Proper := by
  cases s <;> exact ⟨by decide, by decide⟩

/-- A layout that a node has on its own is proper. -/
theorem Node.own_proper {node : Node} {l : Layout}
    (h : node.storage = .own l) : l.Proper := by
  have hwords : ∀ n, (Layout.words n).Proper := by
    intro n
    exact ⟨.inr (.inr (.inr rfl)), Nat.dvd_mul_left _ _⟩
  cases node with
  | scalar s =>
    obtain rfl := Storage.own.inj h
    exact s.layout_proper
  | pointer | handle =>
    obtain rfl := Storage.own.inj h
    exact hwords _
  | run form =>
    cases form with
    | fixedVec count => cases h
    | vec | unboxedVec | slice =>
      obtain rfl := Storage.own.inj h
      exact hwords _
  | record | resource | union => cases h

theorem Measure.isAlign_unionHead (u : Union) : Word.IsAlign (unionHead u).align := by
  unfold unionHead
  split
  · exact .inr (.inr (.inr rfl))
  · exact Layout.isAlign_empty

/-! ## Plain layouts are proper -/

namespace Plain

variable {t : Tables} {u : UInt16 → Except Fault Layout}

/-- A proper layout, or an overflow. -/
abbrev Good (r : Except Fault Layout) : Prop := Yields Fault.Overflow Layout.Proper r

theorem storageLayout_good {node : Node} {nested : Except Fault Layout}
    (hunion : ∀ id, node = .union id → Good (u id))
    (hnested : node.storesInline = true → Good nested) :
    Good (storageLayout u nested node.storage) := by
  rcases storage_cases node
    with ⟨l, hs⟩ | ⟨hs, hin⟩ | ⟨count, hs, hin⟩ | ⟨id, hs, rfl⟩
  · rw [hs]
    exact Node.own_proper hs
  · rw [hs]
    exact hnested hin
  · rw [hs]
    simp only [storageLayout]
    refine (hnested hin).elim (fun f hf => hf) ?_
    intro elem hproper
    simp only
    cases hcopies : elem.copies count with
    | error f => exact Layout.copies_error hcopies
    | ok l => exact Layout.copies_proper hproper hcopies
  · rw [hs]
    exact hunion id rfl

theorem range_good {o : Outline} {before : Layout} (ho : o.Sound t)
    (hbefore : Word.IsAlign before.align) (hunion : ∀ id, o.Stores id → Good (u id)) :
    Good (range u o before) := by
  induction o generalizing before with
  | done =>
    cases hpad : before.padded with
    | error f =>
      simp only [range, hpad]
      exact Layout.padded_error hbefore hpad
    | ok l =>
      simp only [range, hpad]
      exact Layout.padded_proper hbefore hpad
  | broken f => exact False.elim ho
  | cons node inner rest ihi ihr =>
    obtain ⟨-, -, hinner, hrest⟩ := ho
    have hnode : Good (storageLayout u (range u inner .empty) node.storage) :=
      storageLayout_good (fun id hid => hunion id (.inl hid)) fun hin =>
        ihi hinner Layout.isAlign_empty fun id hid => hunion id (.inr (.inl ⟨hin, hid⟩))
    unfold range
    refine hnode.elim (fun f hf => hf) ?_
    intro l hproper
    simp only
    cases happend : before.append l with
    | error f => exact Layout.append_error hproper.isAlign happend
    | ok sofar =>
      exact ihr hrest (Layout.append_isAlign hbefore hproper.isAlign happend)
        fun id hid => hunion id (.inr (.inr hid))

theorem variant_good {un : Union} {v : Nat} (hv : v < un.variants.size)
    (hsound : ∀ fields ∈ un.variants, (Outline.ofBytes fields).Sound t)
    (hunion : ∀ fields ∈ un.variants, ∀ id, (Outline.ofBytes fields).Stores id →
      Good (u id)) : Good (variant u un v) := by
  have hvariant := Union.variant_of_lt hv
  unfold variant
  rw [hvariant]
  have hmem := Union.mem_of_variant hvariant
  exact range_good (hsound _ hmem) (Measure.isAlign_unionHead un) (hunion _ hmem)

/-- The widest of some variants has an alignment of shapes, but its size need not be a
multiple of it. -/
theorem variants_good {un : Union} {vs : List UInt16} {widest : Layout}
    (hvs : ∀ v ∈ vs, v.toNat < un.variants.size) (hwidest : Word.IsAlign widest.align)
    (hvariant : ∀ v < un.variants.size, Good (variant u un v)) :
    Yields Fault.Overflow (fun l => Word.IsAlign l.align) (variants u un vs widest) := by
  induction vs generalizing widest with
  | nil => exact hwidest
  | cons v rest ih =>
    rw [List.forall_mem_cons] at hvs
    unfold variants
    refine (hvariant _ hvs.1).elim (fun f hf => hf) ?_
    intro l hproper
    exact ih hvs.2 (hwidest.max hproper.isAlign)

theorem unionLayout_good {un : Union} {widest : Layout} (h : Word.IsAlign widest.align) :
    Good (Measure.unionLayout un widest) := by
  unfold Measure.unionLayout
  split
  · exact ⟨.inl rfl, Nat.one_dvd _⟩
  · cases hup : Word.alignUp widest.size widest.align with
    | error f =>
      rw [h.alignUp_error hup]
      rfl
    | ok size =>
      obtain ⟨-, -, rfl⟩ := Word.alignUp_eq_ok_iff.1 hup
      exact ⟨h, Word.dvd_roundUp _ _⟩

theorem union_good (ht : t.Sound) {depth : Nat} {id : UInt16}
    (hid : id.toNat < t.unions.size) (hdepth : t.Nests depth id.toNat) :
    Good (union t depth id) := by
  induction depth generalizing id with
  | zero => exact False.elim hdepth
  | succ depth ih =>
    have hun := Tables.union_of_lt hid
    have hmem : t.unions[id.toNat] ∈ t.unions := Array.getElem_mem hid
    have hvariants : Yields Fault.Overflow (fun l => Word.IsAlign l.align)
        (variants (union t depth) t.unions[id.toNat] t.unions[id.toNat].hint .empty) := by
      refine variants_good (ht.hint_lt _ hmem) Layout.isAlign_empty fun v hv => ?_
      refine variant_good hv (ht.variant_sound _ hmem) fun fields hf id' hid' => ?_
      have hinside : t.Inside id'.toNat id.toNat :=
        ⟨_, id', Tables.union_eq_ok_iff.1 hun, rfl, fields, hf, hid'⟩
      exact ih (ht.lt_of_inside hinside) (hdepth _ hinside)
    unfold union unionStep
    simp only [hun]
    exact hvariants.elim (fun f hf => hf) fun widest hwidest => unionLayout_good hwidest

end Plain

namespace Tables.Verified

variable {t : Tables} (ht : t.Verified)

include ht

theorem unionLayout_good {id : UInt16} (hid : id.toNat < t.unions.size) :
    Plain.Good (t.unionLayout id) :=
  Plain.union_good ht.sound hid (ht.nests hid)

theorem rangeLayout_good {o : Outline} {before : Layout} (ho : o.Sound t)
    (hbefore : Word.IsAlign before.align) : Plain.Good (t.rangeLayout o before) :=
  Plain.range_good ho hbefore fun _ hid => ht.unionLayout_good (ho.lt_of_stores hid)

theorem nodeLayout_good {node : Node} {inner : Outline} (hids : node.IdsIn t)
    (ho : inner.Sound t) :
    Plain.Good (t.nodeLayout node inner) := by
  apply Plain.storageLayout_good
  · rintro id rfl
    exact ht.unionLayout_good hids
  · intro _
    exact ht.rangeLayout_good ho Layout.isAlign_empty

theorem nodeLayout_proper {node : Node} {inner : Outline} {l : Layout} (hids : node.IdsIn t)
    (ho : inner.Sound t) (h : t.nodeLayout node inner = .ok l) : l.Proper :=
  (ht.nodeLayout_good hids ho).of_ok h

theorem rangeLayout_proper {o : Outline} {before l : Layout} (ho : o.Sound t)
    (hbefore : Word.IsAlign before.align) (h : t.rangeLayout o before = .ok l) : l.Proper :=
  (ht.rangeLayout_good ho hbefore).of_ok h

/-- A range takes at least what stands before its nodes. -/
theorem le_rangeLayout {o : Outline} {before l : Layout} (ho : o.Sound t)
    (hbefore : Word.IsAlign before.align) (h : t.rangeLayout o before = .ok l) :
    before.size ≤ l.size ∧ before.align ≤ l.align := by
  induction o generalizing before with
  | done =>
    obtain ⟨-, rfl⟩ := (Layout.padded_eq_ok_iff hbefore).1 h
    exact ⟨Word.le_roundUp hbefore, Nat.le_refl _⟩
  | broken f => exact False.elim ho
  | cons node inner rest _ ih =>
    obtain ⟨hids, -, hinner, hrest⟩ := ho
    obtain ⟨own, sofar, hown, hsofar, hl⟩ := rangeLayout_cons_eq_ok h
    have halign := (ht.nodeLayout_proper hids hinner hown).isAlign
    have hle := ih hrest (Layout.append_isAlign hbefore halign hsofar) hl
    obtain ⟨-, -, rfl⟩ := (Layout.append_eq_ok_iff halign).1 hsofar
    have hround : before.size ≤ Word.roundUp before.size own.align :=
      Word.le_roundUp halign
    simp only at hle
    omega

/-- What is measured of a sound range is a proper layout, or leaves the machine word. -/
theorem layout_good {o : Outline} (ho : o.Sound t) : Plain.Good (o.layout t) := by
  rw [ht.layout_eq ho]
  exact ht.rangeLayout_good ho Layout.isAlign_empty

omit ht in
/-- Elements are spaced by their layout, which leaves room for a vector header. -/
theorem spacing_of_layout {o : Outline} {l : Layout} (hproper : l.Proper)
    (hl : o.layout t = .ok l) :
    o.spacing t = .ok ⟨l.size, Word.roundUp (2 * Word.size) l.align⟩ := by
  have hle := hproper.isAlign.le
  have hoffset :
      Placement.vecDataOffset l.align = .ok (Word.roundUp (2 * Word.size) l.align) := by
    refine Word.alignUp_eq_ok_iff.2 ⟨hproper.isAlign.isPowerOfTwo, ?_, rfl⟩
    unfold Word.size Word.limit
    omega
  simp only [Outline.spacing, hl, hoffset]

/-- The elements of a run are spaced unless their layout leaves the machine word. -/
theorem spacing_yields {o : Outline} (ho : o.Sound t) :
    Yields (fun f => f.Overflow ∧ o.layout t = .error f) (fun _ => True) (o.spacing t) :=
        by
  rcases (ht.layout_good ho).cases with ⟨f, hf, hover⟩ | ⟨l, hok, hproper⟩
  · simp only [Outline.spacing, hf]
    exact ⟨hover, rfl⟩
  · rw [spacing_of_layout hproper hok]
    trivial

end Tables.Verified

end ShapeCode
