import ShapeCode.Proofs.Verified

set_option autoImplicit false

/-!
# The grammar of shape bytecode

A range is a concatenation of nodes.  A node is a kind byte, its operands, and for a
composite kind the length of a nested range and the range itself (`WellFormed`).  The
grammar says nothing of offsets, of an order in which things are looked at, or of what
is left over; the verifier does all three.  It accepts a range with a number of nodes if
and only if the grammar does (`range_eq_ok_iff`).
-/

namespace ShapeCode

/-! ## Nodes and ranges -/

namespace Kind

/-- Bytes between the kind byte of a node and the length of its nested range: ids,
counts and flags. -/
def operandSize : Kind → Nat
  | .union | .resource | .slice => 2
  | .fixedVec => 3
  | .vec | .unboxedVec => 1
  | _ => 0

/-- Whether a nested range of the kind is fields, of any number. -/
def holdsFields : Kind → Bool
  | .record | .resource => true
  | _ => false

/-- The id among the operands of a node of the kind lies inside its table. -/
def IdIn (t : Tables) : Kind → (operands : Bytes) → Prop
  | .union, id => id.toNat < t.unions.size
  | .resource, id => id.toNat < t.resources.size
  | _, _ => True

end Kind

/-- The range is a concatenation of so many nodes. -/
inductive WellFormed (t : Tables) : (nodes : Nat) → Bytes → Prop where
  | nil : WellFormed t 0 []
  /-- A node without a nested range. -/
  | plain {k : Kind} {operands rest : Bytes} {n : Nat} (hk : k.isComposite = false)
      (hoperands : operands.length = k.operandSize) (hid : k.IdIn t operands)
      (hrest : WellFormed t n rest) : WellFormed t (n + 1) (k.byte :: (operands ++ rest))
  /-- A node with a nested range behind its length. -/
  | composite {k : Kind} {operands length inner rest : Bytes} {m n : Nat}
      (hk : k.isComposite = true) (hoperands : operands.length = k.operandSize)
      (hid : k.IdIn t operands) (hlength : length.length = 2)
      (hinner : inner.length = length.toNat) (hnested : WellFormed t m inner)
      (hone : k.holdsFields = false → m = 1) (hrest : WellFormed t n rest) :
      WellFormed t (n + 1) (k.byte :: (operands ++ (length ++ (inner ++ rest))))

namespace Verify

variable {t : Tables} {k : Kind} {offset count : Nat} {bs : Bytes}

/-! ## Operands -/

theorem operand_eq_ok_iff_append {n : Nat} {head rest : Bytes} :
    operand n offset bs = .ok (head, rest) ↔ bs = head ++ rest ∧ head.length = n := by
  rw [operand_eq_ok_iff, Bytes.split?_eq_some_iff]

theorem operand_append {head rest : Bytes} :
    operand head.length offset (head ++ rest) = .ok (head, rest) :=
  operand_eq_ok_iff_append.2 ⟨rfl, rfl⟩

/-- What a nested range behind flag bytes is made of. -/
theorem nest_eq_ok_iff {single : Bool} {flags : Nat} {fr : Frame} :
    nest single flags offset bs = .ok fr ↔
      ∃ operands length inner rest, bs = operands ++ (length ++ (inner ++ rest)) ∧
        operands.length = flags ∧
        length.length = 2 ∧ inner.length = length.toNat ∧
        fr = .nest single (offset + flags) inner rest := by
  constructor
  · intro h
    unfold nest at h
    split at h
    · cases h
    · rename_i hflags
      split at h
      · cases h
      · rename_i hlength
        split at h
        · cases h
        · rename_i hinner
          rw [operand_eq_ok_iff_append] at hflags hlength hinner
          obtain ⟨rfl, hflags⟩ := hflags
          obtain ⟨rfl, hlength⟩ := hlength
          obtain ⟨rfl, hinner⟩ := hinner
          exact ⟨_, _, _, _, rfl, hflags, hlength, hinner, (Except.ok.inj h).symm⟩
  · rintro ⟨operands, length, inner, rest, rfl, rfl, hlength, hinner, rfl⟩
    unfold nest
    rw [operand_append]
    simp only [← hlength, operand_append, ← hinner]

theorem idBelow_eq_ok_iff {flaw : Flaw} {rest : Bytes} :
    idBelow count flaw offset bs = .ok rest ↔
      ∃ id, bs = id ++ rest ∧ id.length = 2 ∧ id.toNat < count := by
  constructor
  · intro h
    unfold idBelow at h
    split at h
    · cases h
    · rename_i hid
      rw [operand_eq_ok_iff_append] at hid
      obtain ⟨rfl, hid⟩ := hid
      split at h
      · rename_i hlt
        obtain rfl := Except.ok.inj h
        exact ⟨_, rfl, hid, hlt⟩
      · cases h
  · rintro ⟨id, rfl, hid, hlt⟩
    unfold idBelow
    simp only [← hid, operand_append, hlt, if_true]

/-! ## Frames -/

/-- The verifier accepts the operands of a plain node that the grammar allows. -/
theorem frame_plain_iff (hk : k.isComposite = false) {fr : Frame} :
    frame t k offset bs = .ok fr ↔
      ∃ operands rest, bs = operands ++ rest ∧
        operands.length = k.operandSize ∧ k.IdIn t operands ∧
        fr = .leaf (offset + k.operandSize) rest := by
  cases k with
  | union =>
    constructor
    · intro h
      simp only [frame] at h
      split at h
      · cases h
      · rename_i hid
        obtain ⟨id, rfl, hlength, hlt⟩ := idBelow_eq_ok_iff.1 hid
        exact ⟨id, _, rfl, hlength, hlt, (Except.ok.inj h).symm⟩
    · rintro ⟨id, rest, rfl, hlength, hlt, rfl⟩
      have hid : idBelow t.unions.size .unionId offset (id ++ rest) = .ok rest :=
        idBelow_eq_ok_iff.2 ⟨id, rfl, hlength, hlt⟩
      simp only [frame, hid, Kind.operandSize]
  | scalar | callable | object | traitObject | typeDescriptor =>
    constructor
    · intro h
      exact ⟨[], bs, rfl, rfl, trivial, (Except.ok.inj h).symm⟩
    · rintro ⟨operands, rest, rfl, hlength, -, rfl⟩
      obtain rfl := List.length_eq_zero_iff.1 hlength
      rfl
  | record | resource | vec | unboxedVec | slice | fixedVec | box | uniq | borrow =>
    cases hk

theorem frame_resource_iff {fr : Frame} :
    frame t .resource offset bs = .ok fr ↔
      ∃ id length inner rest, bs = id ++ (length ++ (inner ++ rest)) ∧ id.length = 2 ∧
        id.toNat < t.resources.size ∧ length.length = 2 ∧
        inner.length = length.toNat ∧
        fr = .nest false (offset + 2) inner rest := by
  constructor
  · intro h
    simp only [frame] at h
    split at h
    · cases h
    · rename_i hid
      obtain ⟨id, rfl, hlength, hlt⟩ := idBelow_eq_ok_iff.1 hid
      obtain ⟨operands, length, inner, rest, rfl, hnone, hlength', hinner, rfl⟩ :=
        nest_eq_ok_iff.1 h
      obtain rfl := List.length_eq_zero_iff.1 hnone
      exact ⟨id, length, inner, rest, rfl, hlength, hlt, hlength', hinner, rfl⟩
  · rintro ⟨id, length, inner, rest, rfl, hlength, hlt, hlength', hinner, rfl⟩
    have hid : idBelow t.resources.size .resourceId offset
        (id ++ (length ++ (inner ++ rest))) =
        .ok (length ++ (inner ++ rest)) := idBelow_eq_ok_iff.2 ⟨id, rfl, hlength, hlt⟩
    simp only [frame, hid]
    exact nest_eq_ok_iff.2 ⟨[], length, inner, rest, rfl, rfl, hlength', hinner, rfl⟩

/-- The operands of a fixed vector are the count and the flag behind it. -/
theorem frame_fixedVec_iff {fr : Frame} :
    frame t .fixedVec offset bs = .ok fr ↔
      ∃ operands length inner rest, bs = operands ++ (length ++ (inner ++ rest)) ∧
        operands.length = 3 ∧
        length.length = 2 ∧ inner.length = length.toNat ∧
        fr = .nest true (offset + 3) inner rest := by
  constructor
  · intro h
    simp only [frame] at h
    split at h
    · cases h
    · rename_i hcount
      rw [operand_eq_ok_iff_append] at hcount
      obtain ⟨rfl, hcount⟩ := hcount
      obtain ⟨flag, length, inner, rest, rfl, hflag, hlength, hinner, rfl⟩ :=
        nest_eq_ok_iff.1 h
      refine ⟨_ ++ flag, length, inner, rest, (List.append_assoc _ _ _).symm,
        ?_, hlength, hinner, rfl⟩
      rw [List.length_append, hcount, hflag]
  · rintro ⟨operands, length, inner, rest, rfl, hlength, hlength', hinner, rfl⟩
    have hcount : (operands.take 2).length = 2 := by
      rw [List.length_take, hlength]
      rfl
    have hflag : (operands.drop 2).length = 1 := by
      rw [List.length_drop, hlength]
    have hsplit : operand 2 offset (operands ++ (length ++ (inner ++ rest))) =
        .ok (operands.take 2, operands.drop 2 ++ (length ++ (inner ++ rest))) := by
      refine operand_eq_ok_iff_append.2 ⟨?_, hcount⟩
      rw [← List.append_assoc (operands.take 2), List.take_append_drop]
    simp only [frame, hsplit]
    exact nest_eq_ok_iff.2 ⟨_, length, inner, rest, rfl, hflag, hlength', hinner, rfl⟩

/-- The verifier accepts what comes before the nested range of a composite node that the
grammar allows. -/
theorem frame_composite_iff (hk : k.isComposite = true) {fr : Frame} :
    frame t k offset bs = .ok fr ↔
      ∃ operands length inner rest, bs = operands ++ (length ++ (inner ++ rest)) ∧
        operands.length = k.operandSize ∧ k.IdIn t operands ∧ length.length = 2 ∧
        inner.length = length.toNat ∧
        fr = .nest (!k.holdsFields) (offset + k.operandSize) inner rest := by
  cases k with
  | record | box | uniq | borrow | vec | unboxedVec | slice =>
    simp only [frame, Kind.operandSize, Kind.IdIn, Kind.holdsFields, nest_eq_ok_iff,
      true_and, Bool.not_true, Bool.not_false]
  | resource => exact frame_resource_iff
  | fixedVec =>
    simp only [frame_fixedVec_iff, Kind.operandSize, Kind.IdIn, Kind.holdsFields,
      true_and, Bool.not_false]
  | union | scalar | callable | object | traitObject | typeDescriptor => cases hk

/-! ## Ranges -/

/-- What the verifier accepts is well formed, with as many nodes as it counted. -/
theorem wellFormed_of_range {n : Nat} (h : range t bs offset count = .ok n) :
    ∃ m, n = count + m ∧ WellFormed t m bs := by
  fun_induction range t bs offset count generalizing n with
  | case1 offset count =>
    obtain rfl := Except.ok.inj h
    exact ⟨0, rfl, .nil⟩
  | case2 offset count b operands hk => cases h
  | case3 offset count b operands k hk d hd => cases h
  | case4 offset count b operands k hk next rest hf ih =>
    obtain ⟨m, rfl, hrest⟩ := ih h
    obtain rfl := Kind.byte_of_ofByte? hk
    have hplain : k.isComposite = false := by
      cases hcomposite : k.isComposite with
      | false => rfl
      | true =>
        obtain ⟨_, _, _, _, -, -, -, -, -, hnest⟩ :=
          (frame_composite_iff hcomposite).1 hf
        cases hnest
    obtain ⟨ids, _, rfl, hlength, hid, hleaf⟩ := (frame_plain_iff hplain).1 hf
    obtain ⟨-, rfl⟩ := Frame.leaf.inj hleaf
    exact ⟨m + 1, by omega, .plain hplain hlength hid hrest⟩
  | case5 offset count b operands k hk single start inner rest hf d hd ih => cases h
  | case6 offset count b operands k hk single start inner rest hf nodes hn hbad ih =>
    cases h
  | case7 offset count b operands k hk single start inner rest hf nodes hn hgood ih1 ih2 =>
    obtain ⟨nested, hnodes, hnested⟩ := ih1 hn
    obtain ⟨m, rfl, hrest⟩ := ih2 h
    obtain rfl := Kind.byte_of_ofByte? hk
    have hcomposite : k.isComposite = true := by
      cases hplain : k.isComposite with
      | true => rfl
      | false =>
        obtain ⟨_, _, -, -, -, hleaf⟩ := (frame_plain_iff hplain).1 hf
        cases hleaf
    obtain ⟨ids, length, _, _, rfl, hids, hid, hlength, hinner, hnest⟩ :=
      (frame_composite_iff hcomposite).1 hf
    obtain ⟨rfl, -, rfl, rfl⟩ := Frame.nest.inj hnest
    refine ⟨m + 1,
      by omega, .composite hcomposite hids hid hlength hinner hnested ?_ hrest⟩
    intro hfields
    simp only [hfields, Bool.not_false, Bool.true_and, bne_iff_ne, ne_eq,
      Decidable.not_not] at hgood
    omega

/-- What is well formed the verifier accepts, counting its nodes. -/
theorem range_of_wellFormed {m : Nat} (h : WellFormed t m bs) :
    range t bs offset count = .ok (count + m) := by
  induction h generalizing offset count with
  | nil =>
    rw [range]
    rfl
  | @plain k operands rest n hk hoperands hid _ ih =>
    have hframe : frame t k (offset + 1) (operands ++ rest) =
        .ok (.leaf (offset + 1 + k.operandSize) rest) :=
      (frame_plain_iff hk).2 ⟨operands, rest, rfl, hoperands, hid, rfl⟩
    rw [range]
    simp only [Kind.ofByte?_byte]
    split
    · rename_i hd
      cases hframe.symm.trans hd
    · rename_i hleaf
      obtain ⟨rfl, rfl⟩ := Frame.leaf.inj (Except.ok.inj (hframe.symm.trans hleaf))
      rw [ih]
      congr 1
      omega
    · rename_i hnest
      cases Except.ok.inj (hframe.symm.trans hnest)
  | @composite k operands length inner rest m n hk hoperands hid hlength hinner _
      hone _ ihInner ihRest =>
    have hframe : frame t k (offset + 1) (operands ++ (length ++ (inner ++ rest))) =
        .ok (.nest (!k.holdsFields) (offset + 1 + k.operandSize) inner rest) :=
      (frame_composite_iff hk).2 ⟨operands, length, inner, rest, rfl, hoperands,
        hid, hlength, hinner, rfl⟩
    rw [range]
    simp only [Kind.ofByte?_byte]
    split
    · rename_i hd
      cases hframe.symm.trans hd
    · rename_i hleaf
      cases Except.ok.inj (hframe.symm.trans hleaf)
    · rename_i hnest
      obtain ⟨rfl, rfl, rfl, rfl⟩ :=
        Frame.nest.inj (Except.ok.inj (hframe.symm.trans hnest))
      have hsingle : (!k.holdsFields && m != 1) = false := by
        cases hfields : k.holdsFields with
        | true => rfl
        | false =>
          obtain rfl := hone hfields
          rfl
      simp only [ihInner, Nat.zero_add, hsingle, Bool.false_eq_true, if_false, ihRest]
      congr 1
      omega

/-- The verifier accepts a range with a number of nodes if and only if the range is well
formed with as many. -/
theorem range_eq_ok_iff {n : Nat} : range t bs offset 0 = .ok n ↔ WellFormed t n bs := by
  constructor
  · intro h
    obtain ⟨m, rfl, hm⟩ := wellFormed_of_range h
    rw [Nat.zero_add]
    exact hm
  · intro h
    rw [range_of_wellFormed h, Nat.zero_add]

end Verify

end ShapeCode
