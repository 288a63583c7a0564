import ShapeCode.Emit
import ShapeCode.Proofs.CycleSearch
import ShapeCode.Proofs.Grammar

set_option autoImplicit false

/-!
# Where a malformed range is at fault

The verifier counts offsets from the start of the outermost range, at every depth.  The
ranges it comes to are those that lie behind well-formed nodes of a range it came to
before (`NestedAt`), and what it finds wrong lies in the one it is in, behind
well-formed nodes (`RangeFlaw`).  Where such a range starts and where in it the flaw is
add up to the offset that is reported (`exists_flaw_of_range`).

What a flaw means for the bytes at its offset (`Flaw.ShowsAt`) then no longer mentions
how they are nested, but for an operand that is cut off: it is the innermost range
that ends too early.
-/

namespace ShapeCode

/-! ## What is read of a node -/

/-- What is read one after another behind a kind byte: ids, counts, flags, and the
length of a nested range, each with the bytes before it and its own. -/
def Kind.parts : Kind → List (Nat × Nat)
  | .union => [(0, 2)]
  | .resource | .slice => [(0, 2), (2, 2)]
  | .fixedVec => [(0, 2), (2, 1), (3, 2)]
  | .vec | .unboxedVec => [(0, 1), (1, 2)]
  | .record | .box | .uniq | .borrow => [(0, 2)]
  | .scalar _ | .callable _ | .object | .traitObject | .typeDescriptor => []

/-- Behind the kind byte and the operands read so far, the node goes on with so many
bytes: with its next operand, or with its nested range. -/
inductive Kind.Needs (k : Kind) : (read : Bytes) → (need : Nat) → Prop where
  | operand {read : Bytes} {need : Nat} (hpart : (read.length, need) ∈ k.parts) :
      k.Needs read need
  | nested {operands length : Bytes} (hk : k.isComposite = true)
      (hoperands : operands.length = k.operandSize) (hlength : length.length = 2) :
      k.Needs (operands ++ length) length.toNat

/-- What is wrong behind a kind byte, and how far behind it. -/
inductive OperandFlaw (t : Tables) : Kind → Bytes → (pos : Nat) → Flaw → Prop where
  | unionId {id rest : Bytes} (hid : id.length = 2) (hout : t.unions.size ≤ id.toNat) :
      OperandFlaw t .union (id ++ rest) 0 .unionId
  | resourceId {id rest : Bytes} (hid : id.length = 2)
      (hout : t.resources.size ≤ id.toNat) :
      OperandFlaw t .resource (id ++ rest) 0 .resourceId
  | pastEnd {k : Kind} {read rest : Bytes} {need : Nat} (hneeds : k.Needs read need)
      (hshort : rest.length < need) : OperandFlaw t k (read ++ rest) read.length .pastEnd

/-! ## Ranges in ranges -/

/-- The first thing wrong in a range, outside its nested ranges. -/
inductive RangeFlaw (t : Tables) : Bytes → (pos : Nat) → Flaw → Prop where
  | unknownKind {front rest : Bytes} {n : Nat} {b : UInt8} (hfront : WellFormed t n front)
      (hb : Kind.ofByte? b = none) :
      RangeFlaw t (front ++ b :: rest) front.length .unknownKind
  | operands {front bs : Bytes} {n pos : Nat} {k : Kind} {flaw : Flaw}
      (hfront : WellFormed t n front) (h : OperandFlaw t k bs pos flaw) :
      RangeFlaw t (front ++ k.byte :: bs) (front.length + 1 + pos) flaw
  | notSingle {front operands length inner rest : Bytes} {n m : Nat} {k : Kind}
      (hfront : WellFormed t n front) (hk : k.isComposite = true)
      (hone : k.holdsFields = false) (hoperands : operands.length = k.operandSize)
      (hlength : length.length = 2) (hinner : inner.length = length.toNat)
      (hnested : WellFormed t m inner) (hm : m ≠ 1) :
      RangeFlaw t (front ++ k.byte :: (operands ++ (length ++ (inner ++ rest))))
        (front.length + 1 + k.operandSize) .notSingle

/-- The range lies in `outer`, `start` bytes from its front: it is `outer`, or nested
behind well-formed nodes. -/
inductive NestedAt (t : Tables) (outer : Bytes) :
    (start : Nat) → (range : Bytes) → Prop where
  | whole : NestedAt t outer 0 outer
  | inside {front operands length inner rest : Bytes} {start n : Nat} {k : Kind}
      (h : NestedAt t outer start
        (front ++ k.byte :: (operands ++ (length ++ (inner ++ rest)))))
      (hfront : WellFormed t n front) (hk : k.isComposite = true)
      (hoperands : operands.length = k.operandSize) (hlength : length.length = 2)
      (hinner : inner.length = length.toNat) :
      NestedAt t outer (start + front.length + 1 + k.operandSize + 2) inner

/-- What a flaw says about the bytes at its offset. -/
def Flaw.ShowsAt (t : Tables) (bs : Bytes) (offset : Nat) : Flaw → Prop
  | .unknownKind => ∃ b, bs[offset]? = some b ∧ Kind.ofByte? b = none
  | .unionId =>
    ∃ id rest, bs.drop offset = id ++ rest ∧ id.length = 2 ∧
      t.unions.size ≤ Bytes.toNat id
  | .resourceId =>
    ∃ id rest, bs.drop offset = id ++ rest ∧ id.length = 2 ∧
      t.resources.size ≤ Bytes.toNat id
  | .notSingle =>
    ∃ length inner rest m, bs.drop offset = length ++ (inner ++ rest) ∧
      length.length = 2 ∧
      inner.length = Bytes.toNat length ∧ WellFormed t m inner ∧ m ≠ 1
  | .pastEnd =>
    ∃ (start : Nat) (front : Bytes) (n : Nat) (k : Kind) (read : Bytes)
      (need : Nat) (rest : Bytes),
      NestedAt t bs start (front ++ k.byte :: (read ++ rest)) ∧
        WellFormed t n front ∧ k.Needs read need ∧
        rest.length < need ∧ offset = start + front.length + 1 + read.length
  | .rootNotSingle => offset = 0 ∧ ∃ m, WellFormed t m bs ∧ m ≠ 1

variable {t : Tables}

theorem WellFormed.append {m n : Nat} {front bs : Bytes} (hfront : WellFormed t m front)
    (h : WellFormed t n bs) :
    WellFormed t (m + n) (front ++ bs) := by
  induction hfront with
  | nil => simpa using h
  | @plain k operands rest m hk hoperands hid _ ih =>
    have hnode := WellFormed.plain hk hoperands hid ih
    simpa [Nat.add_right_comm] using hnode
  | @composite k operands length inner rest _ m hk hoperands hid hlength
      hinner hnested hone _ _ ih =>
    have hnode := WellFormed.composite hk hoperands hid hlength hinner hnested hone ih
    simpa [Nat.add_right_comm] using hnode

theorem RangeFlaw.pos_le {bs : Bytes} {pos : Nat} {flaw : Flaw}
    (h : RangeFlaw t bs pos flaw) : pos ≤ bs.length := by
  cases h with
  | unknownKind => simp
  | operands _ h =>
    cases h <;> simp; omega
  | notSingle _ _ _ hoperands =>
    simp [hoperands]
    omega

/-- A nested range is a part of the outer one, and stands where it is said to start. -/
theorem NestedAt.exists_append {outer range : Bytes} {start : Nat}
    (h : NestedAt t outer start range) :
    ∃ before after, outer = before ++ (range ++ after) ∧ before.length = start := by
  induction h with
  | whole => exact ⟨[], [], by simp, rfl⟩
  | @inside front operands length inner rest start _ k _ _ _ hoperands hlength _ ih =>
    obtain ⟨before, after, rfl, rfl⟩ := ih
    refine ⟨before ++ (front ++ k.byte :: (operands ++ length)),
      rest ++ after, by simp, ?_⟩
    simp [hoperands, hlength]
    omega

/-- What a nested range holds somewhere, the outer one holds as much further on. -/
theorem NestedAt.drop {outer range : Bytes} {start pos : Nat}
    (h : NestedAt t outer start range) (hpos : pos ≤ range.length) :
    start + pos ≤ outer.length ∧
      ∃ after, outer.drop (start + pos) = range.drop pos ++ after := by
  obtain ⟨before, after, rfl, rfl⟩ := h.exists_append
  refine ⟨?_, after, ?_⟩
  · simp only [List.length_append]
    omega
  · rw [List.drop_append, List.drop_of_length_le (Nat.le_add_right _ _), List.nil_append,
      Nat.add_sub_cancel_left, List.drop_append_of_le_length hpos]

/-- The flaw of a nested range shows in the outer one. -/
theorem RangeFlaw.showsAt {outer range : Bytes} {start pos : Nat} {flaw : Flaw}
    (hnested : NestedAt t outer start range) (h : RangeFlaw t range pos flaw) :
    flaw.ShowsAt t outer (start + pos) := by
  obtain ⟨-, after, hdrop⟩ := hnested.drop h.pos_le
  cases h with
  | @unknownKind front rest n b hfront hb =>
    rw [List.drop_left] at hdrop
    refine ⟨b, ?_, hb⟩
    rw [← List.head?_drop, hdrop]
    rfl
  | @operands front bs n pos k flaw hfront h =>
    have hread : (front ++ k.byte :: bs).drop (front.length + 1 + pos) = bs.drop pos := by
      rw [Nat.add_assoc, List.drop_append, List.drop_of_length_le (Nat.le_add_right _ _),
        List.nil_append, Nat.add_sub_cancel_left, Nat.add_comm 1 pos, List.drop_succ_cons]
    rw [hread] at hdrop
    cases h with
    | @unionId id rest hid hout =>
      exact ⟨id, rest ++ after, by simpa using hdrop, hid, hout⟩
    | @resourceId id rest hid hout =>
      exact ⟨id, rest ++ after, by simpa using hdrop, hid, hout⟩
    | @pastEnd _ read rest need hneeds hshort =>
      exact ⟨start, front, n, k, read, need, rest, hnested, hfront,
        hneeds, hshort, by omega⟩
  | @notSingle front operands length inner rest n m k hfront hk hone hoperands
      hlength hinner hwell hm =>
    have hread : (front ++ k.byte :: (operands ++ (length ++ (inner ++ rest)))).drop
        (front.length + 1 + k.operandSize) = length ++ (inner ++ rest) := by
      rw [← hoperands, Nat.add_assoc,
        List.drop_append, List.drop_of_length_le (Nat.le_add_right _ _), List.nil_append,
        Nat.add_sub_cancel_left, Nat.add_comm 1, List.drop_succ_cons, List.drop_left]
    rw [hread] at hdrop
    exact ⟨length, inner, rest ++ after, m,
      by simpa using hdrop, hlength, hinner, hwell, hm⟩

namespace Verify

/-! ## Operands -/

variable {k : Kind} {offset count : Nat} {bs : Bytes} {d : Defect}

theorem operand_eq_error {n : Nat} (h : operand n offset bs = .error d) :
    bs.length < n ∧ d = ⟨offset, .pastEnd⟩ := by
  unfold operand at h
  split at h
  · cases h
  · rename_i hnone
    exact ⟨Bytes.split?_eq_none_iff.1 hnone, (Except.error.inj h).symm⟩

/-- The first operand is cut off. -/
theorem operandFlaw_of_first {need : Nat} (hpart : (0, need) ∈ k.parts)
    (hshort : bs.length < need) : OperandFlaw t k bs 0 .pastEnd := by
  have hneeds : k.Needs [] need := .operand hpart
  exact @OperandFlaw.pastEnd t k [] bs need hneeds hshort

theorem idBelow_eq_error {flaw : Flaw} (h : idBelow count flaw offset bs = .error d) :
    (bs.length < 2 ∧ d = ⟨offset, .pastEnd⟩) ∨
      ∃ id rest, bs = id ++ rest ∧ id.length = 2 ∧ count ≤ id.toNat ∧
        d = ⟨offset, flaw⟩ := by
  unfold idBelow at h
  split at h
  · rename_i hshort
    obtain rfl := Except.error.inj h
    exact .inl (operand_eq_error hshort)
  · rename_i hid
    rw [operand_eq_ok_iff_append] at hid
    obtain ⟨rfl, hid⟩ := hid
    split at h
    · cases h
    · rename_i hout
      exact .inr ⟨_, _, rfl, hid, Nat.le_of_not_lt hout, (Except.error.inj h).symm⟩

/-- A nested range that is cut off, behind the `n` operand bytes in `front`. -/
theorem operandFlaw_of_nest {front : Bytes} {single : Bool} {n flags : Nat}
    (hfront : front.length = n) (hk : k.isComposite = true)
    (hsize : k.operandSize = n + flags) (hflags : flags = 0 ∨ (n, flags) ∈ k.parts)
    (hlength : (k.operandSize, 2) ∈ k.parts)
    (h : nest single flags (offset + n) bs = .error d) :
    ∃ pos, OperandFlaw t k (front ++ bs) pos d.flaw ∧ d.offset = offset + pos := by
  subst hfront
  unfold nest at h
  split at h
  · rename_i hcut
    obtain rfl := Except.error.inj h
    obtain ⟨hshort, rfl⟩ := operand_eq_error hcut
    have hpart : (front.length, flags) ∈ k.parts := hflags.resolve_left (by omega)
    exact ⟨front.length, .pastEnd (.operand hpart) hshort, rfl⟩
  · rename_i flagBytes _ hread
    rw [operand_eq_ok_iff_append] at hread
    obtain ⟨rfl, hread⟩ := hread
    have hoperands : (front ++ flagBytes).length = k.operandSize := by
      rw [List.length_append, hread, hsize]
    split at h
    · rename_i hcut
      obtain rfl := Except.error.inj h
      obtain ⟨hshort, rfl⟩ := operand_eq_error hcut
      rw [← hoperands] at hlength
      have hflaw : OperandFlaw t k _ _ .pastEnd := .pastEnd (.operand hlength) hshort
      refine ⟨_, by simpa using hflaw, ?_⟩
      simp only [hread]
      omega
    · rename_i length _ hword
      rw [operand_eq_ok_iff_append] at hword
      obtain ⟨rfl, hword⟩ := hword
      split at h
      · rename_i hcut
        obtain rfl := Except.error.inj h
        obtain ⟨hshort, rfl⟩ := operand_eq_error hcut
        have hflaw : OperandFlaw t k _ _ .pastEnd :=
          .pastEnd (.nested hk hoperands hword) hshort
        refine ⟨_, by simpa using hflaw, ?_⟩
        simp only [hread, hword]
        omega
      · cases h

/-- What the verifier refuses behind a kind byte is wrong there. -/
theorem operandFlaw_of_frame (h : frame t k offset bs = .error d) :
    ∃ pos, OperandFlaw t k bs pos d.flaw ∧ d.offset = offset + pos := by
  cases k with
  | union =>
    simp only [frame] at h
    split at h
    · rename_i hid
      obtain rfl := Except.error.inj h
      rcases idBelow_eq_error hid
        with ⟨hshort, rfl⟩ | ⟨id, rest, rfl, hlength, hout, rfl⟩
      · exact ⟨0, operandFlaw_of_first (by decide) hshort, rfl⟩
      · exact ⟨0, .unionId hlength hout, rfl⟩
    · cases h
  | resource =>
    simp only [frame] at h
    split at h
    · rename_i hid
      obtain rfl := Except.error.inj h
      rcases idBelow_eq_error hid
        with ⟨hshort, rfl⟩ | ⟨id, rest, rfl, hlength, hout, rfl⟩
      · exact ⟨0, operandFlaw_of_first (by decide) hshort, rfl⟩
      · exact ⟨0, .resourceId hlength hout, rfl⟩
    · rename_i hid
      obtain ⟨id, rfl, hlength, -⟩ := idBelow_eq_ok_iff.1 hid
      exact operandFlaw_of_nest hlength rfl rfl (.inl rfl) (by decide) h
  | fixedVec =>
    simp only [frame] at h
    split at h
    · rename_i hcount
      obtain rfl := Except.error.inj h
      obtain ⟨hshort, rfl⟩ := operand_eq_error hcount
      exact ⟨0, operandFlaw_of_first (by decide) hshort, rfl⟩
    · rename_i hcount
      rw [operand_eq_ok_iff_append] at hcount
      obtain ⟨rfl, hcount⟩ := hcount
      exact operandFlaw_of_nest hcount rfl rfl (.inr (by decide)) (by decide) h
  | vec | unboxedVec | slice =>
    have hnone : ([] : Bytes).length = 0 := rfl
    exact operandFlaw_of_nest hnone rfl rfl (.inr (by decide)) (by decide) h
  | record | box | uniq | borrow =>
    have hnone : ([] : Bytes).length = 0 := rfl
    exact operandFlaw_of_nest hnone rfl rfl (.inl rfl) (by decide) h
  | scalar | callable | object | traitObject | typeDescriptor => cases h

/-- A frame without a nested range is that of a plain kind. -/
theorem plain_of_leaf {next : Nat} {rest : Bytes}
    (h : frame t k offset bs = .ok (.leaf next rest)) :
    k.isComposite = false ∧ ∃ operands, bs = operands ++ rest ∧
      operands.length = k.operandSize ∧
      k.IdIn t operands ∧ next = offset + k.operandSize := by
  cases hk : k.isComposite with
  | true =>
    obtain ⟨_, _, _, _, -, -, -, -, -, hnest⟩ := (frame_composite_iff hk).1 h
    cases hnest
  | false =>
    obtain ⟨operands, _, hbs, hlength, hid, hleaf⟩ := (frame_plain_iff hk).1 h
    obtain ⟨rfl, rfl⟩ := Frame.leaf.inj hleaf
    exact ⟨rfl, operands, hbs, hlength, hid, rfl⟩

/-- A frame with a nested range is that of a composite kind. -/
theorem composite_of_nest {single : Bool} {start : Nat} {inner rest : Bytes}
    (h : frame t k offset bs = .ok (.nest single start inner rest)) :
    k.isComposite = true ∧
      ∃ operands length, bs = operands ++ (length ++ (inner ++ rest)) ∧
      operands.length = k.operandSize ∧ k.IdIn t operands ∧ length.length = 2 ∧
      inner.length = Bytes.toNat length ∧
      single = (!k.holdsFields) ∧ start = offset + k.operandSize := by
  cases hk : k.isComposite with
  | true =>
    obtain ⟨operands, length, _, _, hbs, hoperands, hid, hlength, hinner, hnest⟩ :=
      (frame_composite_iff hk).1 h
    obtain ⟨rfl, rfl, rfl, rfl⟩ := Frame.nest.inj hnest
    exact ⟨rfl, operands, length, hbs, hoperands, hid, hlength, hinner, rfl, rfl⟩
  | false =>
    obtain ⟨_, _, -, -, -, hleaf⟩ := (frame_plain_iff hk).1 h
    cases hleaf

/-! ## Ranges -/

/-- The flaw of a range that is refused lies in a range nested in it, at the offset that
is reported.  The bytes still to be looked at stand in `outer`, behind well-formed nodes
of the range they belong to. -/
theorem exists_flaw_of_range (h : range t bs offset count = .error d) {outer front : Bytes}
    {start n : Nat} (hnested : NestedAt t outer start (front ++ bs))
    (hfront : WellFormed t n front) (hoffset : offset = start + front.length) :
    ∃ start' range' pos, NestedAt t outer start' range' ∧
      RangeFlaw t range' pos d.flaw ∧ d.offset = start' + pos := by
  fun_induction range t bs offset count generalizing start front n with
  | case1 offset count => cases h
  | case2 offset count b operands hk =>
    obtain rfl := Except.error.inj h
    exact ⟨start, _, front.length, hnested, .unknownKind hfront hk, hoffset⟩
  | case3 offset count b operands k hk d' hd =>
    obtain rfl := Except.error.inj h
    obtain rfl := Kind.byte_of_ofByte? hk
    obtain ⟨pos, hflaw, hpos⟩ := operandFlaw_of_frame hd
    refine ⟨start, _, front.length + 1 + pos, hnested, .operands hfront hflaw, ?_⟩
    omega
  | case4 offset count b operands k hk next rest hf ih =>
    obtain rfl := Kind.byte_of_ofByte? hk
    obtain ⟨hplain, ids, rfl, hids, hid, rfl⟩ := plain_of_leaf hf
    have hnode : WellFormed t 1 (k.byte :: (ids ++ [])) := .plain hplain hids hid .nil
    refine ih h (by simpa using hnested) (hfront.append hnode) ?_
    simp [hids]
    omega
  | case5 offset count b operands k hk single start' inner rest hf d' hd ih =>
    obtain rfl := Except.error.inj h
    obtain rfl := Kind.byte_of_ofByte? hk
    obtain ⟨hcomposite, ids, length, rfl, hids, hid, hlength, hinner, -, rfl⟩ :=
      composite_of_nest hf
    have hinside : NestedAt t outer _ ([] ++ inner) :=
      .inside hnested hfront hcomposite hids hlength hinner
    refine ih hd hinside .nil ?_
    simp only [List.length_nil]
    omega
  | case6 offset count b operands k hk single start' inner rest hf nodes hn hbad ih =>
    obtain rfl := Except.error.inj h
    obtain rfl := Kind.byte_of_ofByte? hk
    obtain ⟨hcomposite, ids, length, rfl, hids, hid, hlength, hinner, rfl, rfl⟩ :=
      composite_of_nest hf
    simp only [Bool.and_eq_true, Bool.not_eq_true', bne_iff_ne, ne_eq] at hbad
    have hwell : WellFormed t nodes inner := range_eq_ok_iff.1 hn
    refine ⟨start, _, _, hnested,
      .notSingle hfront hcomposite hbad.1 hids hlength hinner hwell hbad.2, ?_⟩
    simp only
    omega
  | case7 offset count b operands k hk single start' inner rest hf nodes hn hgood ih1 ih2 =>
    obtain rfl := Kind.byte_of_ofByte? hk
    obtain ⟨hcomposite, ids, length, rfl, hids, hid, hlength, hinner, rfl, rfl⟩ :=
      composite_of_nest hf
    have hwell : WellFormed t nodes inner := range_eq_ok_iff.1 hn
    have hone : k.holdsFields = false → nodes = 1 := by
      intro hfields
      simpa [hfields] using hgood
    have hnode : WellFormed t 1 (k.byte :: (ids ++ (length ++ (inner ++ [])))) :=
      .composite hcomposite hids hid hlength hinner hwell hone .nil
    refine ih2 h (by simpa using hnested) (hfront.append hnode) ?_
    simp [hids, hlength]
    omega

/-! ## Hints and variants -/

/-- A hint that is refused is not a malformed range. -/
theorem hints_not_malformed {id : Nat} {us : List Union} {place : Place} {flaw : Flaw} :
    hints id us ≠ .error (.malformed place offset flaw) := by
  induction us generalizing id with
  | nil => simp [hints]
  | cons u rest ih =>
    unfold hints hint
    split
    · rename_i e he
      split at he
      · simp [← Except.error.inj he]
      · split at he
        · simp [← Except.error.inj he]
        · cases he
    · exact ih

theorem rangeAt_eq_ok_iff {place : Place} {n : Nat} :
    rangeAt t place bs = .ok n ↔ WellFormed t n bs := by
  rw [← @range_eq_ok_iff t 0 bs n]
  unfold rangeAt
  cases range t bs 0 0 with
  | error d => simp
  | ok m => simp

/-- The first variant that is refused stands behind variants that are accepted. -/
theorem variants_eq_error {id v : Nat} {fs : List Bytes} {e : LoadError}
    (h : variants t id v fs = .error e) :
    ∃ i fields, fs[i]? = some fields ∧
      rangeAt t (.variant id (v + i)) fields = .error e ∧
      ∀ j < i, ∀ fields', fs[j]? = some fields' → ∃ n, WellFormed t n fields' := by
  induction fs generalizing v with
  | nil => cases h
  | cons fields rest ih =>
    simp only [variants] at h
    split at h
    · rename_i hfields
      obtain rfl := Except.error.inj h
      exact ⟨0, fields, rfl, hfields, fun j hj => absurd hj (Nat.not_lt_zero j)⟩
    · rename_i n hfields
      obtain ⟨i, bad, hi, hbad, hbefore⟩ := ih h
      refine ⟨i + 1, bad, hi,
        by rwa [Nat.add_assoc, Nat.add_comm 1] at hbad, fun j hj fields' hj' => ?_⟩
      cases j with
      | zero =>
        obtain rfl := Option.some.inj hj'
        exact ⟨n, rangeAt_eq_ok_iff.1 hfields⟩
      | succ j => exact hbefore j (Nat.lt_of_succ_lt_succ hj) fields' hj'

/-- The first union with a variant that is refused stands behind unions whose
variants are accepted. -/
theorem unions_eq_error {id : Nat} {us : List Union} {e : LoadError}
    (h : unions t id us = .error e) :
    ∃ i u, us[i]? = some u ∧ variants t (id + i) 0 u.variants.toList = .error e ∧
      ∀ j < i, ∀ u', us[j]? = some u' →
        ∀ fields ∈ u'.variants, ∃ n, WellFormed t n fields := by
  induction us generalizing id with
  | nil => cases h
  | cons u rest ih =>
    simp only [unions] at h
    split at h
    · rename_i hu
      obtain rfl := Except.error.inj h
      exact ⟨0, u, rfl, hu, fun j hj => absurd hj (Nat.not_lt_zero j)⟩
    · rename_i hu
      obtain ⟨i, bad, hi, hbad, hbefore⟩ := ih h
      refine ⟨i + 1, bad, hi,
        by rwa [Nat.add_assoc, Nat.add_comm 1] at hbad, fun j hj u' hj' => ?_⟩
      cases j with
      | zero =>
        obtain rfl := Option.some.inj hj'
        intro fields hfields
        obtain ⟨n, hn⟩ :=
          variants_eq_ok_iff.1 hu fields (Array.mem_toList_iff.2 hfields)
        exact ⟨n, range_eq_ok_iff.1 hn⟩
      | succ j => exact hbefore j (Nat.lt_of_succ_lt_succ hj) u' hj'

end Verify

/-! ## Descriptors -/

/-- The range is checked before the other one: the root before all variants, and these
in the order of the table. -/
def Place.Before : Place → Place → Prop
  | .root, .variant _ _ => True
  | .variant u v, .variant u' v' => u < u' ∨ (u = u' ∧ v < v')
  | _, .root => False

/-- The range is what it has to be at the place: the root one node, a variant any number. -/
def Place.Accepts (t : Tables) : Place → Bytes → Prop
  | .root, bs => WellFormed t 1 bs
  | .variant _ _, bs => ∃ n, WellFormed t n bs

/-- The bytes of a range of a descriptor. -/
def Descriptor.bytesAt? (d : Descriptor) : Place → Option Bytes
  | .root => some d.shape
  | .variant u v =>
    match d.tables.unions[u]? with
    | some union => union.variants[v]?
    | none => none

/-- The range is the first of a descriptor that is not what it has to be. -/
structure Descriptor.FirstMalformed (d : Descriptor) (place : Place)
    (bs : Bytes) : Prop where
  bytes : d.bytesAt? place = some bs
  malformed : ¬ place.Accepts d.tables bs
  earlier : ∀ p bs', p.Before place → d.bytesAt? p = some bs' → p.Accepts d.tables bs'

namespace Verify

/-- A range that is refused in itself is not well formed, and its flaw shows at the
offset that is reported. -/
theorem showsAt_of_rangeAt {place p : Place} {offset : Nat} {flaw : Flaw} {bs : Bytes}
    (h : rangeAt t p bs = .error (.malformed place offset flaw)) :
    place = p ∧ (∀ n, ¬ WellFormed t n bs) ∧ offset ≤ bs.length ∧
      flaw.ShowsAt t bs offset ∧
      ∃ start range pos, NestedAt t bs start range ∧ RangeFlaw t range pos flaw ∧
        offset = start + pos := by
  unfold rangeAt at h
  split at h
  · rename_i d hd
    obtain ⟨rfl, rfl, rfl⟩ := LoadError.malformed.inj (Except.error.inj h)
    have hwhole : NestedAt t bs 0 ([] ++ bs) := .whole
    obtain ⟨start, range, pos, hnested, hflaw, hoffset⟩ :=
      exists_flaw_of_range hd hwhole .nil rfl
    refine ⟨rfl, ?_, ?_, ?_, start, range, pos, hnested, hflaw, hoffset⟩
    · intro n hn
      cases hd.symm.trans (range_of_wellFormed hn)
    · rw [hoffset]
      exact (hnested.drop hflaw.pos_le).1
    · rw [hoffset]
      exact hflaw.showsAt hnested
  · cases h

end Verify

namespace Descriptor

variable {d : Descriptor} {place : Place} {offset : Nat} {flaw : Flaw}

/-- A root that is refused is not one node. -/
theorem malformed_root (h : Verify.root d = .error (.malformed place offset flaw)) :
    place = .root ∧ ¬ WellFormed d.tables 1 d.shape ∧ offset ≤ d.shape.length ∧
      flaw.ShowsAt d.tables d.shape offset ∧
      (flaw = .rootNotSingle ∨
        ∃ start range pos, NestedAt d.tables d.shape start range ∧
        RangeFlaw d.tables range pos flaw ∧ offset = start + pos) := by
  unfold Verify.root at h
  split at h
  · rename_i hrange
    obtain rfl := Except.error.inj h
    obtain ⟨rfl, hmalformed, hoffset, hshows, hnested⟩ :=
      Verify.showsAt_of_rangeAt hrange
    exact ⟨rfl, hmalformed 1, hoffset, hshows, .inr hnested⟩
  · rename_i nodes hrange
    split at h
    · cases h
    · rename_i hnodes
      obtain ⟨rfl, rfl, rfl⟩ := LoadError.malformed.inj (Except.error.inj h)
      have hwell : WellFormed d.tables nodes d.shape := Verify.rangeAt_eq_ok_iff.1 hrange
      refine ⟨rfl, fun hone => hnodes ?_, Nat.zero_le _,
        ⟨rfl, nodes, hwell, hnodes⟩, .inl rfl⟩
      exact Except.ok.inj (hrange.symm.trans (Verify.rangeAt_eq_ok_iff.2 hone))

/-- A variant that is refused is the first that is malformed, if the root is one node. -/
theorem malformed_variant (hroot : WellFormed d.tables 1 d.shape)
    (h : Verify.unions d.tables 0 d.tables.unions.toList =
      .error (.malformed place offset flaw)) :
    ∃ bs, d.FirstMalformed place bs ∧ offset ≤ bs.length ∧
      flaw.ShowsAt d.tables bs offset ∧
      ∃ start range pos, NestedAt d.tables bs start range ∧
        RangeFlaw d.tables range pos flaw ∧
        offset = start + pos := by
  obtain ⟨u, union, hunion, hvariants, hunions⟩ := Verify.unions_eq_error h
  obtain ⟨v, fields, hfields, hrange, hbefore⟩ := Verify.variants_eq_error hvariants
  obtain ⟨rfl, hmalformed, hoffset, hshows, hnested⟩ := Verify.showsAt_of_rangeAt hrange
  rw [Nat.zero_add, Nat.zero_add]
  rw [Array.getElem?_toList] at hunion hfields
  refine ⟨fields, ⟨?_, ?_, ?_⟩, hoffset, hshows, hnested⟩
  · simp only [bytesAt?, hunion, hfields]
  · rintro ⟨n, hn⟩
    exact hmalformed n hn
  · intro p bs' hp hbs'
    cases p with
    | root =>
      obtain rfl := Option.some.inj hbs'
      exact hroot
    | variant u' v' =>
      simp only [bytesAt?] at hbs'
      split at hbs'
      · rename_i union' hunion'
        rcases hp with hlt | ⟨rfl, hlt⟩
        · refine hunions u' hlt union' ?_ bs' (Array.mem_of_getElem? hbs')
          rw [Array.getElem?_toList]
          exact hunion'
        · obtain rfl := Option.some.inj (hunion.symm.trans hunion')
          refine hbefore v' hlt bs' ?_
          rw [Array.getElem?_toList]
          exact hbs'
      · cases hbs'

/-- A descriptor that is refused for a malformed range is refused for the first one: the
root, which must be one node besides, or else the first such variant in the order of the
table.  The offset lies in the bytes of that range, and is counted from their front
however deep the flaw is nested: it is where the innermost range starts and where the
flaw is in that.  What the flaw says is there. -/
theorem malformed_at_fault
    (h : d.verify = .error (.refused (.malformed place offset flaw))) :
    ∃ bs, d.FirstMalformed place bs ∧ offset ≤ bs.length ∧
      flaw.ShowsAt d.tables bs offset ∧
      ((place = .root ∧ flaw = .rootNotSingle) ∨
        ∃ start range pos, NestedAt d.tables bs start range ∧
          RangeFlaw d.tables range pos flaw ∧ offset = start + pos) := by
  unfold verify at h
  split at h
  · rename_i e hranges
    obtain rfl := Failure.refused.inj (Except.error.inj h)
    unfold Verify.ranges at hranges
    split at hranges
    · rename_i e hhints
      obtain rfl := Except.error.inj hranges
      exact absurd hhints Verify.hints_not_malformed
    · split at hranges
      · rename_i e hroot
        obtain rfl := Except.error.inj hranges
        obtain ⟨rfl, hmalformed, hoffset, hshows, hflaw⟩ := malformed_root hroot
        refine ⟨d.shape, ⟨rfl, hmalformed, ?_⟩, hoffset, hshows,
          hflaw.imp_left fun hflaw => ⟨rfl, hflaw⟩⟩
        intro p bs' hp
        cases p <;> cases hp
      · rename_i hroot
        have hwell := Verify.range_eq_ok_iff.1 (Verify.root_eq_ok_iff.1 hroot)
        obtain ⟨bs, hfirst, hoffset, hshows, hflaw⟩ := malformed_variant hwell hranges
        exact ⟨bs, hfirst, hoffset, hshows, .inr hflaw⟩
  · rename_i hranges
    obtain ⟨id, hid, -⟩ := Verify.acyclic_eq_error (Verify.sound_of_ranges hranges).1 h
    cases hid

/-- A union whose second variant is a record of a byte and a vector of boxes
of nothing known. -/
def misnested : Descriptor where
  shape := Emit.union 0
  tables := ⟨#[⟨#[Emit.scalar .u8, Kind.record.byte :: 9 :: 0 :: (Emit.scalar .u8 ++
    Kind.vec.byte :: 0 :: 4 :: 0 :: Kind.box.byte :: 1 :: 0 :: [99])], [0]⟩], #[]⟩

theorem malformed_at_fault_misnested :
    misnested.verify = .error (.refused (.malformed (.variant 0 1) 11 .unknownKind)) ∧
      ∃ bs, misnested.FirstMalformed (.variant 0 1) bs ∧ bs[11]? = some 99 ∧
        Kind.ofByte? 99 = none ∧
        ∃ start range pos, NestedAt misnested.tables bs start range ∧
          RangeFlaw misnested.tables range pos .unknownKind ∧ 11 = start + pos := by
  have hverify :
      misnested.verify = .error (.refused (.malformed (.variant 0 1) 11 .unknownKind)) := by
    decide +kernel
  obtain ⟨bs, hfirst, -, ⟨b, hb, hkind⟩, hflaw⟩ := malformed_at_fault hverify
  have hbyte : (misnested.bytesAt? (.variant 0 1)).bind (·[11]?) = some 99 := by
    decide +kernel
  rw [hfirst.bytes] at hbyte
  obtain rfl := Option.some.inj (hb.symm.trans hbyte)
  rcases hflaw with ⟨hroot, -⟩ | hflaw
  · cases hroot
  · exact ⟨hverify, bs, hfirst, hb, hkind, hflaw⟩

end Descriptor

end ShapeCode
