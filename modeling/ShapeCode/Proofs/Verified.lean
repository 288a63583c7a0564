import ShapeCode.Descriptor.Verify
import ShapeCode.Proofs.LittleEndian

set_option autoImplicit false

/-!
# What verification guarantees about outlines

The verifier and the node reader go through the same bytes with different eyes: one
looks at operands and lengths, the other hands out nodes.  `Outline.Sound` is what an
accepted range promises about its outline, at every depth: it does not break off, every
id lies inside its table, and a nested range that stands for one value holds one node.
The main statements are that accepted ranges have sound outlines (`sound_of_range`) and
that the ranges of a verified descriptor are accepted (`sound_of_ranges`).
-/

namespace ShapeCode

/-! ## Sound outlines -/

/-- Whether the nested range of a node stands for one value. -/
def Node.holdsOne : Node → Bool
  | .run _ _ _ | .pointer _ _ => true
  | _ => false

/-- The ids of a node lie inside the tables. -/
def Node.IdsIn (t : Tables) : Node → Prop
  | .union id => id.toNat < t.unions.size
  | .resource id _ => id.toNat < t.resources.size
  | _ => True

namespace Outline

/-- The number of nodes of a range. -/
def length : Outline → Nat
  | .done | .broken _ => 0
  | .cons _ _ rest => rest.length + 1

/-- The outline does not break off, its ids lie inside the tables, and a nested range
that stands for one value holds one node. -/
def Sound (t : Tables) : Outline → Prop
  | .done => True
  | .broken _ => False
  | .cons node inner rest =>
    node.IdsIn t ∧ (node.holdsOne = true → inner.length = 1) ∧
      inner.Sound t ∧ rest.Sound t

/-- A sound outline of one node. -/
theorem Sound.eq_single {t : Tables} {o : Outline} (h : o.Sound t) (h1 : o.length = 1) :
    ∃ node inner, o = .cons node inner .done := by
  cases o with
  | done => cases h1
  | broken f => exact False.elim h
  | cons node inner rest =>
    cases rest with
    | done => exact ⟨node, inner, rfl⟩
    | broken f => exact False.elim h.2.2.2
    | cons node' inner' rest' =>
      simp only [length] at h1
      omega

end Outline

/-- A list of computations gives a list of results, first of all that of the first. -/
theorem mapM_cons_eq_ok_iff {ε α β : Type} {f : α → Except ε β} {x : α}
    {xs : List α} {ys : List β} :
    (x :: xs).mapM f = .ok ys ↔
      ∃ y ys', f x = .ok y ∧ xs.mapM f = .ok ys' ∧ ys = y :: ys' := by
  rw [List.mapM_cons]
  cases hx : f x with
  | error e => simp [bind, Except.bind]
  | ok y =>
    cases hxs : xs.mapM f with
    | error e => simp [bind, Except.bind]
    | ok ys' => simp [bind, Except.bind, pure, Except.pure, eq_comm]

/-- Where each computation can give one result only, so can the list. -/
theorem eq_map_of_mapM {ε α β : Type} {f : α → Except ε β} {g : α → β}
    (h : ∀ x y, f x = .ok y → y = g x) {xs : List α} {ys : List β}
    (hys : xs.mapM f = .ok ys) : ys = xs.map g := by
  induction xs generalizing ys with
  | nil => exact (Except.ok.inj hys).symm
  | cons x xs ih =>
    obtain ⟨y, ys, hx, hxs, rfl⟩ := mapM_cons_eq_ok_iff.1 hys
    rw [List.map_cons, ← h x y hx, ← ih hxs]

theorem mapM_eq_ok_of_forall {ε α β : Type} {f : α → Except ε β} {g : α → β}
    {xs : List α} (h : ∀ x ∈ xs, f x = .ok (g x)) : xs.mapM f = .ok (xs.map g) := by
  induction xs with
  | nil => rfl
  | cons x xs ih =>
    rw [List.forall_mem_cons] at h
    exact mapM_cons_eq_ok_iff.2 ⟨g x, xs.map g, h.1, ih h.2, rfl⟩

theorem Tables.union_of_lt {t : Tables} {id : UInt16} (h : id.toNat < t.unions.size) :
    t.union id = .ok t.unions[id.toNat] := by
  simp [Tables.union, h]

theorem Tables.resource_of_lt {t : Tables} {id : UInt16} (h : id.toNat < t.resources.size) :
    t.resource id = .ok t.resources[id.toNat] := by
  simp [Tables.resource, h]

theorem Tables.union_eq_ok_iff {t : Tables} {id : UInt16} {u : Union} :
    t.union id = .ok u ↔ t.unions[id.toNat]? = some u := by
  unfold Tables.union
  cases h : t.unions[id.toNat]? with
  | none => simp
  | some v => simp

theorem Tables.lt_of_union {t : Tables} {id : UInt16} {u : Union} (h : t.union id = .ok u) :
    id.toNat < t.unions.size :=
  (Array.getElem?_eq_some_iff.1 (Tables.union_eq_ok_iff.1 h)).1

theorem Tables.mem_of_union {t : Tables} {id : UInt16} {u : Union}
    (h : t.union id = .ok u) : u ∈ t.unions :=
  Array.mem_of_getElem? (Tables.union_eq_ok_iff.1 h)

/-! ## The reader takes what the verifier measured -/

theorem Reader.take_of_split? {n : Nat} {bs : Bytes} {cut : Bytes × Bytes}
    (h : Bytes.split? n bs = some cut) : Reader.take n bs = .ok cut := by
  simp [Reader.take, h]

theorem Reader.u16_of_split? {bs word rest : Bytes}
    (h : Bytes.split? 2 bs = some (word, rest)) :
    Reader.u16 bs = .ok (UInt16.ofNat (Bytes.toNat word), rest) := by
  simp [Reader.u16, Reader.take_of_split? h]

theorem toNat_u16_of_split? {bs word rest : Bytes}
    (h : Bytes.split? 2 bs = some (word, rest)) :
    (UInt16.ofNat (Bytes.toNat word)).toNat = Bytes.toNat word :=
  Bytes.toNat_u16 (Bytes.split?_eq_some_iff.1 h).2

theorem Reader.range_of_split? {bs word mid inner rest : Bytes}
    (hword : Bytes.split? 2 bs = some (word, mid))
    (hinner : Bytes.split? (Bytes.toNat word) mid = some (inner, rest)) :
    Reader.range bs = .ok (inner, rest) := by
  rw [← toNat_u16_of_split? hword] at hinner
  unfold Reader.range
  rw [Reader.u16_of_split? hword]
  exact Reader.take_of_split? hinner

theorem Reader.flag_of_split? {bs head rest : Bytes}
    (h : Bytes.split? 1 bs = some (head, rest)) :
    ∃ b, Reader.flag bs = .ok (b, rest) := by
  obtain ⟨rfl, hlen⟩ := Bytes.split?_eq_some_iff.1 h
  obtain ⟨b, rfl⟩ := List.length_eq_one_iff.1 hlen
  exact ⟨b != 0, rfl⟩

theorem Reader.flags_of_split? {bs head rest : Bytes}
    (h : Bytes.split? 2 bs = some (head, rest)) :
    ∃ b c mid, Reader.flag bs = .ok (b, mid) ∧ Reader.flag mid = .ok (c, rest) := by
  obtain ⟨rfl, hlen⟩ := Bytes.split?_eq_some_iff.1 h
  match head, hlen with
  | [b, c], _ => exact ⟨b != 0, c != 0, c :: rest, rfl, rfl⟩

namespace Verify

theorem operand_eq_ok_iff {n offset : Nat} {bs : Bytes} {cut : Bytes × Bytes} :
    operand n offset bs = .ok cut ↔ Bytes.split? n bs = some cut := by
  unfold operand
  cases h : Bytes.split? n bs with
  | none => simp
  | some c => simp

/-- What an accepted nested range looks like to the reader: flag bytes, then a range. -/
theorem nest_eq_ok {single : Bool} {flags offset : Nat} {bs : Bytes} {fr : Frame}
    (h : nest single flags offset bs = .ok fr) :
    ∃ head mid inner rest, Bytes.split? flags bs = some (head, mid) ∧
      Reader.range mid = .ok (inner, rest) ∧
      fr = .nest single (offset + flags) inner rest := by
  unfold nest at h
  split at h
  · cases h
  · rename_i hflags
    split at h
    · cases h
    · rename_i hlength
      split at h
      · cases h
      · rename_i hinner
        rw [operand_eq_ok_iff] at hflags hlength hinner
        exact ⟨_, _, _, _, hflags, Reader.range_of_split? hlength hinner,
          (Except.ok.inj h).symm⟩

theorem idBelow_eq_ok {count offset : Nat} {flaw : Flaw} {bs rest : Bytes}
    (h : idBelow count flaw offset bs = .ok rest) :
    ∃ id : UInt16, Reader.u16 bs = .ok (id, rest) ∧ id.toNat < count := by
  unfold idBelow at h
  split at h
  · cases h
  · rename_i hword
    rw [operand_eq_ok_iff] at hword
    split at h
    · rename_i hlt
      obtain rfl := Except.ok.inj h
      exact ⟨_, Reader.u16_of_split? hword, by rwa [toNat_u16_of_split? hword]⟩
    · cases h

/-- The node that a frame is about. -/
def Frame.IsOf (t : Tables) (fr : Frame) (node : Node) (rest : Bytes) : Prop :=
  node.IdsIn t ∧
    match fr with
    | .leaf _ left => left = rest ∧ node.nested = [] ∧ node.holdsOne = false
    | .nest single _ inner left =>
      left = rest ∧ inner = node.nested ∧ single = node.holdsOne

theorem split?_zero {bs head mid : Bytes}
    (h : Bytes.split? 0 bs = some (head, mid)) : mid = bs := by
  obtain ⟨rfl, hlen⟩ := Bytes.split?_eq_some_iff.1 h
  rw [List.length_eq_zero_iff.1 hlen]
  rfl

theorem readRun_of_nest {t : Tables} {form : RunForm} {offset : Nat} {bs : Bytes}
    {fr : Frame} (h : nest true 1 offset bs = .ok fr) :
    ∃ node rest, Node.readRun form bs = .ok (node, rest) ∧ fr.IsOf t node rest := by
  obtain ⟨head, mid, inner, rest, hone, hrange, rfl⟩ := nest_eq_ok h
  obtain ⟨plain, hflag⟩ := Reader.flag_of_split? hone
  refine ⟨.run form plain inner, rest, ?_, trivial, rfl, rfl, rfl⟩
  simp only [Node.readRun, hflag, hrange]

theorem readPointer_of_nest {t : Tables} {form : PointerForm} {offset : Nat} {bs : Bytes}
    {fr : Frame} (h : nest true 0 offset bs = .ok fr) :
    ∃ node rest, Node.readPointer form bs = .ok (node, rest) ∧ fr.IsOf t node rest := by
  obtain ⟨head, mid, inner, rest, hzero, hrange, rfl⟩ := nest_eq_ok h
  obtain rfl := split?_zero hzero
  refine ⟨.pointer form inner, rest, ?_, trivial, rfl, rfl, rfl⟩
  simp only [Node.readPointer, hrange]

/-- The reader takes the operands that the verifier accepted. -/
theorem readOperands_of_frame {t : Tables} {k : Kind} {offset : Nat} {bs : Bytes}
    {fr : Frame} (h : frame t k offset bs = .ok fr) :
    ∃ node rest, Node.readOperands k bs = .ok (node, rest) ∧ fr.IsOf t node rest := by
  cases k with
  | union =>
    simp only [frame] at h
    split at h
    · cases h
    · rename_i hid
      obtain rfl := Except.ok.inj h
      obtain ⟨id, hread, hlt⟩ := idBelow_eq_ok hid
      refine ⟨.union id, _, ?_, hlt, rfl, rfl, rfl⟩
      simp only [Node.readOperands, Node.readUnion, hread]
  | resource =>
    simp only [frame] at h
    split at h
    · cases h
    · rename_i hid
      obtain ⟨id, hread, hlt⟩ := idBelow_eq_ok hid
      obtain ⟨head, mid, inner, rest, hzero, hrange, rfl⟩ := nest_eq_ok h
      obtain rfl := split?_zero hzero
      refine ⟨.resource id inner, rest, ?_, hlt, rfl, rfl, rfl⟩
      simp only [Node.readOperands, Node.readResource, hread, hrange]
  | fixedVec =>
    simp only [frame] at h
    split at h
    · cases h
    · rename_i hcount
      rw [operand_eq_ok_iff] at hcount
      simp only [Node.readOperands, Node.readFixedVec, Reader.u16_of_split? hcount]
      exact readRun_of_nest h
  | vec | unboxedVec =>
    simp only [frame] at h
    exact readRun_of_nest h
  | slice =>
    simp only [frame] at h
    obtain ⟨head, mid, inner, rest, htwo, hrange, rfl⟩ := nest_eq_ok h
    obtain ⟨plain, isStr, mid', hplain, hstr⟩ := Reader.flags_of_split? htwo
    refine ⟨.run (.slice isStr) plain inner, rest, ?_, trivial, rfl, rfl, rfl⟩
    simp only [Node.readOperands, Node.readSlice, hplain, hstr, hrange]
  | record =>
    simp only [frame] at h
    obtain ⟨head, mid, inner, rest, hzero, hrange, rfl⟩ := nest_eq_ok h
    obtain rfl := split?_zero hzero
    refine ⟨.record inner, rest, ?_, trivial, rfl, rfl, rfl⟩
    simp only [Node.readOperands, Node.readRecord, hrange]
  | box | uniq | borrow =>
    simp only [frame] at h
    exact readPointer_of_nest h
  | scalar | callable | object | traitObject | typeDescriptor =>
    obtain rfl := Except.ok.inj h
    exact ⟨_, bs, rfl, trivial, rfl, rfl, rfl⟩

theorem read_of_kind {b : UInt8} {k : Kind} {operands : Bytes}
    (h : Kind.ofByte? b = some k) :
    Node.read (b :: operands) = Node.readOperands k operands := by
  simp [Node.read, Reader.kind, Reader.byte, Reader.kindOf, h]

/-- An accepted range has a sound outline, and the verifier counts its nodes. -/
theorem sound_of_range {t : Tables} {bs : Bytes} {offset count n : Nat}
    (h : range t bs offset count = .ok n) :
    (Outline.ofBytes bs).Sound t ∧ n = count + (Outline.ofBytes bs).length := by
  fun_induction range t bs offset count generalizing n with
  | case1 offset count =>
    obtain rfl := Except.ok.inj h
    rw [Outline.ofBytes_nil]
    exact ⟨trivial, rfl⟩
  | case2 offset count b operands hk => cases h
  | case3 offset count b operands k hk d hd => cases h
  | case4 offset count b operands k hk next rest hf ih =>
    obtain ⟨node, rest', hread, hids, rfl, hnested, hone⟩ := readOperands_of_frame hf
    obtain ⟨hrest, rfl⟩ := ih h
    rw [← read_of_kind hk] at hread
    rw [Outline.ofBytes_of_read hread, hnested, Outline.ofBytes_nil]
    refine ⟨⟨hids, ?_, trivial, hrest⟩, ?_⟩
    · intro h
      rw [hone] at h
      cases h
    · simp only [Outline.length]
      omega
  | case5 offset count b operands k hk single start inner rest hf d hd ih => cases h
  | case6 offset count b operands k hk single start inner rest hf nodes hn hbad ih =>
    cases h
  | case7 offset count b operands k hk single start inner rest hf nodes hn hgood ih1 ih2 =>
    obtain ⟨node, rest', hread, hids, rfl, rfl, rfl⟩ := readOperands_of_frame hf
    obtain ⟨hinner, hnodes⟩ := ih1 hn
    obtain ⟨hrest, rfl⟩ := ih2 h
    rw [← read_of_kind hk] at hread
    rw [Outline.ofBytes_of_read hread]
    refine ⟨⟨hids, ?_, hinner, hrest⟩, ?_⟩
    · intro hone
      simp only [hone, Bool.true_and, bne_iff_ne, ne_eq, Decidable.not_not] at hgood
      omega
    · simp only [Outline.length]
      omega

/-! ## Accepted hints, roots and variants -/

theorem hint_eq_ok_iff {id : Nat} {u : Union} :
    hint id u = .ok () ↔ u.badHint? = none ∧ u.lacksHint = false := by
  unfold hint
  cases u.badHint? with
  | some v => simp
  | none => simp

theorem hints_eq_ok_iff {id : Nat} {us : List Union} :
    hints id us = .ok () ↔ ∀ u ∈ us, u.badHint? = none ∧ u.lacksHint = false := by
  induction us generalizing id with
  | nil => simp [hints]
  | cons u rest ih =>
    rw [hints, List.forall_mem_cons, ← @ih (id + 1), ← @hint_eq_ok_iff id u]
    cases hint id u with
    | error e => simp
    | ok _ => simp

theorem root_eq_ok_iff {d : Descriptor} :
    root d = .ok () ↔ range d.tables d.shape 0 0 = .ok 1 := by
  unfold root rangeAt
  cases range d.tables d.shape 0 0 with
  | error e => simp
  | ok n => simp

theorem variants_eq_ok_iff {t : Tables} {id v : Nat} {fs : List Bytes} :
    variants t id v fs = .ok () ↔
      ∀ fields ∈ fs, ∃ n, range t fields 0 0 = .ok n := by
  induction fs generalizing v with
  | nil => simp [variants]
  | cons fields rest ih =>
    rw [variants, rangeAt, List.forall_mem_cons, ← @ih (v + 1)]
    cases range t fields 0 0 with
    | error d => simp
    | ok n => simp

theorem unions_eq_ok_iff {t : Tables} {id : Nat} {us : List Union} :
    unions t id us = .ok () ↔
      ∀ u ∈ us, ∀ fields ∈ u.variants.toList,
        ∃ n, range t fields 0 0 = .ok n := by
  induction us generalizing id with
  | nil => simp [unions]
  | cons u rest ih =>
    rw [unions, List.forall_mem_cons, ← @ih (id + 1), ← @variants_eq_ok_iff t id 0]
    cases variants t id 0 u.variants.toList with
    | error e => simp
    | ok _ => simp

theorem ranges_eq_ok_iff {d : Descriptor} :
    ranges d = .ok () ↔
      (∀ u ∈ d.tables.unions.toList, u.badHint? = none ∧ u.lacksHint = false) ∧
        range d.tables d.shape 0 0 = .ok 1 ∧
        ∀ u ∈ d.tables.unions.toList, ∀ fields ∈ u.variants.toList,
          ∃ n, range d.tables fields 0 0 = .ok n := by
  rw [← @hints_eq_ok_iff 0, ← root_eq_ok_iff, ← @unions_eq_ok_iff d.tables 0]
  unfold ranges
  cases hints 0 d.tables.unions.toList with
  | error e => simp
  | ok _ =>
    cases root d with
    | error e => simp
    | ok _ => simp

end Verify

namespace Union

theorem badHint?_eq_none_iff {u : Union} :
    u.badHint? = Option.none ↔ ∀ v ∈ u.hint, v.toNat < u.variants.size := by
  simp [badHint?, List.find?_eq_none]

theorem variant_of_lt {u : Union} {v : Nat} (h : v < u.variants.size) :
    u.variant v = .ok u.variants[v] := by
  simp [variant, h]

theorem lt_of_variant {u : Union} {v : Nat} {fields : Bytes}
    (h : u.variant v = .ok fields) : v < u.variants.size := by
  unfold variant at h
  split at h
  · rename_i hget
    exact (Array.getElem?_eq_some_iff.1 hget).1
  · cases h

theorem mem_of_variant {u : Union} {v : Nat} {fields : Bytes}
    (h : u.variant v = .ok fields) : fields ∈ u.variants := by
  unfold variant at h
  split at h
  · rename_i hget
    obtain rfl := Except.ok.inj h
    exact Array.mem_of_getElem? hget
  · cases h

end Union

/-! ## Sound tables -/

/-- Every hint names a variant, and every variant has a sound outline. -/
structure Tables.Sound (t : Tables) : Prop where
  hint_lt : ∀ u ∈ t.unions, ∀ v ∈ u.hint, v.toNat < u.variants.size
  variant_sound : ∀ u ∈ t.unions, ∀ fields ∈ u.variants,
    (Outline.ofBytes fields).Sound t

theorem Tables.Sound.of_union {t : Tables} (h : t.Sound) {id : UInt16} {u : Union}
    (hu : t.union id = .ok u) {v : Nat} {fields : Bytes} (hv : u.variant v = .ok fields) :
    (Outline.ofBytes fields).Sound t := by
  exact h.variant_sound u (Tables.mem_of_union hu) fields (Union.mem_of_variant hv)

namespace Verify

theorem sound_of_ranges {d : Descriptor} (h : ranges d = .ok ()) :
    d.tables.Sound ∧ (Outline.ofBytes d.shape).Sound d.tables ∧
      (Outline.ofBytes d.shape).length = 1 := by
  obtain ⟨hhints, hroot, hvariants⟩ := ranges_eq_ok_iff.1 h
  obtain ⟨hsound, hlength⟩ := sound_of_range hroot
  refine ⟨⟨?_, ?_⟩, hsound, by omega⟩
  · intro u hu
    exact Union.badHint?_eq_none_iff.1 (hhints u (Array.mem_toList_iff.2 hu)).1
  · intro u hu fields hf
    obtain ⟨n, hn⟩ :=
      hvariants u (Array.mem_toList_iff.2 hu) fields (Array.mem_toList_iff.2 hf)
    exact (sound_of_range hn).1

end Verify

end ShapeCode
