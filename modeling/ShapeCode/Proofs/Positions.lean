import ShapeCode.Proofs.Verified

set_option autoImplicit false

/-!
# Verifying by positions

A range is verified front to back, by what is left of it.  Over bytes in memory the same
is done by positions: every byte is looked up by its index, every nested range is cut
out between two positions, and every position and every offset that is reported is a
sum.  Each of these can go wrong, and then it is a fault here: an index at or behind the
end, a cut that does not lie within the bytes, a sum beyond the machine word.

Over bytes that fit in memory none of them does, whatever the bytes are, and verifying
by positions is verifying by what is left (`Positions.range_eq`, `Positions.verify_eq`).
The order of the checks is what makes it so: a position is compared with the length
before anything is looked up behind it.
-/

namespace ShapeCode.Positions

open Verify (Defect)

/-- No run of bytes in memory is as long as this: lengths are positive numbers
of a signed word. -/
def capacity : Nat := 0x8000000000000000

/-! ## Looking up -/

/-- The byte at a position. -/
def byteAt (bs : Bytes) (p : Nat) : Except Fault UInt8 :=
  match bs[p]? with
  | some b => .ok b
  | none => .error (.indexOutOfBounds bs.length p)

/-- The `n` bytes from a position on, one after another. -/
def bytesAt (bs : Bytes) : (n p : Nat) → Except Fault Bytes
  | 0, _ => .ok []
  | n + 1, p => do
    let b ← byteAt bs p
    let next ← Word.add p 1
    let rest ← bytesAt bs n next
    return b :: rest

/-- The bytes between two positions. -/
def slice (bs : Bytes) (start stop : Nat) : Except Fault Bytes :=
  if start ≤ stop ∧ stop ≤ bs.length then .ok ((bs.drop start).take (stop - start))
  else .error (.indexOutOfBounds bs.length stop)

variable {bs : Bytes} {base start stop n p : Nat}

theorem add_eq (h : start + n < Word.limit) : Word.add start n = .ok (start + n) :=
  Word.add_eq_ok_iff.2 ⟨h, rfl⟩

theorem byteAt_eq (h : p < bs.length) : byteAt bs p = .ok bs[p] := by
  simp [byteAt, h]

theorem bytesAt_eq (h : p + n ≤ bs.length) (hroom : bs.length < Word.limit) :
    bytesAt bs n p = .ok ((bs.drop p).take n) := by
  induction n generalizing p with
  | zero => simp [bytesAt]
  | succ n ih =>
    have hlt : p < bs.length := by omega
    have hnext : Word.add p 1 = .ok (p + 1) := add_eq (by omega)
    simp only [bytesAt, byteAt_eq hlt, hnext, bind, Except.bind]
    rw [ih (by omega), List.drop_eq_getElem_cons hlt, List.take_succ_cons]
    rfl

theorem slice_eq (h : start ≤ stop) (h' : stop ≤ bs.length) :
    slice bs start stop = .ok ((bs.drop start).take (stop - start)) := if_pos ⟨h, h'⟩

/-! ## Operands -/

/-- Why verifying by positions stops: a defect of the bytes, or a fault of its own. -/
inductive Stop where
  | defect (d : Defect)
  | fault (f : Fault)
  deriving DecidableEq, Repr, Inhabited

/-- A fault stops verifying. -/
def lift {α : Type} : Except Fault α → Except Stop α := Except.mapError .fault

@[simp] theorem lift_ok {α : Type} (x : α) : lift (.ok x) = .ok x := rfl

@[simp] theorem lift_error {α : Type} (f : Fault) :
    lift (α := α) (.error f) = .error (.fault f) :=
  rfl

/-- What stops verifying by what is left stops verifying by positions. -/
def ofDefect {α : Type} : Except Defect α → Except Stop α := Except.mapError .defect

@[simp] theorem ofDefect_ok {α : Type} (x : α) : ofDefect (.ok x) = .ok x := rfl

@[simp] theorem ofDefect_error {α : Type} (d : Defect) :
    ofDefect (α := α) (.error d) = .error (.defect d) :=
  rfl

/-- Refuses the bytes for a flaw at a position, which is reported as an
offset from `base`. -/
def refuse {α : Type} (base p : Nat) (flaw : Flaw) : Except Stop α := do
  let offset ← lift (Word.add base p)
  .error (.defect ⟨offset, flaw⟩)

/-- Where an operand of `n` bytes stops. -/
def operand (bs : Bytes) (base n start : Nat) : Except Stop Nat := do
  let stop ← lift (Word.add start n)
  if bs.length < stop then refuse base start .pastEnd else return stop

/-- What a node is besides its kind byte, by positions. -/
inductive Frame where
  | leaf (next : Nat)
  | nest (single : Bool) (length start stop : Nat)
  deriving DecidableEq, Repr, Inhabited

/-- A nested range behind `flags` flag bytes. -/
def nest (bs : Bytes) (base : Nat) (single : Bool) (flags p : Nat) : Except Stop Frame := do
  let length ← operand bs base flags p
  let start ← operand bs base 2 length
  let word ← lift (bytesAt bs 2 length)
  let stop ← operand bs base (Bytes.toNat word) start
  return .nest single length start stop

/-- Where an id that must be below `count` stops. -/
def idBelow (bs : Bytes) (base count : Nat) (flaw : Flaw) (p : Nat) : Except Stop Nat := do
  let next ← operand bs base 2 p
  let id ← lift (bytesAt bs 2 p)
  if Bytes.toNat id < count then return next else refuse base p flaw

/-- The operands of a node of the given kind, which start at `p`. -/
def frame (tables : Tables) (k : Kind) (bs : Bytes) (base p : Nat) : Except Stop Frame :=
  match k with
  | .union => do
    let next ← idBelow bs base tables.unions.size .unionId p
    return .leaf next
  | .resource => do
    let next ← idBelow bs base tables.resources.size .resourceId p
    nest bs base false 0 next
  | .fixedVec => do
    let next ← operand bs base 2 p
    nest bs base true 1 next
  | .vec | .unboxedVec => nest bs base true 1 p
  | .slice => nest bs base true 2 p
  | .record => nest bs base false 0 p
  | .box | .uniq | .borrow => nest bs base true 0 p
  | .scalar _ | .callable _ | .object | .traitObject | .typeDescriptor => .ok (.leaf p)

/-! ## Where operands stop -/

section Bounds

variable {fr : Frame} {single : Bool} {flags count : Nat} {flaw : Flaw}
  {tables : Tables} {k : Kind}

@[simp] theorem lift_eq_ok_iff {α : Type} {r : Except Fault α} {x : α} :
    lift r = .ok x ↔ r = .ok x := by
  cases r <;> simp

theorem bind_eq_ok_iff {ε α β : Type} {r : Except ε α} {f : α → Except ε β}
    {y : β} :
    r >>= f = .ok y ↔ ∃ x, r = .ok x ∧ f x = .ok y := by
  cases r <;> simp [bind, Except.bind]

theorem refuse_ne_ok {α : Type} {x : α} : refuse base p flaw ≠ .ok x := by
  simp [refuse, bind_eq_ok_iff]

theorem operand_eq_ok (h : operand bs base n start = .ok stop) :
    stop = start + n ∧ stop ≤ bs.length := by
  obtain ⟨stop', hstop, h⟩ := bind_eq_ok_iff.1 h
  obtain ⟨-, rfl⟩ := Word.add_eq_ok_iff.1 (lift_eq_ok_iff.1 hstop)
  split at h
  · exact absurd h refuse_ne_ok
  · obtain rfl := Except.ok.inj h
    exact ⟨rfl, by omega⟩

/-- What a frame looks into lies in order within the bytes, behind the position where
the frame starts. -/
def Frame.Ordered (bs : Bytes) (p : Nat) : Frame → Prop
  | .leaf next => p ≤ next ∧ next ≤ bs.length
  | .nest _ length start stop =>
    p ≤ length ∧ start = length + 2 ∧ start ≤ stop ∧ stop ≤ bs.length

theorem ordered_nest (h : nest bs base single flags p = .ok fr) : fr.Ordered bs p := by
  obtain ⟨length, hlength, h⟩ := bind_eq_ok_iff.1 h
  obtain ⟨start, hstart, h⟩ := bind_eq_ok_iff.1 h
  obtain ⟨word, -, h⟩ := bind_eq_ok_iff.1 h
  obtain ⟨stop, hstop, h⟩ := bind_eq_ok_iff.1 h
  obtain rfl := Except.ok.inj h
  have := operand_eq_ok hlength
  have := operand_eq_ok hstart
  have := operand_eq_ok hstop
  simp only [Frame.Ordered]
  omega

theorem idBelow_eq_ok (h : idBelow bs base count flaw p = .ok n) :
    n = p + 2 ∧ n ≤ bs.length := by
  obtain ⟨next, hnext, h⟩ := bind_eq_ok_iff.1 h
  obtain ⟨id, -, h⟩ := bind_eq_ok_iff.1 h
  split at h
  · obtain rfl := Except.ok.inj h
    exact operand_eq_ok hnext
  · exact absurd h refuse_ne_ok

theorem Frame.Ordered.mono {q : Nat} (h : fr.Ordered bs q)
    (hp : p ≤ q) : fr.Ordered bs p := by
  cases fr <;> simp only [Ordered] at h ⊢ <;> omega

theorem ordered_frame (hp : p ≤ bs.length)
    (h : frame tables k bs base p = .ok fr) : fr.Ordered bs p := by
  cases k with
  | union =>
    obtain ⟨next, hnext, h⟩ := bind_eq_ok_iff.1 h
    obtain rfl := Except.ok.inj h
    have := idBelow_eq_ok hnext
    simp only [Frame.Ordered]
    omega
  | resource =>
    obtain ⟨next, hnext, h⟩ := bind_eq_ok_iff.1 h
    have := idBelow_eq_ok hnext
    exact (ordered_nest h).mono (by omega)
  | fixedVec =>
    obtain ⟨next, hnext, h⟩ := bind_eq_ok_iff.1 h
    have := operand_eq_ok hnext
    exact (ordered_nest h).mono (by omega)
  | vec | unboxedVec | slice | record | box | uniq | borrow => exact ordered_nest h
  | scalar | callable | object | traitObject | typeDescriptor =>
    obtain rfl := Except.ok.inj h
    exact ⟨Nat.le_refl p, hp⟩

end Bounds

/-! ## Ranges -/

/-- The node at a position. -/
def node (tables : Tables) (bs : Bytes) (base p : Nat) : Except Stop Frame := do
  let b ← lift (byteAt bs p)
  let offset ← lift (Word.add base p)
  match Kind.ofByte? b with
  | none => .error (.defect ⟨offset, .unknownKind⟩)
  | some k =>
    let operands ← lift (Word.add p 1)
    frame tables k bs base operands

/-- The bytes between two positions, and the offset at which they start. -/
def inner (bs : Bytes) (base start stop : Nat) : Except Stop (Bytes × Nat) := do
  let inner ← lift (slice bs start stop)
  let offset ← lift (Word.add base start)
  return (inner, offset)

/-- A node that is read lies in order within the bytes. -/
theorem ordered_node {tables : Tables} {fr : Frame} (hp : p < bs.length)
    (h : node tables bs base p = .ok fr) : fr.Ordered bs (p + 1) := by
  obtain ⟨b, -, h⟩ := bind_eq_ok_iff.1 h
  obtain ⟨offset, -, h⟩ := bind_eq_ok_iff.1 h
  split at h
  · cases h
  · obtain ⟨operands, hoperands, h⟩ := bind_eq_ok_iff.1 h
    obtain ⟨-, rfl⟩ := Word.add_eq_ok_iff.1 (lift_eq_ok_iff.1 hoperands)
    exact ordered_frame hp h

theorem length_inner {inside : Bytes × Nat} (h : inner bs base start stop = .ok inside) :
    inside.1.length = stop - start := by
  obtain ⟨cut, hcut, h⟩ := bind_eq_ok_iff.1 h
  obtain ⟨offset, -, h⟩ := bind_eq_ok_iff.1 h
  obtain rfl := Except.ok.inj h
  rw [lift_eq_ok_iff, slice] at hcut
  split at hcut
  · obtain rfl := Except.ok.inj hcut
    simp only [List.length_take, List.length_drop]
    omega
  · cases hcut

/-- How many nodes the bytes hold from a position on, if they are accepted.  The bytes
start at the offset `base`, and `count` nodes came before the position. -/
def range (tables : Tables) (bs : Bytes) (base p count : Nat) : Except Stop Nat :=
  if _ : p < bs.length then
    match _ : node tables bs base p with
    | .error e => .error e
    | .ok (.leaf next) =>
      match Word.add count 1 with
      | .error f => .error (.fault f)
      | .ok count => range tables bs base next count
    | .ok (.nest single length start stop) =>
      match _ : inner bs base start stop with
      | .error e => .error e
      | .ok inside =>
        match range tables inside.1 inside.2 0 0 with
        | .error e => .error e
        | .ok nodes =>
          if single && nodes != 1 then refuse base length .notSingle
          else
            match Word.add count 1 with
            | .error f => .error (.fault f)
            | .ok count => range tables bs base stop count
  else .ok count
termination_by (bs.length, bs.length - p)
decreasing_by
  all_goals
    have hnode := ordered_node ‹_› ‹node tables bs base p = .ok _›
    simp only [Frame.Ordered] at hnode
  · exact .right _ (by omega)
  · have hinner := length_inner ‹inner bs base start stop = .ok inside›
    exact .left _ _ (by omega)
  · exact .right _ (by omega)

/-! ## Verifying by positions is verifying by what is left -/

section Agreement

variable {single : Bool} {flags count : Nat} {flaw : Flaw} {tables : Tables} {k : Kind}

/-- What is left from a position on, and what is cut out of it. -/
def Frame.left (bs : Bytes) (base : Nat) : Frame → Verify.Frame
  | .leaf next => .leaf (base + next) (bs.drop next)
  | .nest single length start stop =>
    .nest single (base + length) ((bs.drop start).take (stop - start)) (bs.drop stop)

theorem refuse_eq {α : Type} (h : base + p < Word.limit) :
    refuse (α := α) base p flaw = .error (.defect ⟨base + p, flaw⟩) := by
  simp only [refuse, add_eq h]
  rfl

/-- An operand is found by its position, or refused, as it is at the front
of what is left. -/
theorem operand_cases (hstart : start ≤ bs.length) (hn : n < 65536)
    (hroom : base + bs.length < capacity) :
    (start + n ≤ bs.length ∧ operand bs base n start = .ok (start + n) ∧
        Verify.operand n (base + start) (bs.drop start) =
          .ok ((bs.drop start).take n, bs.drop (start + n))) ∨
      (operand bs base n start = .error (.defect ⟨base + start, .pastEnd⟩) ∧
        Verify.operand n (base + start) (bs.drop start) =
          .error ⟨base + start, .pastEnd⟩) := by
  have hcapacity : capacity + 65536 < Word.limit := by decide
  have hstop : Word.add start n = .ok (start + n) := add_eq (by omega)
  have hoperand : operand bs base n start =
      if bs.length < start + n then refuse base start .pastEnd else .ok (start + n) := by
    rw [operand, hstop]
    rfl
  by_cases hend : bs.length < start + n
  · right
    have hsplit : Bytes.split? n (bs.drop start) = none := by
      rw [Bytes.split?_eq_none_iff, List.length_drop]
      omega
    exact ⟨by rw [hoperand, if_pos hend,
      refuse_eq (by omega)], by simp only [Verify.operand, hsplit]⟩
  · left
    have hsplit : Bytes.split? n (bs.drop start) =
        some ((bs.drop start).take n, bs.drop (start + n)) := by
      rw [Bytes.split?_eq_some_iff, ← List.drop_drop, List.take_append_drop,
        List.length_take, List.length_drop]
      exact ⟨rfl, by omega⟩
    exact ⟨by omega, by rw [hoperand, if_neg hend],
      by simp only [Verify.operand, hsplit]⟩

theorem nest_eq (hp : p ≤ bs.length) (hflags : flags < 65536)
    (hroom : base + bs.length < capacity) :
    (nest bs base single flags p).map (Frame.left bs base) =
      ofDefect (Verify.nest single flags (base + p) (bs.drop p)) := by
  simp only [nest, Verify.nest, bind, Except.bind]
  rcases operand_cases hp hflags hroom with ⟨hflag, hop, hleft⟩ | ⟨hop, hleft⟩
  · simp only [hop, hleft, Nat.add_assoc]
    rcases operand_cases hflag (n := 2) (by decide) hroom
      with ⟨hlength, hop, hleft⟩ | ⟨hop, hleft⟩
    · have hword :=
        bytesAt_eq hlength
          (Nat.lt_of_le_of_lt (Nat.le_add_left _ base) (Nat.lt_trans hroom (by decide)))
      have hlimit : Bytes.toNat ((bs.drop (p + flags)).take 2) < 65536 :=
        Nat.lt_of_lt_of_le (Bytes.toNat_lt _)
          (Nat.pow_le_pow_right (by decide) (List.length_take_le 2 _))
      simp only [hop, hleft, hword, lift_ok]
      have hstop := operand_cases hlength hlimit hroom
      simp only [Nat.add_assoc] at hstop ⊢
      rcases hstop with ⟨-, hop, hleft⟩ | ⟨hop, hleft⟩
      · have hcut : ∀ n, p + (flags + (2 + n)) - (p + (flags + 2)) = n := by omega
        simp only [hop, hleft, Except.map, pure, Except.pure, Frame.left, ofDefect_ok, hcut]
      · simp only [hop, hleft]
        rfl
    · simp only [hop, hleft]
      rfl
  · simp only [hop, hleft]
    rfl

/-- An id is read at its position, or refused, as it is at the front of what is left. -/
theorem idBelow_cases (count : Nat) (flaw : Flaw) (hp : p ≤ bs.length)
    (hroom : base + bs.length < capacity) :
    (p + 2 ≤ bs.length ∧ idBelow bs base count flaw p = .ok (p + 2) ∧
        Verify.idBelow count flaw (base + p) (bs.drop p) = .ok (bs.drop (p + 2))) ∨
      ∃ d, idBelow bs base count flaw p = .error (.defect d) ∧
        Verify.idBelow count flaw (base + p) (bs.drop p) = .error d := by
  have hlimit : capacity < Word.limit := by decide
  simp only [idBelow, Verify.idBelow, bind, Except.bind]
  rcases operand_cases hp (n := 2) (by decide) hroom
    with ⟨hid, hop, hleft⟩ | ⟨hop, hleft⟩
  · simp only [hop, hleft, bytesAt_eq hid (by omega), lift_ok]
    split
    · exact .inl ⟨hid, rfl, rfl⟩
    · exact .inr ⟨_, refuse_eq (by omega), rfl⟩
  · simp only [hop, hleft]
    exact .inr ⟨_, rfl, rfl⟩

theorem frame_eq (tables : Tables) (k : Kind) (hp : p ≤ bs.length)
    (hroom : base + bs.length < capacity) :
    (frame tables k bs base p).map (Frame.left bs base) =
      ofDefect (Verify.frame tables k (base + p) (bs.drop p)) := by
  cases k with
  | union =>
    simp only [frame, Verify.frame, bind, Except.bind]
    rcases idBelow_cases tables.unions.size .unionId hp hroom
      with ⟨-, hid, hleft⟩ | ⟨d, hid, hleft⟩
    · simp only [hid, hleft]
      rfl
    · simp only [hid, hleft]
      rfl
  | resource =>
    simp only [frame, Verify.frame, bind, Except.bind]
    rcases idBelow_cases tables.resources.size .resourceId hp hroom
      with ⟨hnext, hid, hleft⟩ | ⟨d, hid, hleft⟩
    · simp only [hid, hleft, Nat.add_assoc]
      exact nest_eq hnext (by decide) hroom
    · simp only [hid, hleft]
      rfl
  | fixedVec =>
    simp only [frame, Verify.frame, bind, Except.bind]
    rcases operand_cases hp (n := 2) (by decide) hroom
      with ⟨hcount, hop, hleft⟩ | ⟨hop, hleft⟩
    · simp only [hop, hleft, Nat.add_assoc]
      exact nest_eq hcount (by decide) hroom
    · simp only [hop, hleft]
      rfl
  | vec | unboxedVec | slice | record | box | uniq | borrow =>
    exact nest_eq hp (by decide) hroom
  | scalar | callable | object | traitObject | typeDescriptor => rfl

/-- What is left is verified from its first node on. -/
theorem left_cons {b : UInt8} {operands : Bytes} {offset : Nat} :
    Verify.range tables (b :: operands) offset count =
      match Kind.ofByte? b with
      | none => .error ⟨offset, .unknownKind⟩
      | some k =>
        match Verify.frame tables k (offset + 1) operands with
        | .error d => .error d
        | .ok (.leaf next rest) => Verify.range tables rest next (count + 1)
        | .ok (.nest single lengthOffset inner rest) =>
          match Verify.range tables inner (lengthOffset + 2) 0 with
          | .error d => .error d
          | .ok nodes =>
            if single && nodes != 1 then .error ⟨lengthOffset, .notSingle⟩
            else Verify.range tables rest (lengthOffset + 2 + inner.length) (count + 1) :=
              by
  rw [Verify.range]
  cases Kind.ofByte? b with
  | none => rfl
  | some k =>
    simp only
    split
    · rename_i h; rw [h]
    · rename_i h; rw [h]
    · rename_i h; rewrite [h]; rfl

theorem ofDefect_eq_ok_iff {α : Type} {r : Except Defect α} {x : α} :
    ofDefect r = .ok x ↔ r = .ok x := by
  cases r <;> simp

/-- A node is read at its position, or refused, as it is at the front of what is left. -/
theorem node_cases (tables : Tables) (hp : p < bs.length)
    (hroom : base + bs.length < capacity) :
    (∃ d, node tables bs base p = .error (.defect d) ∧
        ∀ count, Verify.range tables (bs.drop p) (base + p) count = .error d) ∨
      ∃ fr k, node tables bs base p = .ok fr ∧ Kind.ofByte? bs[p] = some k ∧
        Verify.frame tables k (base + p + 1) (bs.drop (p + 1)) = .ok (fr.left bs base) := by
  have hlimit : capacity < Word.limit := by decide
  simp only [List.drop_eq_getElem_cons hp, left_cons,
    node, byteAt_eq hp, add_eq (show base + p < Word.limit by omega),
    add_eq (show p + 1 < Word.limit by omega), lift_ok, bind, Except.bind]
  cases Kind.ofByte? bs[p] with
  | none => exact .inl ⟨_, rfl, fun _ => rfl⟩
  | some k =>
    have hframe : (frame tables k bs base (p + 1)).map (Frame.left bs base) =
        ofDefect (Verify.frame tables k (base + p + 1) (bs.drop (p + 1))) :=
          frame_eq tables k hp hroom
    simp only
    cases hread : frame tables k bs base (p + 1) with
    | error e =>
      rw [hread] at hframe
      cases hleft : Verify.frame tables k (base + p + 1) (bs.drop (p + 1)) with
      | error d =>
        rw [hleft] at hframe
        obtain rfl := Except.error.inj hframe
        exact .inl ⟨d, rfl, fun _ => rfl⟩
      | ok left =>
        rw [hleft] at hframe
        cases hframe
    | ok fr =>
      rw [hread] at hframe
      exact .inr ⟨fr, k, rfl, rfl, ofDefect_eq_ok_iff.1 hframe.symm⟩

theorem inner_eq (hstart : start ≤ stop) (hstop : stop ≤ bs.length)
    (hroom : base + bs.length < capacity) :
    inner bs base start stop = .ok ((bs.drop start).take (stop - start), base + start) := by
  have hlimit : capacity < Word.limit := by decide
  simp only [inner, slice_eq hstart hstop, add_eq (show base + start < Word.limit by omega)]
  rfl

theorem range_of_lt (hp : p < bs.length) :
    range tables bs base p count =
      match node tables bs base p with
      | .error e => .error e
      | .ok (.leaf next) =>
        match Word.add count 1 with
        | .error f => .error (.fault f)
        | .ok count => range tables bs base next count
      | .ok (.nest single length start stop) =>
        match inner bs base start stop with
        | .error e => .error e
        | .ok inside =>
          match range tables inside.1 inside.2 0 0 with
          | .error e => .error e
          | .ok nodes =>
            if single && nodes != 1 then refuse base length .notSingle
            else
              match Word.add count 1 with
              | .error f => .error (.fault f)
              | .ok count => range tables bs base stop count := by
  rw [range, dif_pos hp]
  split
  · rename_i h; rw [h]
  · rename_i h; rw [h]
  · rename_i h; rw [h]
    simp only
    split
    · rename_i h; rw [h]
    · rename_i h; rw [h]

/-- Verifying bytes from a position on is verifying what is left there. -/
theorem range_eq {bs : Bytes} {base p count : Nat} (hp : p ≤ bs.length)
    (hcount : count ≤ p) (hroom : base + bs.length < capacity) :
    range tables bs base p count =
        ofDefect (Verify.range tables (bs.drop p) (base + p) count) := by
  have hlimit : capacity < Word.limit := by decide
  by_cases hlt : p < bs.length
  · have hadd : Word.add count 1 = .ok (count + 1) := add_eq (by omega)
    rw [range_of_lt hlt]
    rcases node_cases tables hlt hroom
      with ⟨d, hread, hleft⟩ | ⟨fr, k, hread, hk, hleft⟩
    · rw [hread, hleft]
      rfl
    · have hordered := ordered_node hlt hread
      rw [hread, List.drop_eq_getElem_cons hlt, left_cons]
      simp only [hk, hleft]
      cases fr with
      | leaf next =>
        obtain ⟨hnext, hend⟩ := hordered
        simp only [Frame.left, hadd]
        exact range_eq hend (by omega) hroom
      | nest single length start stop =>
        obtain ⟨hlength, rfl, hstop, hend⟩ := hordered
        generalize hinside : (bs.drop (length + 2)).take (stop - (length + 2)) = inside
        have hcut : inside.length = stop - (length + 2) := by
          rw [← hinside, List.length_take, List.length_drop]
          omega
        have hnested : range tables inside (base + (length + 2)) 0 0 = _ :=
          range_eq (Nat.zero_le _) (Nat.le_refl 0) (by omega)
        have hstart : base + length + 2 = base + (length + 2) := Nat.add_assoc ..
        have hafter : base + (length + 2) + inside.length = base + stop := by omega
        simp only [inner_eq hstop hend hroom, Frame.left, hadd,
          hinside, hnested, List.drop_zero, Nat.add_zero, hstart, hafter,
          refuse_eq (show base + length < Word.limit by omega)]
        cases Verify.range tables inside (base + (length + 2)) 0 with
        | error d => rfl
        | ok nodes =>
          simp only [ofDefect_ok]
          split
          · rfl
          · exact range_eq hend (by omega) hroom
  · rw [range, dif_neg hlt, List.drop_eq_nil_of_le (by omega), Verify.range]
    rfl
termination_by (bs.length, bs.length - p)

end Agreement

/-! ## Descriptors -/

/-- The number of nodes of a range of a descriptor. -/
def rangeAt (tables : Tables) (place : Place) (bs : Bytes) : Except Failure Nat :=
  match range tables bs 0 0 0 with
  | .error (.defect d) => .error (.refused (.malformed place d.offset d.flaw))
  | .error (.fault f) => .error (.fault f)
  | .ok nodes => .ok nodes

/-- Refuses the first variant in order whose fields are refused. -/
def variants (tables : Tables) (id : Nat) :
    (variant : Nat) → List Bytes → Except Failure Unit
  | _, [] => .ok ()
  | v, fields :: rest => do
    let _ ← rangeAt tables (.variant id v) fields
    variants tables id (v + 1) rest

/-- Refuses the first union in order with a variant that is refused. -/
def unions (tables : Tables) : (id : Nat) → List Union → Except Failure Unit
  | _, [] => .ok ()
  | id, u :: rest => do
    variants tables id 0 u.variants.toList
    unions tables (id + 1) rest

/-- What refuses a descriptor or a file gives no answer. -/
def refused {α : Type} : Except LoadError α → Except Failure α :=
  Except.mapError .refused

@[simp] theorem refused_ok {α : Type} (x : α) : refused (.ok x) = .ok x := rfl

/-- Refuses a descriptor that is not well formed. -/
def verify (d : Descriptor) : Except Failure Unit := do
  refused (Verify.hints 0 d.tables.unions.toList)
  let nodes ← rangeAt d.tables .root d.shape
  if nodes = 1 then
    unions d.tables 0 d.tables.unions.toList
    Verify.acyclic d.tables
  else .error (.refused (.malformed .root 0 .rootNotSingle))

/-- The ranges of a descriptor fit in memory. -/
structure InMemory (d : Descriptor) : Prop where
  shape : d.shape.length < capacity
  variants : ∀ u ∈ d.tables.unions, ∀ fields ∈ u.variants, fields.length < capacity

theorem rangeAt_eq {tables : Tables} {place : Place} (h : bs.length < capacity) :
    rangeAt tables place bs = refused (Verify.rangeAt tables place bs) := by
  have hrange : range tables bs 0 0 0 = ofDefect (Verify.range tables bs 0 0) :=
    range_eq (Nat.zero_le _) (Nat.le_refl 0) (by omega)
  rw [rangeAt, hrange, Verify.rangeAt]
  cases Verify.range tables bs 0 0 <;> rfl

theorem variants_eq {tables : Tables} {id v : Nat} {fs : List Bytes}
    (h : ∀ fields ∈ fs, fields.length < capacity) :
    variants tables id v fs = refused (Verify.variants tables id v fs) := by
  induction fs generalizing v with
  | nil => rfl
  | cons fields rest ih =>
    rw [List.forall_mem_cons] at h
    rw [variants, rangeAt_eq h.1, Verify.variants, ih h.2]
    cases Verify.rangeAt tables (.variant id v) fields <;> rfl

theorem unions_eq {tables : Tables} {id : Nat} {us : List Union}
    (h : ∀ u ∈ us, ∀ fields ∈ u.variants, fields.length < capacity) :
    unions tables id us = refused (Verify.unions tables id us) := by
  induction us generalizing id with
  | nil => rfl
  | cons u rest ih =>
    rw [List.forall_mem_cons] at h
    rw [unions, variants_eq (fun fields hf => h.1 fields (Array.mem_toList_iff.1 hf)),
      Verify.unions, ih h.2]
    cases Verify.variants tables id 0 u.variants.toList <;> rfl

/-- Verifying a descriptor by positions is verifying it by what is left, and meets no
fault of its own. -/
theorem verify_eq {d : Descriptor} (h : InMemory d) : verify d = d.verify := by
  have hunions : unions d.tables 0 d.tables.unions.toList = _ :=
    unions_eq fun u hu => h.variants u (Array.mem_toList_iff.1 hu)
  simp only [verify, rangeAt_eq h.shape, Descriptor.verify, Verify.ranges, Verify.root]
  cases Verify.hints 0 d.tables.unions.toList with
  | error e => rfl
  | ok =>
    cases Verify.rangeAt d.tables .root d.shape with
    | error e => rfl
    | ok nodes =>
      by_cases hone : nodes = 1
      · simp only [hone, if_true, hunions, refused_ok, bind, Except.bind]
        cases Verify.unions d.tables 0 d.tables.unions.toList <;> rfl
      · simp only [hone, if_false, refused_ok, bind, Except.bind]

end ShapeCode.Positions
