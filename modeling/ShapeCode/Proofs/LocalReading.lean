import ShapeCode.Node

set_option autoImplicit false

/-!
# Reading is local

A reader takes some bytes off the front of a range and looks at no others: it takes the
same bytes whatever follows them, and runs out of bytes on anything shorter
(`Reader.Takes`).  Nodes are read by readers that follow one another (`Reader.andThen`),
which hands this on from the operands to the node (`Reader.Local.andThen`).

So the bytes of a node say where they end (`Node.read_eq_ok_iff`), and there is one way to
cut a range into nodes, up to its end or to bytes that start with no node (`Node.Splits`).
-/

namespace ShapeCode

/-! ## Readers that follow one another -/

namespace Reader

variable {α β : Type}

/-- Reads one thing, and then what depends on it. -/
def andThen (first : Reader α) (next : α → Reader β) : Reader β := fun bs =>
  match first bs with
  | .error f => .error f
  | .ok (x, rest) => next x rest

/-- Takes nothing. -/
def give (x : α) : Reader α := fun bs => .ok (x, bs)

/-- Takes nothing, and stops if there is nothing to give. -/
def settle : Except Fault α → Reader α
  | .error f => fun _ => .error f
  | .ok x => give x

theorem u16_eq :
    u16 = (take 2).andThen fun word => give (UInt16.ofNat (Bytes.toNat word)) := by
  funext bs
  simp only [u16, andThen]
  cases take 2 bs <;> rfl

theorem flag_eq : flag = byte.andThen fun b => give (b != 0) := by
  funext bs
  simp only [flag, andThen]
  cases byte bs <;> rfl

theorem range_eq : range = u16.andThen fun length => take length.toNat := by
  funext bs
  simp only [range, andThen]
  cases u16 bs <;> rfl

theorem kind_eq : kind = byte.andThen fun b => settle (kindOf b) := by
  funext bs
  rcases hb : byte bs with f | ⟨b, rest⟩
  · simp only [kind, andThen, hb]
  · simp only [kind, andThen, hb]
    cases kindOf b <;> rfl

end Reader

namespace Node

open Reader

theorem readPointer_eq (form : PointerForm) :
    readPointer form = range.andThen fun inner => give (.pointer form inner) := by
  funext bs
  simp only [readPointer, andThen]
  cases range bs <;> rfl

theorem readRun_eq (form : RunForm) :
    readRun form = flag.andThen fun plain => range.andThen fun elem =>
        give (.run form plain elem) := by
  funext bs
  rcases hplain : flag bs with f | ⟨plain, rest⟩
  · simp only [readRun, andThen, hplain]
  · simp only [readRun, andThen, hplain]
    cases range rest <;> rfl

theorem readSlice_eq :
    readSlice = flag.andThen fun plain => flag.andThen fun isStr =>
        range.andThen fun elem =>
      give (.run (.slice isStr) plain elem) := by
  funext bs
  rcases hplain : flag bs with f | ⟨plain, rest⟩
  · simp only [readSlice, andThen, hplain]
  · rcases hstr : flag rest with f | ⟨isStr, rest'⟩
    · simp only [readSlice, andThen, hplain, hstr]
    · simp only [readSlice, andThen, hplain, hstr]
      cases range rest' <;> rfl

theorem readFixedVec_eq :
    readFixedVec = u16.andThen fun count => readRun (.fixedVec count) := by
  funext bs
  simp only [readFixedVec, andThen]
  cases u16 bs <;> rfl

theorem readRecord_eq : readRecord = range.andThen fun fields => give (.record fields) := by
  funext bs
  simp only [readRecord, andThen]
  cases range bs <;> rfl

theorem readUnion_eq : readUnion = u16.andThen fun id => give (.union id) := by
  funext bs
  simp only [readUnion, andThen]
  cases u16 bs <;> rfl

theorem readResource_eq :
    readResource = u16.andThen fun id => range.andThen fun fields =>
        give (.resource id fields) := by
  funext bs
  rcases hid : u16 bs with f | ⟨id, rest⟩
  · simp only [readResource, andThen, hid]
  · simp only [readResource, andThen, hid]
    cases range rest <;> rfl

theorem read_eq : read = kind.andThen readOperands := by
  funext bs
  simp only [read, andThen]
  cases kind bs <;> rfl

end Node

/-! ## Readers that look at what they take -/

namespace Reader

variable {α β : Type} {inside : α → Bytes} {inside' : β → Bytes} {first : Reader α}
  {next : α → Reader β}
  {code code' bs : Bytes} {x : α} {y : β}

/-- The reader takes the code off the front, whatever follows it, and runs out of bytes
where the code is cut off. -/
structure Takes (read : Reader α) (code : Bytes) (x : α) : Prop where
  reads : ∀ rest, read (code ++ rest) = .ok (x, rest)
  runsOut : ∀ front, front <+: code → front ≠ code →
    ∃ need left, left < need ∧ read front = .error (.truncated need left)

/-- Whatever the reader reads it takes off the front, and the bytes inside what it reads
are the last that it takes. -/
structure Local (inside : α → Bytes) (read : Reader α) : Prop where
  exists_takes : ∀ {bs x rest}, read bs = .ok (x, rest) →
    ∃ code, bs = code ++ rest ∧ inside x <:+ code ∧ read.Takes code x

/-- What is read holds none of the bytes. -/
def nothing (_ : α) : Bytes := []

theorem andThen_eq_ok {rest : Bytes} (h : first.andThen next bs = .ok (y, rest)) :
    ∃ x mid, first bs = .ok (x, mid) ∧ next x mid = .ok (y, rest) := by
  unfold andThen at h
  split at h
  · cases h
  · exact ⟨_, _, by assumption, h⟩

theorem takes_give (x : α) : (give x).Takes [] x where
  reads _ := rfl
  runsOut _ hfront hne := absurd (List.prefix_nil.1 hfront) hne

/-- Readers that follow one another take the bytes of both, and run out of bytes in
one or the other. -/
theorem Takes.andThen (h : first.Takes code x) (h' : (next x).Takes code' y) :
    (first.andThen next).Takes (code ++ code') y where
  reads rest := by simp only [Reader.andThen, List.append_assoc, h.reads, h'.reads]
  runsOut front hfront hne := by
    by_cases hcode : code <+: front
    · obtain ⟨front', rfl⟩ := hcode
      have hfront' : front' <+: code' := (List.prefix_append_right_inj code).1 hfront
      obtain ⟨need, left, hlt, hrun⟩ :=
        h'.runsOut front' hfront' fun heq => hne (heq ▸ rfl)
      exact ⟨need, left, hlt, by simp only [Reader.andThen, h.reads, hrun]⟩
    · have hshort : front <+: code :=
        (List.prefix_or_prefix_of_prefix hfront
          (List.prefix_append _ _)).resolve_right hcode
      obtain ⟨need, left, hlt, hrun⟩ :=
        h.runsOut front hshort fun heq => hcode (heq ▸ List.prefix_refl _)
      exact ⟨need, left, hlt, by simp only [Reader.andThen, hrun]⟩

theorem local_give (hx : inside x = []) : Local inside (give x) := by
  refine ⟨fun {bs y rest} h => ?_⟩
  obtain ⟨rfl, rfl⟩ := Prod.mk.inj (Except.ok.inj h)
  exact ⟨[], rfl, hx ▸ List.nil_suffix, takes_give x⟩

theorem Local.andThen (h : Local inside first) (h' : ∀ x, Local inside' (next x)) :
    Local inside' (first.andThen next) := by
  refine ⟨fun {bs y rest} hread => ?_⟩
  obtain ⟨x, mid, hfirst, hnext⟩ := andThen_eq_ok hread
  obtain ⟨code, rfl, -, htakes⟩ := h.exists_takes hfirst
  obtain ⟨code', rfl, hinside, htakes'⟩ := (h' x).exists_takes hnext
  refine ⟨code ++ code', ?_, hinside.trans (List.suffix_append _ _),
    htakes.andThen htakes'⟩
  rw [List.append_assoc]

/-- What is read may be made into something else that holds the same bytes. -/
theorem Local.map {g : α → β} (h : Local inside first)
    (hg : ∀ x, inside' (g x) = inside x) :
    Local inside' (first.andThen fun x => give (g x)) := by
  refine ⟨fun {bs y rest} hread => ?_⟩
  obtain ⟨x, mid, hfirst, hnext⟩ := andThen_eq_ok hread
  obtain ⟨rfl, rfl⟩ := Prod.mk.inj (Except.ok.inj hnext)
  obtain ⟨code, rfl, hinside, htakes⟩ := h.exists_takes hfirst
  have htakes' : (first.andThen fun x => give (g x)).Takes (code ++ []) (g x) :=
    htakes.andThen (takes_give (g x))
  rw [List.append_nil] at htakes'
  exact ⟨code, rfl, hg x ▸ hinside, htakes'⟩

theorem local_take (n : Nat) : Local id (take n) := by
  refine ⟨fun {bs head rest} h => ?_⟩
  obtain ⟨rfl, hlength⟩ := append_of_take h
  refine ⟨head, rfl, List.suffix_refl _, fun rest => ?_, fun front hfront hne => ?_⟩
  · have hsplit : Bytes.split? n (head ++ rest) = some (head, rest) :=
      Bytes.split?_eq_some_iff.2 ⟨rfl, hlength⟩
    simp only [take, hsplit]
  · have hle : front.length ≤ head.length := hfront.length_le
    have hshort : front.length ≠ head.length := fun heq => hne (hfront.eq_of_length heq)
    have hlt : front.length < n := by omega
    exact ⟨n, front.length, hlt, by simp only [take, Bytes.split?_eq_none_iff.2 hlt]⟩

theorem local_byte : Local nothing byte := by
  refine ⟨fun {bs b rest} h => ?_⟩
  cases bs with
  | nil => cases h
  | cons c cs =>
    obtain ⟨rfl, rfl⟩ := Prod.mk.inj (Except.ok.inj h)
    refine ⟨[c], rfl, List.nil_suffix, fun _ => rfl,
      fun front hfront hne => ⟨1, 0, Nat.one_pos, ?_⟩⟩
    obtain rfl | ⟨rest', rfl, hrest⟩ := List.prefix_cons_iff.1 hfront
    · rfl
    · rw [List.prefix_nil.1 hrest] at hne
      exact absurd rfl hne

theorem local_settle (found : Except Fault α) : Local nothing (settle found) := by
  cases found with
  | error f => exact ⟨fun h => by cases h⟩
  | ok x => exact local_give rfl

theorem local_u16 : Local nothing u16 := by
  rw [u16_eq]
  exact (local_take 2).andThen fun _ => local_give rfl

theorem local_flag : Local nothing flag := by
  rw [flag_eq]
  exact local_byte.map fun _ => rfl

theorem local_range : Local id range := by
  rw [range_eq]
  exact local_u16.andThen fun length => local_take length.toNat

theorem local_kind : Local nothing kind := by
  rw [kind_eq]
  exact local_byte.andThen fun b => local_settle (kindOf b)

end Reader

namespace Node

open Reader

theorem local_readPointer (form : PointerForm) : Local nested (readPointer form) := by
  rw [readPointer_eq]
  exact local_range.map fun _ => rfl

theorem local_readRun (form : RunForm) : Local nested (readRun form) := by
  rw [readRun_eq]
  exact local_flag.andThen fun _ => local_range.map fun _ => rfl

theorem local_readSlice : Local nested readSlice := by
  rw [readSlice_eq]
  exact local_flag.andThen fun _ => local_flag.andThen fun _ => local_range.map fun _ => rfl

theorem local_readFixedVec : Local nested readFixedVec := by
  rw [readFixedVec_eq]
  exact local_u16.andThen fun count => local_readRun (.fixedVec count)

theorem local_readRecord : Local nested readRecord := by
  rw [readRecord_eq]
  exact local_range.map fun _ => rfl

theorem local_readUnion : Local nested readUnion := by
  rw [readUnion_eq]
  exact local_u16.map fun _ => rfl

theorem local_readResource : Local nested readResource := by
  rw [readResource_eq]
  exact local_u16.andThen fun _ => local_range.map fun _ => rfl

theorem local_readOperands (k : Kind) : Local nested (readOperands k) := by
  cases k with
  | scalar | callable | object | traitObject | typeDescriptor => exact local_give rfl
  | box | uniq | borrow => exact local_readPointer _
  | vec | unboxedVec => exact local_readRun _
  | slice => exact local_readSlice
  | fixedVec => exact local_readFixedVec
  | record => exact local_readRecord
  | union => exact local_readUnion
  | resource => exact local_readResource

theorem local_read : Local nested read := by
  rw [read_eq]
  exact local_kind.andThen local_readOperands

/-! ## The code of a node -/

/-- The bytes are the code of the node.  Reading takes them off the front, whatever follows,
and runs out of bytes where they are cut off; the nested range is the last of them. -/
structure Spelled (node : Node) (code : Bytes) : Prop where
  takes : read.Takes code node
  nonempty : code ≠ []
  nested : node.nested <:+ code

variable {node : Node} {code bs rest : Bytes} {f : Fault}

theorem read_nil : read [] = .error (.truncated 1 0) := rfl

theorem Spelled.read_append (h : node.Spelled code) (rest : Bytes) :
    read (code ++ rest) = .ok (node, rest) :=
  h.takes.reads rest

/-- What is read is a node whose code the range starts with. -/
theorem read_eq_ok_iff :
    read bs = .ok (node, rest) ↔ ∃ code, node.Spelled code ∧ bs = code ++ rest := by
  constructor
  · intro h
    obtain ⟨code, rfl, hnested, htakes⟩ := local_read.exists_takes h
    refine ⟨code, ⟨htakes, ?_, hnested⟩, rfl⟩
    rintro rfl
    have hnil : read [] = .ok (node, []) := htakes.reads []
    rw [read_nil] at hnil
    cases hnil
  · rintro ⟨code, hcode, rfl⟩
    exact hcode.read_append rest

/-! ## Ranges -/

/-- The range is cut into the codes of nodes, one after another, up to bytes on which
reading stops with a fault.  At the end of the range these are no bytes. -/
inductive Splits :
    (bs : Bytes) → (pieces : List (Node × Bytes)) → (rest : Bytes) →
      (stop : Fault) → Prop where
  | stop {rest : Bytes} {f : Fault} (h : read rest = .error f) : Splits rest [] rest f
  | node {node : Node} {code bs rest : Bytes} {pieces : List (Node × Bytes)} {f : Fault}
      (hnode : node.Spelled code) (hrest : Splits bs pieces rest f) :
      Splits (code ++ bs) ((node, code) :: pieces) rest f

variable {pieces pieces' : List (Node × Bytes)} {rest' : Bytes} {f' : Fault}

/-- Every range can be cut, since each node takes at least one byte. -/
theorem exists_splits (bs : Bytes) : ∃ pieces rest f, Splits bs pieces rest f := by
  generalize hlength : bs.length = length
  induction length using Nat.strongRecOn generalizing bs with
  | _ length ih =>
    rcases hread : read bs with f | ⟨node, rest⟩
    · exact ⟨[], bs, f, .stop hread⟩
    · have hlt := length_read hread
      obtain ⟨code, hnode, rfl⟩ := read_eq_ok_iff.1 hread
      obtain ⟨pieces, last, f, hrest⟩ := ih rest.length (by omega) rest rfl
      exact ⟨(node, code) :: pieces, last, f, .node hnode hrest⟩

/-- There is no other way to cut it. -/
theorem Splits.unique (h : Splits bs pieces rest f) (h' : Splits bs pieces' rest' f') :
    pieces' = pieces ∧ rest' = rest ∧ f' = f := by
  induction h generalizing pieces' with
  | @stop rest f hstop =>
    cases h' with
    | stop hstop' => exact ⟨rfl, rfl, Except.error.inj (hstop'.symm.trans hstop)⟩
    | node hnode _ =>
      rw [hnode.read_append] at hstop
      cases hstop
  | @node node code bs rest pieces f hnode _ ih =>
    have hread := hnode.read_append bs
    generalize hwhole : code ++ bs = whole at hread h'
    cases h' with
    | stop hstop =>
      rw [hread] at hstop
      cases hstop
    | @node node' code' bs' _ pieces' _ hnode' hrest' =>
      rw [hnode'.read_append] at hread
      obtain ⟨rfl, rfl⟩ := Prod.mk.inj (Except.ok.inj hread)
      obtain rfl := List.append_cancel_right hwhole
      obtain ⟨rfl, rfl, rfl⟩ := ih hrest'
      exact ⟨rfl, rfl, rfl⟩

/-- The pieces are what the range is made of. -/
theorem Splits.joined (h : Splits bs pieces rest f) :
    bs = pieces.flatMap Prod.snd ++ rest := by
  induction h with
  | stop => rfl
  | node _ _ ih => rw [ih, List.flatMap_cons, List.append_assoc]

theorem Splits.length_le (h : Splits bs pieces rest f) : pieces.length ≤ bs.length := by
  induction h with
  | stop => exact Nat.zero_le _
  | node hnode _ ih =>
    have hpos := List.length_pos_iff.2 hnode.nonempty
    simp only [List.length_cons, List.length_append]
    omega

/-- Reading a range node by node gives the nodes of the pieces, or stops where they do. -/
theorem Splits.readAll_eq (h : Splits bs pieces rest f) (before : List Node) :
    readAll bs before = if rest = []
        then .ok (before.reverse ++ pieces.map Prod.fst) else .error f := by
  induction h generalizing before with
  | @stop rest f hstop =>
    rw [readAll]
    split
    · simp
    · split
      · rename_i f' hread
        rw [Except.error.inj (hread.symm.trans hstop)]
      · rename_i hread
        rw [hstop] at hread
        cases hread
  | @node node code bs rest pieces f hnode _ ih =>
    have hread := hnode.read_append bs
    have hne : code ++ bs ≠ [] := fun h => hnode.nonempty (List.append_eq_nil_iff.1 h).1
    rw [readAll, if_neg hne]
    split
    · rename_i hstop
      rw [hread] at hstop
      cases hstop
    · rename_i node' rest' hread'
      obtain ⟨rfl, rfl⟩ := Prod.mk.inj (Except.ok.inj (hread.symm.trans hread'))
      rw [ih]
      simp

/-- Reading is local, and cuts every range in one way.  What is read is a node whose
code the range starts with; going on behind it ends after at most as many nodes as the
range has bytes, at its end or where no node can be read. -/
theorem reading_local (bs : Bytes) :
    (∀ node rest, read bs = .ok (node, rest) ↔
      ∃ code, node.Spelled code ∧ bs = code ++ rest) ∧
    ∃ pieces rest f, Splits bs pieces rest f ∧
      (∀ pieces' rest' f', Splits bs pieces' rest' f' →
        pieces' = pieces ∧ rest' = rest ∧ f' = f) ∧
      bs = pieces.flatMap Prod.snd ++ rest ∧
      pieces.length ≤ bs.length ∧
      readAll bs [] = if rest = [] then .ok (pieces.map Prod.fst) else .error f := by
  obtain ⟨pieces, rest, f, h⟩ := exists_splits bs
  refine ⟨fun node rest => read_eq_ok_iff, pieces, rest, f, h, fun _ _ _ => h.unique,
    h.joined, h.length_le, ?_⟩
  simpa using h.readAll_eq []

/-- A box of a record of one byte, with a number behind it that is not its own. -/
theorem reading_local_box :
    read [10, 4, 0, 17, 1, 0, 0, 1] = .ok (.pointer .box [17, 1, 0, 0], [1]) ∧
      (Node.pointer .box [17, 1, 0, 0]).Spelled [10, 4, 0, 17, 1, 0, 0] := by
  have hread : read [10, 4, 0, 17, 1, 0, 0, 1] = .ok (.pointer .box [17, 1, 0, 0], [1]) :=
    rfl
  obtain ⟨code, hcode, hbs⟩ := ((reading_local _).1 _ _).1 hread
  have happend : [10, 4, 0, 17, 1, 0, 0] ++ [1] = code ++ [1] := hbs
  obtain rfl := List.append_cancel_right happend
  exact ⟨hread, hcode⟩

end Node

end ShapeCode
