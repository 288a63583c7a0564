import ShapeCode.Bytes
import ShapeCode.Kind

set_option autoImplicit false

/-!
# Nodes: reading shape bytecode front to back

A range of shape bytecode is read one node at a time.  A step reader takes the bytes of what
it reads off the front and hands back the rest; it stops with a fault where the bytes run
out or where no kind has the next byte.  A node with contents carries the byte length of a
nested range, so `Node.read` hands the nested range out as it is, without looking inside.

Reading is local: the node depends on its own bytes only, and every node takes at least
one byte (`Node.length_read`).
-/

namespace ShapeCode

/-! ## Step readers -/

/-- Reads something off the front of a range and returns what is left. -/
abbrev Reader (α : Type) : Type := Bytes → Except Fault (α × Bytes)

namespace Reader

/-- The next `n` bytes. -/
def take (n : Nat) : Reader Bytes := fun bs =>
  match Bytes.split? n bs with
  | some cut => .ok cut
  | none => .error (.truncated n bs.length)

/-- The next byte. -/
def byte : Reader UInt8
  | [] => .error (.truncated 1 0)
  | b :: rest => .ok (b, rest)

/-- The next two bytes, as a number. -/
def u16 : Reader UInt16 := fun bs =>
  match take 2 bs with
  | .error f => .error f
  | .ok (word, rest) => .ok (UInt16.ofNat (Bytes.toNat word), rest)

/-- A flag: any byte but zero is set. -/
def flag : Reader Bool := fun bs =>
  match byte bs with
  | .error f => .error f
  | .ok (b, rest) => .ok (b != 0, rest)

/-- A nested range behind its 16-bit length. -/
def range : Reader Bytes := fun bs =>
  match u16 bs with
  | .error f => .error f
  | .ok (length, rest) => take length.toNat rest

/-- The kind of a byte. -/
def kindOf (b : UInt8) : Except Fault Kind :=
  match Kind.ofByte? b with
  | some k => .ok k
  | none => .error (.unknownKind b.toNat)

/-- The kind of the next node. -/
def kind : Reader Kind := fun bs =>
  match byte bs with
  | .error f => .error f
  | .ok (b, rest) =>
    match kindOf b with
    | .error f => .error f
    | .ok k => .ok (k, rest)

/-- The kind of the next node, which is left in place; none at the end of the range. -/
def peek : Bytes → Except Fault (Option Kind)
  | [] => .ok none
  | b :: _ =>
    match kindOf b with
    | .error f => .error f
    | .ok k => .ok (some k)

theorem append_of_take {n : Nat} {bs head rest : Bytes} (h : take n bs = .ok (head, rest)) :
    bs = head ++ rest ∧ head.length = n := by
  unfold take at h
  split at h
  · rename_i cut hcut
    obtain rfl := Except.ok.inj h
    exact Bytes.split?_eq_some_iff.1 hcut
  · cases h

theorem length_byte {bs rest : Bytes} {b : UInt8} (h : byte bs = .ok (b, rest)) :
    bs.length = rest.length + 1 := by
  cases bs with
  | nil => cases h
  | cons c cs =>
    obtain ⟨-, rfl⟩ := Prod.mk.inj (Except.ok.inj h)
    rfl

theorem length_flag {bs rest : Bytes} {b : Bool} (h : flag bs = .ok (b, rest)) :
    bs.length = rest.length + 1 := by
  unfold flag at h
  split at h
  · cases h
  · rename_i hb
    obtain ⟨-, rfl⟩ := Prod.mk.inj (Except.ok.inj h)
    exact length_byte hb

theorem length_u16 {bs rest : Bytes} {n : UInt16} (h : u16 bs = .ok (n, rest)) :
    bs.length = rest.length + 2 := by
  unfold u16 at h
  split at h
  · cases h
  · rename_i hw
    obtain ⟨-, rfl⟩ := Prod.mk.inj (Except.ok.inj h)
    obtain ⟨rfl, hl⟩ := append_of_take hw
    rw [List.length_append, hl, Nat.add_comm]

theorem length_range {bs inner rest : Bytes} (h : range bs = .ok (inner, rest)) :
    bs.length = inner.length + rest.length + 2 := by
  unfold range at h
  split at h
  · cases h
  · rename_i hu
    obtain ⟨rfl, -⟩ := append_of_take h
    rw [length_u16 hu, List.length_append]

end Reader

/-! ## Nodes -/

/-- How a run of elements is held. -/
inductive RunForm where
  /-- Behind a pointer to a vector header. -/
  | vec
  /-- Behind a vector header stored inline. -/
  | unboxedVec
  /-- Behind a data pointer and a byte length; a string slice counts its terminator. -/
  | slice (isStr : Bool)
  /-- Inline, `count` of them. -/
  | fixedVec (count : UInt16)
  deriving DecidableEq, Repr, Inhabited

/-- How a value is pointed at. -/
inductive PointerForm where
  /-- Through a counted heap cell. -/
  | box
  /-- Owning its target. -/
  | uniq
  /-- Borrowing its target. -/
  | borrow
  deriving DecidableEq, Repr, Inhabited

/-- The sign written before what a pointer points at. -/
def PointerForm.sigil : PointerForm → String
  | .box => "@"
  | .uniq => "~"
  | .borrow => "&"

/-- Values known by their words alone. -/
inductive Handle where
  | callable (c : Callable)
  | object
  | traitObject
  | typeDescriptor
  deriving DecidableEq, Repr, Inhabited

namespace Handle

/-- Words in a handle. -/
def words : Handle → Nat
  | .callable c => c.words
  | .object | .traitObject => 2
  | .typeDescriptor => 1

/-- The name of a handle. -/
def name : Handle → String
  | .callable _ => "fn"
  | .object => "obj"
  | .traitObject => "trait"
  | .typeDescriptor => "tydesc"

end Handle

/-- One node of shape bytecode.  Nested ranges are kept as bytes. -/
inductive Node where
  | scalar (s : Scalar)
  /-- Fields in order. -/
  | record (fields : Bytes)
  /-- A tagged union of the union table. -/
  | union (id : UInt16)
  /-- Elements of one shape; plain elements hold no pointers. -/
  | run (form : RunForm) (plain : Bool) (elem : Bytes)
  | pointer (form : PointerForm) (inner : Bytes)
  | handle (h : Handle)
  /-- Fields of a value with a destructor. -/
  | resource (id : UInt16) (fields : Bytes)
  deriving DecidableEq, Repr, Inhabited

namespace Node

/-- The nested range of a node, empty if it has none. -/
def nested : Node → Bytes
  | .scalar _ | .union _ | .handle _ => []
  | .record fields => fields
  | .run _ _ elem => elem
  | .pointer _ inner => inner
  | .resource _ fields => fields

/-- A node of a pointer kind: its nested range. -/
def readPointer (form : PointerForm) : Reader Node := fun bs =>
  match Reader.range bs with
  | .error f => .error f
  | .ok (inner, rest) => .ok (.pointer form inner, rest)

/-- A run whose flag and element range are still to come. -/
def readRun (form : RunForm) : Reader Node := fun bs =>
  match Reader.flag bs with
  | .error f => .error f
  | .ok (plain, bs) =>
    match Reader.range bs with
    | .error f => .error f
    | .ok (elem, rest) => .ok (.run form plain elem, rest)

/-- A slice: two flags and an element range. -/
def readSlice : Reader Node := fun bs =>
  match Reader.flag bs with
  | .error f => .error f
  | .ok (plain, bs) =>
    match Reader.flag bs with
    | .error f => .error f
    | .ok (isStr, bs) =>
      match Reader.range bs with
      | .error f => .error f
      | .ok (elem, rest) => .ok (.run (.slice isStr) plain elem, rest)

/-- A fixed vector: a count, a flag and an element range. -/
def readFixedVec : Reader Node := fun bs =>
  match Reader.u16 bs with
  | .error f => .error f
  | .ok (count, bs) => readRun (.fixedVec count) bs

/-- A record: its fields. -/
def readRecord : Reader Node := fun bs =>
  match Reader.range bs with
  | .error f => .error f
  | .ok (fields, rest) => .ok (.record fields, rest)

/-- A union: its id. -/
def readUnion : Reader Node := fun bs =>
  match Reader.u16 bs with
  | .error f => .error f
  | .ok (id, rest) => .ok (.union id, rest)

/-- A resource: its id and its fields. -/
def readResource : Reader Node := fun bs =>
  match Reader.u16 bs with
  | .error f => .error f
  | .ok (id, bs) =>
    match Reader.range bs with
    | .error f => .error f
    | .ok (fields, rest) => .ok (.resource id fields, rest)

/-- The operands of a node of the given kind. -/
def readOperands : Kind → Reader Node
  | .scalar s => fun bs => .ok (.scalar s, bs)
  | .callable c => fun bs => .ok (.handle (.callable c), bs)
  | .object => fun bs => .ok (.handle .object, bs)
  | .traitObject => fun bs => .ok (.handle .traitObject, bs)
  | .typeDescriptor => fun bs => .ok (.handle .typeDescriptor, bs)
  | .box => readPointer .box
  | .uniq => readPointer .uniq
  | .borrow => readPointer .borrow
  | .vec => readRun .vec
  | .unboxedVec => readRun .unboxedVec
  | .slice => readSlice
  | .fixedVec => readFixedVec
  | .record => readRecord
  | .union => readUnion
  | .resource => readResource

/-- The next node. -/
def read : Reader Node := fun bs =>
  match Reader.kind bs with
  | .error f => .error f
  | .ok (k, rest) => readOperands k rest

/-! ## Every node takes bytes -/

theorem length_readPointer {form : PointerForm} {bs rest : Bytes} {n : Node}
    (h : readPointer form bs = .ok (n, rest)) :
    n.nested.length + rest.length ≤ bs.length := by
  unfold readPointer at h
  split at h
  · cases h
  · rename_i hr
    obtain ⟨rfl, rfl⟩ := Prod.mk.inj (Except.ok.inj h)
    have := Reader.length_range hr
    simp only [nested]
    omega

theorem length_readRun {form : RunForm} {bs rest : Bytes} {n : Node}
    (h : readRun form bs = .ok (n, rest)) :
    n.nested.length + rest.length ≤ bs.length := by
  unfold readRun at h
  split at h
  · cases h
  · rename_i hf
    split at h
    · cases h
    · rename_i hr
      obtain ⟨rfl, rfl⟩ := Prod.mk.inj (Except.ok.inj h)
      have := Reader.length_flag hf
      have := Reader.length_range hr
      simp only [nested]
      omega

theorem length_readSlice {bs rest : Bytes} {n : Node} (h : readSlice bs = .ok (n, rest)) :
    n.nested.length + rest.length ≤ bs.length := by
  unfold readSlice at h
  split at h
  · cases h
  · rename_i hf
    split at h
    · cases h
    · rename_i hg
      split at h
      · cases h
      · rename_i hr
        obtain ⟨rfl, rfl⟩ := Prod.mk.inj (Except.ok.inj h)
        have := Reader.length_flag hf
        have := Reader.length_flag hg
        have := Reader.length_range hr
        simp only [nested]
        omega

theorem length_readFixedVec {bs rest : Bytes} {n : Node}
    (h : readFixedVec bs = .ok (n, rest)) :
    n.nested.length + rest.length ≤ bs.length := by
  unfold readFixedVec at h
  split at h
  · cases h
  · rename_i hu
    have := Reader.length_u16 hu
    have := length_readRun h
    omega

theorem length_readRecord {bs rest : Bytes} {n : Node} (h : readRecord bs = .ok (n, rest)) :
    n.nested.length + rest.length ≤ bs.length := by
  unfold readRecord at h
  split at h
  · cases h
  · rename_i hr
    obtain ⟨rfl, rfl⟩ := Prod.mk.inj (Except.ok.inj h)
    have := Reader.length_range hr
    simp only [nested]
    omega

theorem length_readUnion {bs rest : Bytes} {n : Node} (h : readUnion bs = .ok (n, rest)) :
    n.nested.length + rest.length ≤ bs.length := by
  unfold readUnion at h
  split at h
  · cases h
  · rename_i hu
    obtain ⟨rfl, rfl⟩ := Prod.mk.inj (Except.ok.inj h)
    have := Reader.length_u16 hu
    simp only [nested, List.length_nil]
    omega

theorem length_readResource {bs rest : Bytes} {n : Node}
    (h : readResource bs = .ok (n, rest)) :
    n.nested.length + rest.length ≤ bs.length := by
  unfold readResource at h
  split at h
  · cases h
  · rename_i hu
    split at h
    · cases h
    · rename_i hr
      obtain ⟨rfl, rfl⟩ := Prod.mk.inj (Except.ok.inj h)
      have := Reader.length_u16 hu
      have := Reader.length_range hr
      simp only [nested]
      omega

theorem length_readOperands {k : Kind} {bs rest : Bytes} {n : Node}
    (h : readOperands k bs = .ok (n, rest)) :
    n.nested.length + rest.length ≤ bs.length := by
  cases k with
  | box | uniq | borrow => exact length_readPointer h
  | vec | unboxedVec => exact length_readRun h
  | slice => exact length_readSlice h
  | fixedVec => exact length_readFixedVec h
  | record => exact length_readRecord h
  | union => exact length_readUnion h
  | resource => exact length_readResource h
  | _ =>
    obtain ⟨rfl, rfl⟩ := Prod.mk.inj (Except.ok.inj h)
    simp [nested]

/-- A node and its nested range are shorter than the range they were read from. -/
theorem length_read {bs rest : Bytes} {n : Node} (h : read bs = .ok (n, rest)) :
    n.nested.length + rest.length < bs.length := by
  unfold read Reader.kind at h
  split at h
  · cases h
  · rename_i hk
    split at hk
    · cases hk
    · rename_i hb
      split at hk
      · cases hk
      · obtain ⟨rfl, rfl⟩ := Prod.mk.inj (Except.ok.inj hk)
        have := Reader.length_byte hb
        have := length_readOperands h
        omega

/-! ## Reading a whole range -/

/-- The nodes of a range in order, after those in `before`, which are kept newest first. -/
def readAll (bs : Bytes) (before : List Node) : Except Fault (List Node) :=
  if bs = [] then .ok before.reverse
  else
    match _ : read bs with
    | .error f => .error f
    | .ok (n, rest) => readAll rest (n :: before)
termination_by bs.length
decreasing_by
  have := length_read ‹read bs = .ok _›
  omega

end Node

end ShapeCode
