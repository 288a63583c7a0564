import ShapeCode.Proofs.BinaryRoundTrip
import ShapeCode.Proofs.CycleSearch
import ShapeCode.Proofs.Positions

set_option autoImplicit false

/-!
# Loading settles

A file is loaded section by section, by what is left of it.  Over a file in memory the
same is done by positions, and each step can go wrong as in `Positions`:
`Positions.load` looks up every byte by its index and cuts every section out between two
positions.  A section is only cut out after its end has been compared with the length of
the file, so nothing goes wrong (`Positions.load_eq`).

What is loaded is then searched for cycles by an unchecked decoder.  It meets
well-formed ranges only, because they were verified before, and unions that are in the
table.  So loading and verifying give an answer or refuse, whatever they are given
(`Descriptor.loading_settles`).
-/

namespace ShapeCode

/-! ## Answers and refusals -/

/-- The operation gives an answer or refuses, and meets no fault. -/
def Settles {α : Type} (r : Except Failure α) : Prop :=
  (∃ x, r = .ok x) ∨ ∃ e, r = .error (.refused e)

namespace Settles

variable {α β : Type}

theorem ok (x : α) : Settles (.ok x) := .inl ⟨x, rfl⟩

theorem refused (e : LoadError) : Settles (α := α) (.error (.refused e)) :=
  .inr ⟨e, rfl⟩

/-- What stops an operation that settles lets another settle. -/
theorem error {r : Except Failure α} (h : Settles r) {e : Failure} (he : r = .error e) :
    Settles (α := β) (.error e) := by
  rcases h with ⟨x, rfl⟩ | ⟨e', rfl⟩
  · cases he
  · obtain rfl := Except.error.inj he
    exact refused e'

end Settles

/-! ## Parts of files -/

/-- Where all items are done, each is. -/
theorem ok_of_mapM {ε α β : Type} {f : α → Except ε β} {xs : List α} {ys : List β}
    (h : xs.mapM f = .ok ys) : ∀ x ∈ xs, ∃ y, f x = .ok y := by
  induction xs generalizing ys with
  | nil => simp
  | cons x xs ih =>
    obtain ⟨y, ys, hx, hxs, rfl⟩ := mapM_cons_eq_ok_iff.1 h
    exact List.forall_mem_cons.2 ⟨⟨y, hx⟩, ih hxs⟩

namespace Binary

/-- Checking a union refuses it or gives it: what the checks let through can be made. -/
theorem checkedUnion_settles (id : Nat) (variants : List Bytes) (hint : List UInt16) :
    Settles (checkedUnion id variants hint) := by
  unfold checkedUnion
  split
  · exact .refused _
  · rename_i hhint
    obtain ⟨hbad, hlacks⟩ := Verify.hint_eq_ok_iff.1 hhint
    simp only [Union.make, hbad, hlacks]
    exact .ok _

theorem size_le_of_readHeader {file : Bytes} {h : Header}
    (hread : readHeader file = .ok h) : Header.size ≤ file.length := by
  unfold readHeader at hread
  split at hread
  · cases hread
  · rename_i hsize
    rw [List.length_take] at hsize
    omega

theorem length_of_variant {fields bs : Bytes} (h : variant fields = .ok bs) :
    fields.length < 65536 := by
  unfold variant at h
  split at h
  · cases h
  · rename_i length hlength
    exact (count_eq_ok_iff.1 hlength).1

end Binary

/-- A header is read from the first bytes. -/
theorem Header.ofBytes_take (bs : Bytes) : ofBytes (bs.take size) = ofBytes bs := by
  simp [ofBytes, field, size, List.drop_take, List.take_take]

namespace Positions

open Binary (Tail TailReader)

/-! ## Reading by positions -/

/-- Reads an item at a position of a file, and says where the item stops. -/
abbrev Reader (α : Type) : Type := Nat → Except Failure (α × Nat)

/-- A fault gives no answer. -/
def faulty {α : Type} : Except Fault α → Except Failure α := Except.mapError .fault

@[simp] theorem faulty_ok {α : Type} (x : α) : faulty (.ok x) = .ok x := rfl

/-- The `n` bytes of a section that starts at a position.  The end is compared with the
length before it is used. -/
def take (file : Bytes) (part : FileSection) (n : Nat) : Reader Bytes := fun offset =>
  match Word.add offset n with
  | .error _ => .error (.refused (.truncated part offset n))
  | .ok stop =>
    if stop ≤ file.length then do
      let bs ← faulty (slice file offset stop)
      return (bs, stop)
    else .error (.refused (.truncated part offset n))

/-- The number in the first `width` bytes. -/
def number (width : Nat) (bs : Bytes) : Except Failure Nat := do
  let word ← faulty (bytesAt bs width 0)
  return Bytes.toNat word

/-- Two bytes of the union records, as a number. -/
def readU16 (file : Bytes) : Reader UInt16 := fun offset => do
  let (bs, stop) ← take file .unions 2 offset
  let n ← number 2 bs
  return (UInt16.ofNat n, stop)

/-- A resource. -/
def readResource (file : Bytes) : Reader UInt64 := fun offset => do
  let (bs, stop) ← take file .resources 8 offset
  let n ← number 8 bs
  return (UInt64.ofNat n, stop)

/-- A variant behind its length. -/
def readVariant (file : Bytes) : Reader Bytes := fun offset => do
  let (length, offset) ← readU16 file offset
  take file .variant length.toNat offset

/-- `n` items in order, the first of the given number, after those in `before`, which
are kept newest first. -/
def readSeries {α : Type} (item : Nat → Reader α) :
    (n id : Nat) → (before : List α) → Reader (List α)
  | 0, _, before => fun offset => .ok (before.reverse, offset)
  | n + 1, id, before => fun offset => do
    let (x, offset) ← item id offset
    readSeries item n (id + 1) (x :: before) offset

/-- The record of the union with the given id. -/
def readUnion (file : Bytes) (id : Nat) : Reader Union := fun offset => do
  let (variantCount, offset) ← readU16 file offset
  let (hintCount, offset) ← readU16 file offset
  let (hint, offset) ← readSeries (fun _ => readU16 file) hintCount.toNat 0 [] offset
  let (variants, offset) ← readSeries
    (fun _ => readVariant file) variantCount.toNat 0 [] offset
  let u ← Binary.checkedUnion id variants hint
  return (u, offset)

/-- The sections behind a header. -/
def readSections (file : Bytes) (h : Header) : Reader Descriptor := fun offset => do
  let (shape, offset) ← take file .shape h.shapeLength.toNat offset
  let (resources, offset) ← readSeries
    (fun _ => readResource file) h.resourceCount.toNat 0 [] offset
  let (unions, offset) ← readSeries (readUnion file) h.unionCount.toNat 0 [] offset
  return (⟨shape, ⟨unions.toArray, resources.toArray⟩⟩, offset)

/-- The header in the first bytes of a file. -/
def headerOf (bs : Bytes) : Except Fault Header :=
  if bs.length < Header.size then .error .headerTooShort
  else do
    let magic ← bytesAt bs 4 0
    let version ← bytesAt bs 2 4
    let unionCount ← bytesAt bs 2 6
    let resourceCount ← bytesAt bs 2 8
    let reserved ← bytesAt bs 2 10
    let shapeLength ← bytesAt bs 4 12
    return {
      magic
      version := UInt16.ofNat (Bytes.toNat version)
      unionCount := UInt16.ofNat (Bytes.toNat unionCount)
      resourceCount := UInt16.ofNat (Bytes.toNat resourceCount)
      reserved := UInt16.ofNat (Bytes.toNat reserved)
      shapeLength := UInt32.ofNat (Bytes.toNat shapeLength) }

/-- The header of a file, if the file is one of these. -/
def readHeader (file : Bytes) : Except Failure Header :=
  if file.length < Header.size then .error (.refused (.tooSmall file.length))
  else do
    let bs ← faulty (slice file 0 Header.size)
    let h ← faulty (headerOf bs)
    if h.hasSignature = false then .error (.refused .badMagic)
    else if h.isCurrent = false then .error (.refused (.unsupportedVersion h.version))
    else return h

/-- Loads a descriptor from the bytes of a file. -/
def load (file : Bytes) : Except Failure Descriptor := do
  let h ← readHeader file
  let (d, stop) ← readSections file h Header.size
  if stop = file.length then
    verify d
    return d
  else .error (.refused (.sizeMismatch stop file.length))

/-! ## Reading by positions is reading what is left -/

/-- What is left of a file at a position. -/
def tailAt (file : Bytes) (offset : Nat) : Tail := ⟨file.drop offset, offset⟩

/-- Within a file, reading at a position does what reading what is left does: both
refuse it for one reason, or both give one item, which stops within the file. -/
def Follows {α : Type} (file : Bytes) (read : Reader α)
    (readLeft : TailReader α) : Prop :=
  ∀ offset ≤ file.length,
    (∃ e, read offset = .error (.refused e) ∧
      readLeft (tailAt file offset) = .error (.refused e)) ∨
      ∃ x stop, read offset = .ok (x, stop) ∧
        readLeft (tailAt file offset) = .ok (x, tailAt file stop) ∧
        stop ≤ file.length

/-- What is read from a file fits in memory: lengths have four bytes at most. -/
theorem inMemory_of_readSections {h : Header} {d : Descriptor} {t t' : Tail}
    (hread : Binary.readSections h t = .ok (d, t')) : InMemory d := by
  obtain ⟨hshape, -, -, records, hrecords, -⟩ := Binary.readSections_gives hread
  constructor
  · rw [hshape]
    exact Nat.lt_trans h.shapeLength.toNat_lt (by decide)
  · intro u hu fields hf
    obtain ⟨record, hrecord⟩ := ok_of_mapM hrecords u (Array.mem_toList_iff.2 hu)
    obtain ⟨-, -, variants, -, -, hvariants, -⟩ := Binary.union_eq_ok_iff.1 hrecord
    obtain ⟨bs, hbs⟩ := ok_of_mapM hvariants fields (Array.mem_toList_iff.2 hf)
    exact Nat.lt_trans (Binary.length_of_variant hbs) (by decide)

section Follows

variable {file : Bytes} (hfile : file.length < capacity)

include hfile

theorem take_follows (part : FileSection) (n : Nat) :
    Follows file (take file part n) (Binary.take part n) := by
  intro offset hoffset
  have hlimit : capacity < Word.limit := by decide
  by_cases hend : offset + n ≤ file.length
  · right
    have hadd : Word.add offset n = .ok (offset + n) := add_eq (by omega)
    have hsplit : Bytes.split? n (file.drop offset) =
        some ((file.drop offset).take n, file.drop (offset + n)) := by
      rw [Bytes.split?_eq_some_iff, ← List.drop_drop, List.take_append_drop,
        List.length_take, List.length_drop]
      exact ⟨rfl, by omega⟩
    refine ⟨(file.drop offset).take n, offset + n, ?_, ?_, hend⟩
    · simp only [take, hadd, if_pos hend, slice_eq (Nat.le_add_right offset n) hend,
        Nat.add_sub_cancel_left]
      rfl
    · simp only [Binary.take, tailAt, hsplit]
  · left
    have hsplit : Bytes.split? n (file.drop offset) = none := by
      rw [Bytes.split?_eq_none_iff, List.length_drop]
      omega
    refine ⟨.truncated part offset n, ?_, ?_⟩
    · unfold take
      split
      · rfl
      · rename_i stop hstop
        obtain ⟨-, rfl⟩ := Word.add_eq_ok_iff.1 hstop
        rw [if_neg hend]
    · simp only [Binary.take, tailAt, hsplit]

omit hfile in
theorem number_eq {width : Nat} {bs : Bytes} (hwidth : bs.length = width)
    (hroom : width < Word.limit) :
    number width bs = .ok (Bytes.toNat bs) := by
  have hbytes : bytesAt bs width 0 = .ok ((bs.drop 0).take width) :=
    bytesAt_eq (by omega) (by omega)
  rw [List.drop_zero, List.take_of_length_le (Nat.le_of_eq hwidth)] at hbytes
  rw [number, hbytes]
  rfl

theorem readU16_follows : Follows file (readU16 file) Binary.readU16 := by
  intro offset hoffset
  simp only [readU16, Binary.readU16, bind, Except.bind]
  rcases take_follows hfile .unions 2 offset hoffset
    with ⟨e, hread, hleft⟩ | ⟨bs, stop, hread, hleft, hstop⟩
  · simp only [hread, hleft]
    exact .inl ⟨e, rfl, rfl⟩
  · simp only [hread, hleft, number_eq (Binary.take_gives hleft).2 (by decide)]
    exact .inr ⟨_, stop, rfl, rfl, hstop⟩

theorem readResource_follows : Follows file (readResource file) Binary.readResource := by
  intro offset hoffset
  simp only [readResource, Binary.readResource, bind, Except.bind]
  rcases take_follows hfile .resources 8 offset hoffset
    with ⟨e, hread, hleft⟩ | ⟨bs, stop, hread, hleft, hstop⟩
  · simp only [hread, hleft]
    exact .inl ⟨e, rfl, rfl⟩
  · simp only [hread, hleft, number_eq (Binary.take_gives hleft).2 (by decide)]
    exact .inr ⟨_, stop, rfl, rfl, hstop⟩

theorem readVariant_follows : Follows file (readVariant file) Binary.readVariant := by
  intro offset hoffset
  simp only [readVariant, Binary.readVariant, bind, Except.bind]
  rcases readU16_follows hfile offset hoffset
    with ⟨e, hread, hleft⟩ | ⟨length, stop, hread, hleft, hstop⟩
  · simp only [hread, hleft]
    exact .inl ⟨e, rfl, rfl⟩
  · simp only [hread, hleft]
    exact take_follows hfile .variant length.toNat stop hstop

omit hfile in
theorem readSeries_follows {α : Type} {item : Nat → Reader α}
    {itemLeft : Nat → TailReader α}
    (hitem : ∀ id, Follows file (item id) (itemLeft id)) (n id : Nat) (before : List α) :
    Follows file (readSeries item n id before) (Binary.readSeries itemLeft n id before) :=
        by
  induction n generalizing id before with
  | zero => exact fun offset hoffset => .inr ⟨_, offset, rfl, rfl, hoffset⟩
  | succ n ih =>
    intro offset hoffset
    simp only [readSeries, Binary.readSeries, bind, Except.bind]
    rcases hitem id offset hoffset
      with ⟨e, hread, hleft⟩ | ⟨x, stop, hread, hleft, hstop⟩
    · simp only [hread, hleft]
      exact .inl ⟨e, rfl, rfl⟩
    · simp only [hread, hleft]
      exact ih (id + 1) (x :: before) stop hstop

theorem readUnion_follows (id : Nat) :
    Follows file (readUnion file id) (Binary.readUnion id) := by
  intro offset hoffset
  simp only [readUnion, Binary.readUnion,
    Binary.readMany_eq_readSeries _ _ 0, bind, Except.bind]
  rcases readU16_follows hfile offset hoffset
    with ⟨e, hread, hleft⟩ | ⟨variantCount, stop, hread, hleft, hstop⟩
  · simp only [hread, hleft]
    exact .inl ⟨e, rfl, rfl⟩
  simp only [hread, hleft]
  rcases readU16_follows hfile stop hstop
    with ⟨e, hread, hleft⟩ | ⟨hintCount, stop, hread, hleft, hstop⟩
  · simp only [hread, hleft]
    exact .inl ⟨e, rfl, rfl⟩
  simp only [hread, hleft]
  rcases readSeries_follows (fun _ => readU16_follows hfile) hintCount.toNat 0 [] stop hstop
      with
    ⟨e, hread, hleft⟩ | ⟨hint, stop, hread, hleft, hstop⟩
  · simp only [hread, hleft]
    exact .inl ⟨e, rfl, rfl⟩
  simp only [hread, hleft]
  rcases readSeries_follows (fun _ => readVariant_follows hfile)
      variantCount.toNat 0 [] stop hstop with
    ⟨e, hread, hleft⟩ | ⟨variants, stop, hread, hleft, hstop⟩
  · simp only [hread, hleft]
    exact .inl ⟨e, rfl, rfl⟩
  simp only [hread, hleft]
  rcases Binary.checkedUnion_settles id variants hint
    with ⟨u, hchecked⟩ | ⟨e, hchecked⟩
  · rw [hchecked]
    exact .inr ⟨u, stop, rfl, rfl, hstop⟩
  · rw [hchecked]
    exact .inl ⟨e, rfl, rfl⟩

theorem readSections_follows (h : Header) :
    Follows file (readSections file h) (Binary.readSections h) := by
  intro offset hoffset
  simp only [readSections, Binary.readSections, Binary.readMany_eq_readSeries _ _ 0,
    Binary.readUnions_eq_readSeries, bind, Except.bind]
  rcases take_follows hfile .shape h.shapeLength.toNat offset hoffset with
    ⟨e, hread, hleft⟩ | ⟨shape, stop, hread, hleft, hstop⟩
  · simp only [hread, hleft]
    exact .inl ⟨e, rfl, rfl⟩
  simp only [hread, hleft]
  rcases readSeries_follows (fun _ => readResource_follows hfile)
      h.resourceCount.toNat 0 [] stop hstop with
    ⟨e, hread, hleft⟩ | ⟨resources, stop, hread, hleft, hstop⟩
  · simp only [hread, hleft]
    exact .inl ⟨e, rfl, rfl⟩
  simp only [hread, hleft]
  rcases readSeries_follows (readUnion_follows hfile) h.unionCount.toNat 0 [] stop hstop
      with
    ⟨e, hread, hleft⟩ | ⟨unions, stop, hread, hleft, hstop⟩
  · simp only [hread, hleft]
    exact .inl ⟨e, rfl, rfl⟩
  · simp only [hread, hleft]
    exact .inr ⟨_, stop, rfl, rfl, hstop⟩

omit hfile in
theorem headerOf_eq {bs : Bytes} (h : bs.length = Header.size) :
    headerOf bs = Header.ofBytes bs := by
  have hbytes {width p : Nat} (hp : p + width ≤ Header.size) :
      bytesAt bs width p = .ok ((bs.drop p).take width) :=
    bytesAt_eq (by omega) (by rw [h]; decide)
  rw [headerOf, Header.ofBytes, if_neg (by omega), if_neg (by rw [List.length_take]; omega)]
  rw [hbytes (by decide), hbytes (by decide), hbytes (by decide), hbytes (by decide),
    hbytes (by decide), hbytes (by decide)]
  rfl

omit hfile in
theorem readHeader_eq : readHeader file = Binary.readHeader file := by
  have htake : (file.take Header.size).length < Header.size ↔
      file.length < Header.size := by
    rw [List.length_take]
    omega
  unfold readHeader Binary.readHeader
  by_cases hsize : file.length < Header.size
  · rw [if_pos hsize, if_pos (htake.2 hsize)]
  · have hslice := slice_eq (Nat.zero_le Header.size) (Nat.le_of_not_lt hsize)
    have hlength : (file.take Header.size).length = Header.size := by
      rw [List.length_take]
      omega
    rw [List.drop_zero, Nat.sub_zero] at hslice
    simp only [hsize, mt htake.1 hsize, if_false, hslice, headerOf_eq hlength,
      Header.ofBytes_take, faulty_ok, bind, Except.bind]
    cases Header.ofBytes file <;> rfl

/-- Loading a file by positions is loading it by what is left, and meets no
fault of its own. -/
theorem load_eq : load file = Descriptor.ofBytes file := by
  simp only [load, Descriptor.ofBytes, readHeader_eq, bind, Except.bind]
  cases hheader : Binary.readHeader file with
  | error e => rfl
  | ok h =>
    have hsize := Binary.size_le_of_readHeader hheader
    simp only
    rcases readSections_follows hfile h Header.size hsize
      with ⟨e, hread, hleft⟩ | ⟨d, stop, hread, hleft, hstop⟩
    · rw [tailAt] at hleft
      rw [hread, hleft]
    · rw [tailAt] at hleft
      have hend : (file.drop stop).isEmpty = true ↔ stop = file.length := by
        rw [List.isEmpty_iff, List.drop_eq_nil_iff]
        omega
      have hlength : stop + (file.drop stop).length = file.length := by
        rw [List.length_drop]
        omega
      have hverify := verify_eq (inMemory_of_readSections hleft)
      simp only [hread, hleft, tailAt, hend, hlength, hverify]
      split
      · cases d.verify <;> rfl
      · rfl

end Follows

end Positions

/-! ## Every step settles -/

namespace Binary

theorem take_settles (part : FileSection) (n : Nat) (t : Tail) :
    Settles (take part n t) := by
  unfold take
  split
  · exact .ok _
  · exact .refused _

theorem readU16_settles (t : Tail) : Settles (readU16 t) := by
  unfold readU16
  split
  · exact (take_settles _ _ t).error ‹_›
  · exact .ok _

theorem readResource_settles (t : Tail) : Settles (readResource t) := by
  unfold readResource
  split
  · exact (take_settles _ _ t).error ‹_›
  · exact .ok _

theorem readVariant_settles (t : Tail) : Settles (readVariant t) := by
  unfold readVariant
  split
  · exact (readU16_settles t).error ‹_›
  · exact take_settles _ _ _

theorem readSeries_settles {α : Type} {item : Nat → TailReader α}
    (hitem : ∀ id t, Settles (item id t)) (n id : Nat) (before : List α) (t : Tail) :
    Settles (readSeries item n id before t) := by
  induction n generalizing id before t with
  | zero => exact .ok _
  | succ n ih =>
    unfold readSeries
    split
    · exact (hitem id t).error ‹_›
    · exact ih _ _ _

theorem readMany_settles {α : Type} {item : TailReader α}
    (hitem : ∀ t, Settles (item t)) (n : Nat) (t : Tail) :
    Settles (readMany item n [] t) := by
  rw [readMany_eq_readSeries item n 0]
  exact readSeries_settles (fun _ => hitem) n 0 [] t

theorem readUnion_settles (id : Nat) (t : Tail) : Settles (readUnion id t) := by
  simp only [readUnion]
  split
  · exact (readU16_settles _).error ‹_›
  · split
    · exact (readU16_settles _).error ‹_›
    · split
      · exact (readMany_settles readU16_settles _ _).error ‹_›
      · split
        · exact (readMany_settles readVariant_settles _ _).error ‹_›
        · split
          · exact (checkedUnion_settles _ _ _).error ‹_›
          · exact .ok _

theorem readSections_settles (h : Header) (t : Tail) : Settles (readSections h t) := by
  simp only [readSections]
  split
  · exact (take_settles _ _ _).error ‹_›
  · split
    · exact (readMany_settles readResource_settles _ _).error ‹_›
    · split
      · rename_i hunions
        rw [readUnions_eq_readSeries] at hunions
        exact (readSeries_settles readUnion_settles _ _ _ _).error hunions
      · exact .ok _

theorem readHeader_settles (file : Bytes) : Settles (readHeader file) := by
  unfold readHeader
  split
  · exact .refused _
  · rename_i hsize
    simp only [Header.ofBytes, if_neg hsize]
    split
    · exact .refused _
    · split
      · exact .refused _
      · exact .ok _

end Binary

namespace Descriptor

/-- Where the ranges are refused nothing is decoded, and where they are accepted
decoding them meets no fault. -/
theorem verify_settles (d : Descriptor) : Settles d.verify := by
  unfold verify
  split
  · exact .refused _
  · rename_i hranges
    cases hsearch : Verify.acyclic d.tables with
    | ok => exact .ok _
    | error e =>
      obtain ⟨id, rfl, -⟩ :=
        Verify.acyclic_eq_error (Verify.sound_of_ranges hranges).1 hsearch
      exact .refused _

theorem ofBytes_settles (file : Bytes) : Settles (ofBytes file) := by
  unfold ofBytes
  split
  · exact (Binary.readHeader_settles file).error ‹_›
  · split
    · exact (Binary.readSections_settles _ _).error ‹_›
    · split
      · split
        · exact (verify_settles _).error ‹_›
        · exact .ok _
      · exact .refused _

/-- Whatever the file, loading gives a descriptor or refuses, and whatever the
descriptor, verifying accepts or refuses.  Done by positions in memory, both do the
same: no index is out of bounds and no sum leaves the word. -/
theorem loading_settles :
    (∀ file, Settles (ofBytes file)) ∧ (∀ d : Descriptor, Settles d.verify) ∧
      (∀ file, file.length < Positions.capacity →
        Positions.load file = ofBytes file) ∧
      ∀ d, Positions.InMemory d → Positions.verify d = d.verify :=
  ⟨ofBytes_settles, verify_settles, fun _ hfile => Positions.load_eq hfile,
    fun _ hd => Positions.verify_eq hd⟩

/-- A union whose only variant is the union. -/
def looped : Descriptor where
  shape := Emit.union 0
  tables := ⟨#[⟨#[Emit.union 0], [0]⟩], #[]⟩

/-- A file whose only variant is longer than what is left. -/
def cutShort : Bytes :=
  { Header.blank with unionCount := 1, shapeLength := 3 }.toBytes ++ Emit.union 0 ++
    [1, 0, 1, 0, 0, 0, 9, 0, 5]

theorem loading_settles_cutShort :
    cutShort.length < Positions.capacity ∧ Positions.InMemory looped ∧
      Positions.load cutShort = .error (.refused (.truncated .variant 27 9)) ∧
      Positions.verify looped = .error (.refused (.selfContaining 0)) := by
  have hfile : cutShort.length < Positions.capacity := by decide +kernel
  have hfits : Positions.InMemory looped := ⟨by decide +kernel, by decide +kernel⟩
  obtain ⟨-, -, hload, hverify⟩ := loading_settles
  refine ⟨hfile, hfits, ?_, ?_⟩
  · rw [hload cutShort hfile]
    decide +kernel
  · rw [hverify looped hfits]
    decide +kernel

end Descriptor

end ShapeCode
