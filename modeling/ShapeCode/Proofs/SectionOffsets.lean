import ShapeCode.Proofs.ExactFiles

set_option autoImplicit false

/-!
# Where the sections of a file start

A header says where the resources and the union records of its file start, by its
lengths and counts alone.  A file is written without these offsets, section after
section, and it is read by an offset that moves along.  All three agree.  The sections
of a file that was written, or that loads, stand where the header says
(`Header.Describes`), and reading starts on each of them there (`Header.Guides`).

What a file has of a union is told apart from how it is written: `Union.record` is the
bytes of a record, whether or not its counts fit their fields, and a record that can be
written is this one.
-/

namespace ShapeCode

/-! ## Items side by side -/

/-- Items of one length stand at multiples of it. -/
theorem length_flatMap_of_length {α : Type} {f : α → Bytes} {width : Nat}
    (hf : ∀ x, (f x).length = width) (xs : List α) :
    (xs.flatMap f).length = width * xs.length := by
  induction xs with
  | nil => rfl
  | cons x xs ih =>
    rw [List.flatMap_cons, List.length_append, hf, ih, List.length_cons,
      Nat.mul_succ, Nat.add_comm]

/-- Words of eight bytes, one after another. -/
def Bytes.ofWords (words : List UInt64) : Bytes :=
  words.flatMap fun w => Bytes.ofNat 8 w.toNat

theorem Bytes.length_ofWords (words : List UInt64) :
    (ofWords words).length = 8 * words.length :=
  length_flatMap_of_length (fun _ => length_ofNat 8 _) words

/-- A word stands behind the words before it. -/
theorem Header.field_ofWords {before after : Bytes} {words : List UInt64} {i : Nat}
    (hi : i < words.length) :
    field (before ++ (Bytes.ofWords words ++ after)) (before.length + 8 * i) 8 =
        words[i].toNat := by
  have hwords : words = words.take i ++ words[i] :: words.drop (i + 1) := by
    rw [← List.drop_eq_getElem_cons hi, List.take_append_drop]
  have hsplit : before ++ (Bytes.ofWords words ++ after) =
      before ++ Bytes.ofWords (words.take i) ++
        (Bytes.ofNat 8 words[i].toNat ++ (Bytes.ofWords (words.drop (i + 1)) ++ after)) :=
          by
    conv => lhs; rw [hwords]
    simp only [Bytes.ofWords, List.flatMap_append, List.flatMap_cons, List.append_assoc]
  refine field_ofNat hsplit ?_ words[i].toNat_lt
  rw [List.length_append, Bytes.length_ofWords, List.length_take,
    Nat.min_eq_left (Nat.le_of_lt hi)]

/-! ## Records -/

/-- A variant in a record: its length and its bytes. -/
def Union.variantRecord (fields : Bytes) : Bytes := Bytes.ofNat 2 fields.length ++ fields

/-- The record of a union: how many variants and hints it has, the hints,
and the variants. -/
def Union.record (u : Union) : Bytes :=
  Bytes.ofNat 2 u.variants.size ++ Bytes.ofNat 2 u.hint.length ++
    u.hint.flatMap (fun v => Bytes.ofNat 2 v.toNat) ++
    u.variants.toList.flatMap variantRecord

namespace Binary

theorem eq_variantRecord {fields bs : Bytes} (h : variant fields = .ok bs) :
    bs = Union.variantRecord fields := by
  unfold variant at h
  split at h
  · cases h
  · rename_i length hlength
    obtain ⟨-, rfl⟩ := count_eq_ok_iff.1 hlength
    exact (Except.ok.inj h).symm

theorem eq_record {u : Union} {bs : Bytes} (h : union u = .ok bs) : bs = u.record := by
  obtain ⟨variantCount, hintCount, records, hvariants, hhints, hrecords, rfl⟩ :=
    union_eq_ok_iff.1 h
  obtain ⟨-, rfl⟩ := count_eq_ok_iff.1 hvariants
  obtain ⟨-, rfl⟩ := count_eq_ok_iff.1 hhints
  obtain rfl := eq_map_of_mapM (fun _ _ => eq_variantRecord) hrecords
  simp only [Union.record, List.flatMap_def, List.append_assoc]

end Binary

/-! ## Headers and sections -/

open Positions (slice tailAt)

/-- The counts of the header are those of the tables, and the sections of the file stand
between its offsets: the root, the resources as words of eight bytes, and to the end of
the file the records of the unions. -/
structure Header.Describes (h : Header) (d : Descriptor) (file : Bytes) : Prop where
  unionCount : h.unionCount.toNat = d.tables.unions.size
  resourceCount : h.resourceCount.toNat = d.tables.resources.size
  shape : slice file Header.size h.resourcesOffset = .ok d.shape
  resources : slice file h.resourcesOffset h.unionsOffset =
    .ok (Bytes.ofWords d.tables.resources.toList)
  resource : ∀ i (hi : i < d.tables.resources.size),
    Header.field file (h.resourcesOffset + 8 * i) 8 = d.tables.resources[i].toNat
  unions : slice file h.unionsOffset file.length =
    .ok (d.tables.unions.toList.flatMap Union.record)

/-- Reading the sections of the file one after another starts on the root behind the
header, and on the resources and on the unions at the offsets of the header, and ends at
the end of the file. -/
structure Header.Guides (h : Header) (d : Descriptor) (file : Bytes) : Prop where
  sections : Binary.readSections h (tailAt file Header.size) =
    .ok (d, tailAt file file.length)
  shape : Binary.take .shape h.shapeLength.toNat (tailAt file Header.size) =
    .ok (d.shape, tailAt file h.resourcesOffset)
  resources : Binary.readMany Binary.readResource h.resourceCount.toNat
    [] (tailAt file h.resourcesOffset) =
    .ok (d.tables.resources.toList, tailAt file h.unionsOffset)
  unions : Binary.readUnions h.unionCount.toNat 0 [] (tailAt file h.unionsOffset) =
    .ok (d.tables.unions.toList, tailAt file file.length)

/-- A part of a file, behind `before` and before `after`, from one position to another. -/
structure Binary.Stands (part file : Bytes) (start stop : Nat) : Prop where
  split : ∃ before after, file = before ++ (part ++ after) ∧ before.length = start
  stop_eq : stop = start + part.length

namespace Binary.Stands

variable {part file : Bytes} {start stop : Nat} (h : Stands part file start stop)

include h

/-- What stands between two positions is what is cut out between them. -/
theorem slice_eq : slice file start stop = .ok part := by
  obtain ⟨⟨before, after, rfl, rfl⟩, rfl⟩ := h
  rw [Positions.slice_eq (Nat.le_add_right _ _) (by simp only [List.length_append]; omega),
    List.drop_left, Nat.add_sub_cancel_left, List.take_left]

/-- A reader that takes what stands at a position stops where it ends. -/
theorem read_eq {α : Type} {read : TailReader α} {x : α} (hread : Takes read part x) :
    read (tailAt file start) = .ok (x, tailAt file stop) := by
  obtain ⟨⟨before, after, rfl, rfl⟩, rfl⟩ := h
  have hstart : tailAt (before ++ (part ++ after)) before.length =
      ⟨part ++ after, before.length⟩ := by
    rw [tailAt, List.drop_left]
  have hstop : tailAt (before ++ (part ++ after)) (before.length + part.length) =
      ⟨after, before.length + part.length⟩ := by
    rw [tailAt, ← List.drop_drop, List.drop_left, List.drop_left]
  rw [hstart, hstop]
  exact hread after before.length

end Binary.Stands

namespace Header

/-- The file is the header and the sections of the descriptor, as long and as many as
the header says. -/
structure Fronts (h : Header) (d : Descriptor) (file : Bytes)
    (records : List Bytes) : Prop where
  magic : h.magic.length = 4
  shapeLength : d.shape.length = h.shapeLength.toNat
  resourceCount : d.tables.resources.size = h.resourceCount.toNat
  unionCount : d.tables.unions.size = h.unionCount.toNat
  written : d.tables.unions.toList.mapM Binary.union = .ok records
  split : file = h.toBytes ++ (d.shape ++ (Binary.resources d.tables ++ records.flatten))

namespace Fronts

variable {h : Header} {d : Descriptor} {file : Bytes} {records : List Bytes}
  (hf : h.Fronts d file records)

include hf

theorem ofBytes_eq : ofBytes file = .ok h := by
  rw [hf.split]
  exact ofBytes_toBytes_append hf.magic _

theorem shape : Binary.Stands d.shape file size h.resourcesOffset where
  split := ⟨h.toBytes, _, hf.split, length_toBytes hf.magic⟩
  stop_eq := by
    rw [hf.shapeLength]
    rfl

theorem resources :
    Binary.Stands (Binary.resources d.tables) file h.resourcesOffset h.unionsOffset where
  split := by
    refine ⟨h.toBytes ++ d.shape, records.flatten, ?_, ?_⟩
    · rw [hf.split, List.append_assoc]
    · rw [List.length_append, length_toBytes hf.magic, hf.shapeLength]
      rfl
  stop_eq := by
    have hlength : (Binary.resources d.tables).length = 8 * d.tables.resources.size :=
      Bytes.length_ofWords d.tables.resources.toList
    rw [hlength, hf.resourceCount, Nat.mul_comm]
    rfl

theorem unions : Binary.Stands records.flatten file h.unionsOffset file.length where
  split := by
    have hstop := hf.resources.stop_eq
    refine ⟨h.toBytes ++ d.shape ++ Binary.resources d.tables, [], ?_, ?_⟩
    · rw [hf.split, List.append_nil, List.append_assoc, List.append_assoc]
    · rw [hstop, List.length_append, List.length_append,
        length_toBytes hf.magic, hf.shapeLength]
      rfl
  stop_eq := by
    have hstop := hf.resources.stop_eq
    have hlength := congrArg List.length hf.split
    simp only [List.length_append, length_toBytes hf.magic, hf.shapeLength] at hlength
    rw [hlength, hstop, resourcesOffset]
    omega

theorem field_resource {i : Nat} (hi : i < d.tables.resources.size) :
    field file (h.resourcesOffset + 8 * i) 8 = d.tables.resources[i].toNat := by
  obtain ⟨⟨before, after, rfl, hbefore⟩, -⟩ := hf.resources
  rw [← hbefore]
  exact field_ofWords hi

theorem describes : h.Describes d file where
  unionCount := hf.unionCount.symm
  resourceCount := hf.resourceCount.symm
  shape := hf.shape.slice_eq
  resources := hf.resources.slice_eq
  resource _ hi := hf.field_resource hi
  unions := by
    rw [hf.unions.slice_eq, List.flatMap_def,
      ← eq_map_of_mapM (fun _ _ => Binary.eq_record) hf.written]

theorem guides (hhinted : ∀ u ∈ d.tables.unions.toList, Binary.Hinted u) :
    h.Guides d file := by
  have hshape := hf.shape.read_eq (@Binary.take_takes .shape _ _ hf.shapeLength)
  have hresources := hf.resources.read_eq (Binary.resources_takes hf.resourceCount)
  have hunions := hf.unions.read_eq (Binary.unions_takes hf.unionCount hhinted hf.written)
  refine ⟨?_, hshape, hresources, hunions⟩
  simp only [Binary.readSections, hshape, hresources, hunions, Array.toArray_toList]

end Fronts

end Header

/-! ## Files -/

namespace Descriptor

variable {d : Descriptor} {file : Bytes}

theorem fronts_of_toBytes (h : d.toBytes = .ok file) :
    ∃ header records, Header.Fronts header d file records := by
  obtain ⟨header, records, hheader, hrecords, hsplit⟩ := toBytes_eq_ok_iff.1 h
  obtain ⟨hmagic, -, -, hunions, hresources, hshape⟩ :=
    Binary.header_eq_ok_iff.1 hheader
  exact ⟨header, records, congrArg List.length hmagic, hshape, hresources,
    hunions, hrecords, hsplit⟩

theorem fronts_of_ofBytes (h : ofBytes file = .ok d) :
    ∃ header records, Header.Fronts header d file records := by
  obtain ⟨header, stop, hheader, hsections⟩ := sections_of_ofBytes h
  obtain ⟨hsplit, hmagic⟩ :=
    Header.toBytes_of_ofBytes (Binary.readHeader_eq_ok_iff.1 hheader).1
  obtain ⟨hshape, hresources, hunions, records, hrecords, hbytes⟩ :=
    Binary.readSections_gives hsections
  refine ⟨header, records, hmagic, hshape, hresources, hunions, hrecords, ?_⟩
  rw [List.append_nil] at hbytes
  rw [← hbytes]
  exact hsplit

/-- The header of a file that was written describes its sections, and so does that of a
file that loads; and reading such a file starts on the resources and on the unions at
the offsets of the header. -/
theorem sections_at_offsets (d : Descriptor) (file : Bytes) :
    (d.toBytes = .ok file → ∃ h, Header.ofBytes file = .ok h ∧ h.Describes d file) ∧
      (ofBytes file = .ok d → ∃ h, Header.ofBytes file = .ok h ∧
        h.Describes d file ∧ h.Guides d file) := by
  constructor
  · intro hwrite
    obtain ⟨h, records, hf⟩ := fronts_of_toBytes hwrite
    exact ⟨h, hf.ofBytes_eq, hf.describes⟩
  · intro hload
    obtain ⟨h, records, hf⟩ := fronts_of_ofBytes hload
    exact ⟨h, hf.ofBytes_eq, hf.describes,
      hf.guides (hinted_of_verify (ofBytes_eq_ok_iff.1 hload).1)⟩

/-- A resource with two fields, beside another that is not referred to, and two unions,
one of them in the fields. -/
def registry : Descriptor where
  shape := Kind.resource.byte :: 1 :: 0 :: 4 :: 0 :: (Emit.scalar .u8 ++ Emit.union 1)
  tables :=
    ⟨#[⟨#[], []⟩, ⟨#[[], Emit.scalar .u64, Emit.union 0], [1, 2]⟩],
      #[0x1000, 0xdeadbeef]⟩

/-- The root takes nine bytes behind the header, and the two resources sixteen. -/
theorem sections_at_offsets_registry :
    ∃ file, registry.toBytes = .ok file ∧ ofBytes file = .ok registry ∧
    slice file 16 25 = .ok registry.shape ∧
    slice file 25 41 =
        .ok [0, 0x10, 0, 0, 0, 0, 0, 0, 0xef, 0xbe, 0xad, 0xde, 0, 0, 0, 0] ∧
    Header.field file 33 8 = 0xdeadbeef ∧
    Binary.readUnions 2 0 [] (tailAt file 41) =
        .ok (registry.tables.unions.toList, tailAt file file.length) := by
  have hfile : ∃ file, registry.toBytes = .ok file ∧ ofBytes file = .ok registry ∧
      Header.ofBytes file = .ok
        { Header.blank with unionCount := 2, resourceCount := 2, shapeLength := 9 } := by
    refine ⟨_, rfl, ?_⟩
    decide +kernel
  obtain ⟨file, hwrite, hload, hheader⟩ := hfile
  obtain ⟨hwritten, hloaded⟩ := sections_at_offsets registry file
  obtain ⟨h, hread, hdescribes⟩ := hwritten hwrite
  obtain rfl := Except.ok.inj (hheader.symm.trans hread)
  obtain ⟨h, hread, -, hguides⟩ := hloaded hload
  obtain rfl := Except.ok.inj (hheader.symm.trans hread)
  exact ⟨file, hwrite, hload, hdescribes.shape, hdescribes.resources,
    hdescribes.resource 1 (by decide),
    hguides.unions⟩

end Descriptor

end ShapeCode
