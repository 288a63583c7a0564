import ShapeCode.Descriptor.Builder
import ShapeCode.Draft
import ShapeCode.Proofs.BinaryRoundTrip
import ShapeCode.Proofs.Grammar

set_option autoImplicit false

/-!
# The limits of builders and files

A file has a field of limited width for everything it counts, and a descriptor can be
written exactly if all of its counts fit (`Descriptor.toBytes_fits`).  A builder has
limits of its own.  It hands out ids of sixteen bits, so a table may grow until the
largest id is taken (`Builder.Within.applyAll`), one item more than a file can count.
The length of a nested range is checked where the range is closed, which bounds a root
of one node, but not a variant.  Of variants and hints a builder takes any number.

So what a builder makes can be written unless one of these counts is too large
(`Builder.described_written_iff`), and a table of all the ids there are is too large
(`Builder.described_unwritten`).
-/

namespace ShapeCode

/-! ## What files count -/

/-- From this number on a count does not fit its field. -/
def Counted.limit : Counted → Nat
  | .shapeBytes => 0x100000000
  | .unions | .resources | .variants | .hints | .variantBytes => 0x10000

/-- What the record of a union counts. -/
inductive Union.Counts (u : Union) : (what : Counted) → (n : Nat) → Prop where
  | variants : Counts u .variants u.variants.size
  | hints : Counts u .hints u.hint.length
  | variantBytes {fields : Bytes} (h : fields ∈ u.variants) :
      Counts u .variantBytes fields.length

/-- What the file of a descriptor counts. -/
inductive Descriptor.Counts (d : Descriptor) : (what : Counted) → (n : Nat) → Prop where
  | unions : Counts d .unions d.tables.unions.size
  | resources : Counts d .resources d.tables.resources.size
  | shapeBytes : Counts d .shapeBytes d.shape.length
  | record {u : Union} {what : Counted} {n : Nat} (hu : u ∈ d.tables.unions)
      (h : u.Counts what n) : Counts d what n

/-! ## Writing -/

namespace Binary

/-- What was counted fits its fields if there is a result, and a refusal names a count
that does not fit. -/
def Fits {α : Type} (counts : Counted → Nat → Prop) : Except LoadError α → Prop
  | .ok _ => ∀ what n, counts what n → n < what.limit
  | .error e => ∃ what n, e = .tooMany what n ∧ counts what n ∧ what.limit ≤ n

variable {α β : Type} {counts counts' : Counted → Nat → Prop}

theorem Fits.congr {r : Except LoadError α} (h : Fits counts r)
    (hsame : ∀ what n, counts what n ↔ counts' what n) : Fits counts' r := by
  obtain rfl : counts = counts' := funext fun what => funext fun n => propext (hsame what n)
  exact h

/-- Where nothing is counted there is a result. -/
theorem Fits.of_eq_ok {r : Except LoadError α} {x : α} (h : r = .ok x) :
    Fits (fun _ _ => False) r := by
  subst h
  exact fun _ _ => False.elim

/-- What is written first is refused first, and else what is written after it decides. -/
theorem Fits.andThen {first : Except LoadError α} {both : Except LoadError β}
    (h : Fits counts first) (herror : ∀ e, first = .error e → both = .error e)
    (hok : ∀ x, first = .ok x → Fits counts' both) :
    Fits (fun what n => counts what n ∨ counts' what n) both := by
  cases first with
  | error e =>
    obtain ⟨what, n, he, hcounts, hlimit⟩ := h
    rw [herror e rfl]
    exact ⟨what, n, he, .inl hcounts, hlimit⟩
  | ok x =>
    have hboth := hok x rfl
    cases both with
    | error e =>
      obtain ⟨what, n, he, hcounts, hlimit⟩ := hboth
      exact ⟨what, n, he, .inr hcounts, hlimit⟩
    | ok y =>
      rintro what n (hcounts | hcounts)
      · exact h what n hcounts
      · exact hboth what n hcounts

theorem Fits.exists_iff {r : Except LoadError α} (h : Fits counts r) :
    (∃ x, r = .ok x) ↔ ∀ what n, counts what n → n < what.limit := by
  cases r with
  | ok x => exact ⟨fun _ => h, fun _ => ⟨x, rfl⟩⟩
  | error e =>
    obtain ⟨what, n, -, hcounts, hlimit⟩ := h
    constructor
    · rintro ⟨x, hx⟩
      cases hx
    · intro hfits
      exact absurd (hfits what n hcounts) (Nat.not_lt.2 hlimit)

theorem count_fits (what : Counted) (n : Nat) (h : what.limit = 65536) :
    Fits (fun what' n' => what' = what ∧ n' = n) (count what n) := by
  unfold count
  split
  · rintro what' n' ⟨rfl, rfl⟩
    omega
  · exact ⟨what, n, rfl, ⟨rfl, rfl⟩, by omega⟩

theorem variant_fits (fields : Bytes) :
    Fits (fun what n => what = .variantBytes ∧ n = fields.length) (variant fields) := by
  have hfits := (count_fits .variantBytes fields.length rfl).andThen
    (fun e he => by simp only [variant, he])
    (fun length hlength => Fits.of_eq_ok (r := variant fields) (by
      simp only [variant, hlength]
      rfl))
  exact hfits.congr fun what n => or_iff_left id

/-- Items are written one after another if what each of them counts fits. -/
theorem mapM_fits {write : α → Except LoadError β}
    {counts : α → Counted → Nat → Prop} (hwrite : ∀ x, Fits (counts x) (write x))
    (xs : List α) :
    Fits (fun what n => ∃ x ∈ xs, counts x what n) (xs.mapM write) := by
  induction xs with
  | nil => exact (Fits.of_eq_ok List.mapM_nil).congr fun what n => by simp
  | cons x rest ih =>
    have hfits := (hwrite x).andThen
      (fun e he => by
        rw [List.mapM_cons, he]
        rfl)
      (fun y hy => ih.andThen
        (fun e he => by
          rw [List.mapM_cons, hy, he]
          rfl)
        (fun ys hys => Fits.of_eq_ok (r := (x :: rest).mapM write)
          (mapM_cons_eq_ok_iff.2 ⟨y, ys, hy, hys, rfl⟩)))
    exact hfits.congr fun what n => by simp

theorem union_fits (u : Union) : Fits u.Counts (union u) := by
  have hfits := (count_fits .variants u.variants.size rfl).andThen
    (fun e he => by simp only [union, he])
    (fun variantCount hvariants => (count_fits .hints u.hint.length rfl).andThen
      (fun e he => by simp only [union, hvariants, he])
      (fun hintCount hhints => (mapM_fits variant_fits u.variants.toList).andThen
        (fun e he => by simp only [union, hvariants, hhints, he])
        (fun records hrecords => Fits.of_eq_ok (r := union u) (by
          simp only [union, hvariants, hhints, hrecords]
          rfl))))
  refine hfits.congr fun what n => ⟨?_, fun h => ?_⟩
  · rintro (⟨rfl, rfl⟩ | ⟨rfl, rfl⟩ | ⟨fields, hfields, rfl, rfl⟩ | hnone)
    · exact .variants
    · exact .hints
    · exact .variantBytes (Array.mem_toList_iff.1 hfields)
    · exact hnone.elim
  · cases h with
    | variants => exact .inl ⟨rfl, rfl⟩
    | hints => exact .inr (.inl ⟨rfl, rfl⟩)
    | variantBytes hfields =>
      exact .inr (.inr (.inl ⟨_, Array.mem_toList_iff.2 hfields, rfl, rfl⟩))

/-- The header counts the tables and the bytes of the root. -/
theorem header_fits (d : Descriptor) :
    Fits (fun what n => what = .unions ∧ n = d.tables.unions.size ∨
      what = .resources ∧ n = d.tables.resources.size ∨ what = .shapeBytes ∧
      n = d.shape.length) (header d) := by
  unfold header
  split
  · exact ⟨.unions, _, rfl, .inl ⟨rfl, rfl⟩, ‹_›⟩
  · split
    · exact ⟨.resources, _, rfl, .inr (.inl ⟨rfl, rfl⟩), ‹_›⟩
    · split
      · exact ⟨.shapeBytes, _, rfl, .inr (.inr ⟨rfl, rfl⟩), ‹_›⟩
      · rintro what n (⟨rfl, rfl⟩ | ⟨rfl, rfl⟩ | ⟨rfl, rfl⟩)
          <;> simp only [Counted.limit] <;> omega

end Binary

/-- A descriptor can be written exactly if all that its file counts fits, and else the
refusal names a count that does not. -/
theorem Descriptor.toBytes_fits (d : Descriptor) : Binary.Fits d.Counts d.toBytes := by
  have hfits := (Binary.header_fits d).andThen
    (fun e he => by simp only [toBytes, he])
    (fun h hheader => (Binary.mapM_fits Binary.union_fits d.tables.unions.toList).andThen
      (fun e he => by simp only [toBytes, hheader, he])
      (fun records hrecords => Binary.Fits.of_eq_ok (r := d.toBytes) (by
        simp only [toBytes, hheader, hrecords]
        rfl)))
  refine hfits.congr fun what n => ⟨?_, fun h => ?_⟩
  · rintro ((⟨rfl, rfl⟩ | ⟨rfl, rfl⟩ | ⟨rfl, rfl⟩) | ⟨u, hu, h⟩ | hnone)
    · exact .unions
    · exact .resources
    · exact .shapeBytes
    · exact .record (Array.mem_toList_iff.1 hu) h
    · exact hnone.elim
  · cases h with
    | unions => exact .inl (.inl ⟨rfl, rfl⟩)
    | resources => exact .inl (.inr (.inl ⟨rfl, rfl⟩))
    | shapeBytes => exact .inl (.inr (.inr ⟨rfl, rfl⟩))
    | record hu h => exact .inr (.inl ⟨_, Array.mem_toList_iff.2 hu, h⟩)

/-! ## Roots -/

theorem Kind.operandSize_le (k : Kind) : k.operandSize ≤ 3 := by
  cases k <;> simp [operandSize]

/-- A range of one node is not much longer than the longest nested range. -/
theorem WellFormed.length_le_of_single {t : Tables} {bs : Bytes} (h : WellFormed t 1 bs) :
    bs.length < 0x10006 := by
  cases h with
  | @plain k operands rest _ _ hoperands _ hrest =>
    have hsize := k.operandSize_le
    cases hrest
    simp only [List.length_cons, List.length_append, List.length_nil]
    omega
  | @composite k operands length inner rest _ _ _ hoperands _ hlength hinner _ _ hrest =>
    have hsize := k.operandSize_le
    have hlt := Bytes.toNat_lt length
    rw [hlength] at hlt
    cases hrest
    simp only [List.length_cons, List.length_append, List.length_nil]
    omega

theorem Descriptor.length_shape_of_verify {d : Descriptor} (h : d.verify = .ok ()) :
    d.shape.length < 0x10006 := by
  unfold verify at h
  split at h
  · cases h
  · rename_i hranges
    have hroot := (Verify.ranges_eq_ok_iff.1 hranges).2.1
    exact (Verify.range_eq_ok_iff.1 hroot).length_le_of_single

/-! ## Runs of a builder -/

namespace Builder

/-- A call of a builder.  The ranges it takes are written first, each by a step: calls
of a draft in any order and number, raw bytes among them, make one. -/
inductive Call where
  | addUnion (variants : List Draft.Step)
  | addUnionWithHint (variants : List Draft.Step) (hint : List UInt16)
  | reserveUnion
  | defineUnion (id : UInt16) (variants : List Draft.Step)
  | addResource (handle : UInt64)

/-- The tables after something was added whose id is left aside. -/
def added {α : Type} : Except Fault (α × Builder) → Except Fault Builder
  | .error f => .error f
  | .ok (_, b) => .ok b

/-- The tables after a call. -/
def apply (b : Builder) : Call → Except Fault Builder
  | .addUnion variants =>
    match variants.mapM Draft.shape with
    | .error f => .error f
    | .ok ranges => added (b.addUnion ranges.toArray)
  | .addUnionWithHint variants hint =>
    match variants.mapM Draft.shape with
    | .error f => .error f
    | .ok ranges => added (b.addUnionWithHint ranges.toArray hint)
  | .reserveUnion => added b.reserveUnion
  | .defineUnion id variants =>
    match variants.mapM Draft.shape with
    | .error f => .error f
    | .ok ranges => b.defineUnion id ranges.toArray
  | .addResource handle => added (b.addResource handle)

/-- The tables after calls. -/
def applyAll : List Call → Builder → Except Fault Builder
  | [], b => .ok b
  | call :: rest, b =>
    match b.apply call with
    | .error f => .error f
    | .ok b => applyAll rest b

/-- The descriptor that calls and the step of a root make. -/
def describe (calls : List Call) (root : Draft.Step) : Except Fault Descriptor :=
  match applyAll calls empty with
  | .error f => .error f
  | .ok b =>
    match Draft.shape root with
    | .error f => .error f
    | .ok shape => .ok (b.build shape)

/-! ## What a call does -/

variable {b b' : Builder} {call : Call} {calls : List Call}

theorem added_eq_ok_iff {α : Type} {r : Except Fault (α × Builder)} :
    added r = .ok b ↔ ∃ x, r = .ok (x, b) := by
  cases r with
  | error f => simp [added]
  | ok p =>
    obtain ⟨x, b''⟩ := p
    simp [added]

theorem nextId_eq_ok_iff {full : Fault} {count : Nat} {id : UInt16} :
    nextId full count = .ok id ↔ count < 65536 ∧ id = UInt16.ofNat count := by
  unfold nextId
  split
  · simp [*, eq_comm]
  · simp [*]

theorem pushUnion_eq_ok_iff {u : Union} {id : UInt16} :
    b.pushUnion u = .ok (id, b') ↔
      b.unions.size < 65536 ∧ id = UInt16.ofNat b.unions.size ∧
      b' = { b with unions := b.unions.push u } := by
  unfold pushUnion
  cases hid : nextId .tooManyUnions b.unions.size with
  | error f =>
    have hfull : ¬ b.unions.size < 65536 := fun hlt => by
      cases (nextId_eq_ok_iff.2 ⟨hlt, rfl⟩).symm.trans hid
    simp [hfull]
  | ok id' =>
    obtain ⟨hlt, rfl⟩ := nextId_eq_ok_iff.1 hid
    simp [hlt, eq_comm]

theorem addResource_eq_ok_iff {handle : UInt64} {id : UInt16} :
    b.addResource handle = .ok (id, b') ↔
      b.resources.size < 65536 ∧ id = UInt16.ofNat b.resources.size ∧
        b' = { b with resources := b.resources.push handle } := by
  unfold addResource
  cases hid : nextId .tooManyResources b.resources.size with
  | error f =>
    have hfull : ¬ b.resources.size < 65536 := fun hlt => by
      cases (nextId_eq_ok_iff.2 ⟨hlt, rfl⟩).symm.trans hid
    simp [hfull]
  | ok id' =>
    obtain ⟨hlt, rfl⟩ := nextId_eq_ok_iff.1 hid
    simp [hlt, eq_comm]

/-- A call adds a union or a resource where an id is left, or puts a union in the
place of another. -/
theorem apply_cases (h : b.apply call = .ok b') :
    (∃ u, b.unions.size < 65536 ∧ b' = { b with unions := b.unions.push u }) ∨
    (∃ i u, b' = { b with unions := b.unions.setIfInBounds i u }) ∨
    ∃ handle, b.resources.size < 65536 ∧
      b' = { b with resources := b.resources.push handle } := by
  cases call with
  | addUnion variants =>
    simp only [apply] at h
    split at h
    · cases h
    · obtain ⟨id, h⟩ := added_eq_ok_iff.1 h
      unfold addUnion at h
      split at h
      · cases h
      · obtain ⟨hlt, -, rfl⟩ := pushUnion_eq_ok_iff.1 h
        exact .inl ⟨_, hlt, rfl⟩
  | addUnionWithHint variants hint =>
    simp only [apply] at h
    split at h
    · cases h
    · obtain ⟨id, h⟩ := added_eq_ok_iff.1 h
      unfold addUnionWithHint at h
      split at h
      · cases h
      · obtain ⟨hlt, -, rfl⟩ := pushUnion_eq_ok_iff.1 h
        exact .inl ⟨_, hlt, rfl⟩
  | reserveUnion =>
    obtain ⟨id, h⟩ := added_eq_ok_iff.1 h
    obtain ⟨hlt, -, rfl⟩ := pushUnion_eq_ok_iff.1 h
    exact .inl ⟨_, hlt, rfl⟩
  | defineUnion id variants =>
    simp only [apply] at h
    split at h
    · cases h
    · unfold defineUnion at h
      split at h
      · cases h
      · split at h
        · obtain rfl := Except.ok.inj h
          exact .inr (.inl ⟨_, _, rfl⟩)
        · cases h
  | addResource handle =>
    obtain ⟨id, h⟩ := added_eq_ok_iff.1 h
    obtain ⟨hlt, -, rfl⟩ := addResource_eq_ok_iff.1 h
    exact .inr (.inr ⟨handle, hlt, rfl⟩)

/-! ## What calls keep -/

/-- There is an id of sixteen bits for every item of the tables. -/
structure Within (b : Builder) : Prop where
  unions_le : b.unions.size ≤ 65536
  resources_le : b.resources.size ≤ 65536

theorem within_empty : Within empty := ⟨Nat.zero_le _, Nat.zero_le _⟩

theorem Within.apply (hb : b.Within) (h : b.apply call = .ok b') : b'.Within := by
  rcases apply_cases h with ⟨u, hlt, rfl⟩ | ⟨i, u, rfl⟩ | ⟨handle, hlt, rfl⟩
  · refine ⟨?_, hb.resources_le⟩
    rw [Array.size_push]
    omega
  · refine ⟨?_, hb.resources_le⟩
    rw [Array.size_setIfInBounds]
    exact hb.unions_le
  · refine ⟨hb.unions_le, ?_⟩
    rw [Array.size_push]
    omega

theorem Within.applyAll (hb : b.Within) (h : applyAll calls b = .ok b') : b'.Within := by
  induction calls generalizing b with
  | nil =>
    obtain rfl := Except.ok.inj h
    exact hb
  | cons call rest ih =>
    simp only [Builder.applyAll] at h
    split at h
    · cases h
    · rename_i hcall
      exact ih (hb.apply hcall) h

theorem describe_eq_ok {root : Draft.Step} {d : Descriptor}
    (h : describe calls root = .ok d) :
    ∃ b shape, applyAll calls empty = .ok b ∧
      Draft.shape root = .ok shape ∧ d = b.build shape := by
  unfold describe at h
  split at h
  · cases h
  · rename_i b hb
    split at h
    · cases h
    · rename_i shape hshape
      exact ⟨b, shape, hb, hshape, (Except.ok.inj h).symm⟩

/-! ## What is written of what was built -/

/-- Of a verified descriptor that a builder made the file can be written unless a table
uses all ids, or a union has too many variants, hints, or bytes in a variant.  A refusal
names what there is too much of. -/
theorem described_written_iff {root : Draft.Step} {d : Descriptor}
    (hbuilt : describe calls root = .ok d) (hverify : d.verify = .ok ()) :
    ((∃ file, d.toBytes = .ok file) ↔
      d.tables.unions.size ≠ 65536 ∧ d.tables.resources.size ≠ 65536 ∧
        ∀ u ∈ d.tables.unions, u.variants.size < 65536 ∧ u.hint.length < 65536 ∧
          ∀ fields ∈ u.variants, fields.length < 65536) ∧
    ∀ e, d.toBytes = .error e → ∃ what n, e = .tooMany what n ∧
      d.Counts what n ∧ what.limit ≤ n := by
  have hfits := d.toBytes_fits
  refine ⟨?_, fun e he => ?_⟩
  · rw [hfits.exists_iff]
    obtain ⟨b, shape, hb, -, rfl⟩ := describe_eq_ok hbuilt
    obtain ⟨hunions, hresources⟩ := within_empty.applyAll hb
    have hshape := Descriptor.length_shape_of_verify hverify
    constructor
    · intro hall
      refine ⟨Nat.ne_of_lt (hall _ _ .unions),
        Nat.ne_of_lt (hall _ _ .resources), fun u hu => ?_⟩
      exact ⟨hall _ _ (.record hu .variants), hall _ _ (.record hu .hints),
        fun fields hfields => hall _ _ (.record hu (.variantBytes hfields))⟩
    · rintro ⟨hunions', hresources', hall⟩ what n hcounts
      cases hcounts with
      | unions => exact Nat.lt_of_le_of_ne hunions hunions'
      | resources => exact Nat.lt_of_le_of_ne hresources hresources'
      | shapeBytes => exact Nat.lt_trans hshape (by decide)
      | record hu h =>
        obtain ⟨hvariants, hhints, hbytes⟩ := hall _ hu
        cases h with
        | variants => exact hvariants
        | hints => exact hhints
        | variantBytes hfields => exact hbytes _ hfields
  · rw [he] at hfits
    exact hfits

/-- A byte that may be missing, inside a resource. -/
def guarded : Descriptor where
  shape := Kind.resource.byte :: 0 :: 0 :: 3 :: 0 :: Emit.union 0
  tables := ⟨#[⟨#[[], Emit.scalar .u8], [0, 1]⟩], #[7]⟩

theorem described_written_iff_guarded :
    describe [.addUnion [Draft.raw [], Draft.scalar .u8],
        .addResource 7] (Draft.resource 0 (Draft.union 0)) =
      .ok guarded ∧ guarded.verify = .ok () ∧ ∃ file, guarded.toBytes = .ok file := by
  have hbuilt : describe [.addUnion [Draft.raw [], Draft.scalar .u8], .addResource 7]
      (Draft.resource 0 (Draft.union 0)) = .ok guarded := by decide +kernel
  have hverify : guarded.verify = .ok () := by decide +kernel
  exact ⟨hbuilt, hverify,
    (described_written_iff hbuilt hverify).1.2 (by simp [guarded, Emit.scalar])⟩

/-! ## A table of all ids -/

theorem applyAll_addResource {handles : List UInt64}
    (h : b.resources.size + handles.length ≤ 65536) :
    applyAll (handles.map .addResource) b =
        .ok { b with resources := b.resources ++ handles.toArray } := by
  induction handles generalizing b with
  | nil => simp [applyAll]
  | cons handle rest ih =>
    rw [List.length_cons] at h
    have hadd : b.addResource handle =
        .ok (UInt16.ofNat b.resources.size,
          { b with resources := b.resources.push handle }) :=
      addResource_eq_ok_iff.2 ⟨by omega, rfl, rfl⟩
    have hrest :=
      ih (b := { b with resources := b.resources.push handle })
        (by simp only [Array.size_push]; omega)
    simp only [List.map_cons, applyAll, apply, hadd, added, hrest]
    simp

theorem describe_addResource {handles : List UInt64} (h : handles.length ≤ 65536) :
    describe (handles.map .addResource) (Draft.scalar .u8) =
        .ok ⟨Emit.scalar .u8, ⟨#[], handles.toArray⟩⟩ := by
  have hrun : applyAll (handles.map .addResource) empty =
      .ok { empty with resources := empty.resources ++ handles.toArray } :=
    applyAll_addResource (by simpa [empty] using h)
  have hshape : Draft.shape (Draft.scalar .u8) = .ok (Emit.scalar .u8) := rfl
  simp only [describe, hrun, hshape]
  simp [build, empty]

theorem verify_scalar (s : Scalar) (resources : Array UInt64) :
    (⟨Emit.scalar s, ⟨#[], resources⟩⟩ : Descriptor).verify = .ok () := by
  have hroot : WellFormed ⟨#[], resources⟩ 1 (Emit.scalar s) :=
    @WellFormed.plain _ (.scalar s) [] [] 0 rfl rfl trivial .nil
  have hranges : Verify.ranges ⟨Emit.scalar s, ⟨#[], resources⟩⟩ = .ok () :=
    Verify.ranges_eq_ok_iff.2 ⟨by simp, Verify.range_of_wellFormed hroot, by simp⟩
  simp only [Descriptor.verify, hranges]
  rfl

theorem toBytes_tooMany_resources {d : Descriptor} (hunions : d.tables.unions.size < 65536)
    (hresources : 65536 ≤ d.tables.resources.size) :
    d.toBytes = .error (.tooMany .resources d.tables.resources.size) := by
  have hheader : Binary.header d = .error (.tooMany .resources d.tables.resources.size) :=
      by
    unfold Binary.header
    rw [if_neg (by omega), if_pos hresources]
  simp only [Descriptor.toBytes, hheader]

/-- A builder takes 65536 resources, and the descriptor of a byte with these is
verified, but no file can be written of it. -/
theorem described_unwritten :
    ∃ d, describe (((List.range 65536).map UInt64.ofNat).map .addResource)
        (Draft.scalar .u8) = .ok d ∧
      d.verify = .ok () ∧ d.toBytes = .error (.tooMany .resources 65536) := by
  have hlength : ((List.range 65536).map UInt64.ofNat).length = 65536 := by
    rw [List.length_map, List.length_range]
  generalize (List.range 65536).map UInt64.ofNat = handles at hlength
  refine ⟨_, describe_addResource (Nat.le_of_eq hlength), verify_scalar .u8 _, ?_⟩
  rw [← hlength]
  exact toBytes_tooMany_resources (by simp) (Nat.le_of_eq hlength.symm)

end Builder

end ShapeCode
