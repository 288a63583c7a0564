import Mathlib.Control.Monad.Basic
import ShapeCode.Descriptor.Binary
import ShapeCode.Emit
import ShapeCode.Proofs.Verified

set_option autoImplicit false

/-!
# The binary format round-trips

Every section of a descriptor file has a reader and a writer.  They are inverse
(`Inverse`): the reader takes off exactly what the writer wrote, whatever follows it,
and what it takes off is what the writer writes of its result.  Sections that repeat an
item inherit this from the item by induction on their number (`readSeries`), a union
record from its parts, and the file from its sections.

The header has two reserved bytes that are read and not looked at, so a file is the
encoding of its descriptor with those bytes cleared (`Descriptor.ofBytes_eq_ok_iff`).
-/

namespace ShapeCode

namespace Binary

/-! ## Readers and writers -/

/-- The reader takes exactly `bs` off the front, whatever follows, and gives `x`. -/
def Takes {α : Type} (read : TailReader α) (bs : Bytes) (x : α) : Prop :=
  ∀ rest offset, read ⟨bs ++ rest, offset⟩ = .ok (x, ⟨rest, offset + bs.length⟩)

/-- On values of which `p` holds, a reader takes exactly what a writer wrote, and it
gives no others. -/
structure Inverse {α : Type} (p : α → Prop) (write : α → Except LoadError Bytes)
    (read : TailReader α) : Prop where
  takes : ∀ {x : α} {bs : Bytes}, p x → write x = .ok bs → Takes read bs x
  gives : ∀ {t t' : Tail} {x : α}, read t = .ok (x, t') →
    p x ∧ ∃ bs, write x = .ok bs ∧ t.bytes = bs ++ t'.bytes

theorem take_takes {part : FileSection} {n : Nat} {bs : Bytes} (h : bs.length = n) :
    Takes (take part n) bs bs := by
  intro rest offset
  have hsplit : Bytes.split? n (bs ++ rest) = some (bs, rest) :=
    Bytes.split?_eq_some_iff.2 ⟨rfl, h⟩
  unfold take
  simp only [hsplit, h]

theorem take_gives {part : FileSection} {n : Nat} {t t' : Tail} {bs : Bytes}
    (h : take part n t = .ok (bs, t')) : t.bytes = bs ++ t'.bytes ∧ bs.length = n := by
  unfold take at h
  split at h
  · rename_i hsplit
    obtain ⟨rfl, rfl⟩ := Prod.mk.inj (Except.ok.inj h)
    exact Bytes.split?_eq_some_iff.1 hsplit
  · cases h

theorem readU16_inverse :
    Inverse (fun _ => True) (fun n => .ok (Bytes.ofNat 2 n.toNat)) readU16 := by
  constructor
  · rintro n bs - hbs rest offset
    obtain rfl := Except.ok.inj hbs
    have htake :=
      @take_takes .unions 2 (Bytes.ofNat 2 n.toNat) (Bytes.length_ofNat _ _) rest offset
    have hvalue : Bytes.toNat (Bytes.ofNat 2 n.toNat) = n.toNat :=
      Bytes.toNat_ofNat_of_lt n.toNat_lt
    unfold readU16
    simp only [htake, hvalue, UInt16.ofNat_toNat]
  · intro t t' n h
    unfold readU16 at h
    split at h
    · cases h
    · rename_i word t'' htake
      obtain ⟨rfl, rfl⟩ := Prod.mk.inj (Except.ok.inj h)
      obtain ⟨hbytes, hlength⟩ := take_gives htake
      refine ⟨trivial, word, ?_, hbytes⟩
      rw [Bytes.toNat_u16 hlength, Bytes.ofNat_toNat_of_length hlength]

theorem readResource_inverse :
    Inverse (fun _ => True) (fun handle => .ok (Bytes.ofNat 8 handle.toNat)) readResource :=
        by
  constructor
  · rintro handle bs - hbs rest offset
    obtain rfl := Except.ok.inj hbs
    have htake :=
      @take_takes .resources 8 (Bytes.ofNat 8 handle.toNat)
        (Bytes.length_ofNat _ _) rest offset
    have hvalue : Bytes.toNat (Bytes.ofNat 8 handle.toNat) = handle.toNat :=
      Bytes.toNat_ofNat_of_lt handle.toNat_lt
    unfold readResource
    simp only [htake, hvalue, UInt64.ofNat_toNat]
  · intro t t' handle h
    unfold readResource at h
    split at h
    · cases h
    · rename_i word t'' htake
      obtain ⟨rfl, rfl⟩ := Prod.mk.inj (Except.ok.inj h)
      obtain ⟨hbytes, hlength⟩ := take_gives htake
      refine ⟨trivial, word, ?_, hbytes⟩
      rw [Bytes.toNat_u64 hlength, Bytes.ofNat_toNat_of_length hlength]

theorem count_eq_ok_iff {what : Counted} {n : Nat} {bs : Bytes} :
    count what n = .ok bs ↔ n < 65536 ∧ bs = Bytes.ofNat 2 n := by
  unfold count
  split
  · rename_i hlt
    simp [hlt, eq_comm]
  · rename_i hlt
    simp [hlt]

/-- A count is written like the number that it is read as. -/
theorem count_toNat (what : Counted) (n : UInt16) :
    count what n.toNat = .ok (Bytes.ofNat 2 n.toNat) :=
  count_eq_ok_iff.2 ⟨n.toNat_lt, rfl⟩

/-- A count that was written is read back. -/
theorem count_takes {what : Counted} {n : Nat} {bs : Bytes} (h : count what n = .ok bs) :
    ∃ word : UInt16, Takes readU16 bs word ∧ word.toNat = n := by
  obtain ⟨hlt, rfl⟩ := count_eq_ok_iff.1 h
  have hword : (UInt16.ofNat n).toNat = n := by
    rw [UInt16.toNat_ofNat']
    exact Nat.mod_eq_of_lt hlt
  refine ⟨UInt16.ofNat n, readU16_inverse.takes trivial ?_, hword⟩
  rw [hword]

/-- A number that is read is the count that would be written. -/
theorem count_gives {what : Counted} {n : UInt16} {t t' : Tail}
    (h : readU16 t = .ok (n, t')) :
    ∃ bs, count what n.toNat = .ok bs ∧ t.bytes = bs ++ t'.bytes := by
  obtain ⟨-, bs, hbs, hbytes⟩ := readU16_inverse.gives h
  obtain rfl := Except.ok.inj hbs
  exact ⟨_, count_toNat what n, hbytes⟩

theorem readVariant_inverse : Inverse (fun _ => True) variant readVariant := by
  constructor
  · rintro fields bs - hbs rest offset
    unfold variant at hbs
    split at hbs
    · cases hbs
    · rename_i length hcount
      obtain rfl := Except.ok.inj hbs
      obtain ⟨n, hlength, hn⟩ := count_takes hcount
      have hfields : Takes (take .variant n.toNat) fields fields := take_takes hn.symm
      unfold readVariant
      rw [List.append_assoc, hlength]
      simp only [hfields rest _, List.length_append, Nat.add_assoc]
  · intro t t' fields h
    unfold readVariant at h
    split at h
    · cases h
    · rename_i n t'' hlength
      obtain ⟨length, hcount, hbytes⟩ := count_gives hlength
      obtain ⟨hbytes', hn⟩ := take_gives h
      refine ⟨trivial, length ++ fields, ?_, ?_⟩
      · unfold variant
        rw [hn, hcount]
      · rw [hbytes, hbytes', List.append_assoc]

/-! ## Repeated items -/

/-- `n` items in order, the first of the given number, after those in `before`, which
are kept newest first. -/
def readSeries {α : Type} (item : Nat → TailReader α) :
    (n id : Nat) → (before : List α) → TailReader (List α)
  | 0, _, before => fun t => .ok (before.reverse, t)
  | n + 1, id, before => fun t =>
    match item id t with
    | .error e => .error e
    | .ok (x, t) => readSeries item n (id + 1) (x :: before) t

theorem readMany_eq_readSeries {α : Type} (item : TailReader α) (n id : Nat)
    (before : List α) :
    readMany item n before = readSeries (fun _ => item) n id before := by
  induction n generalizing id before with
  | zero => rfl
  | succ n ih =>
    funext t
    unfold readMany readSeries
    cases item t with
    | error e => rfl
    | ok r => exact congrFun (ih (id + 1) (r.1 :: before)) r.2

theorem readUnions_eq_readSeries (n id : Nat) (before : List Union) :
    readUnions n id before = readSeries readUnion n id before := by
  induction n generalizing id before with
  | zero => rfl
  | succ n ih =>
    funext t
    unfold readUnions readSeries
    cases readUnion id t with
    | error e => rfl
    | ok r => exact congrFun (ih (id + 1) (r.1 :: before)) r.2

section Series

variable {α : Type} {p : α → Prop} {write : α → Except LoadError Bytes}
  {item : Nat → TailReader α}

theorem readSeries_takes (h : ∀ id, Inverse p write (item id)) {xs : List α}
    {records : List Bytes} (hp : ∀ x ∈ xs, p x) (hw : xs.mapM write = .ok records)
    (id : Nat) (before : List α) :
    Takes (readSeries item xs.length id before) records.flatten (before.reverse ++ xs) := by
  induction xs generalizing records id before with
  | nil =>
    obtain rfl := Except.ok.inj hw
    intro rest offset
    simp [readSeries]
  | cons x xs ih =>
    obtain ⟨record, records, hx, hxs, rfl⟩ := mapM_cons_eq_ok_iff.1 hw
    rw [List.forall_mem_cons] at hp
    intro rest offset
    have hitem := (h id).takes hp.1 hx (records.flatten ++ rest) offset
    have hrest := ih hp.2 hxs (id + 1) (x :: before) rest (offset + record.length)
    simp only [List.length_cons, readSeries, List.flatten_cons,
      List.append_assoc, hitem, hrest]
    simp [Nat.add_assoc]

theorem readSeries_gives (h : ∀ id, Inverse p write (item id)) {n id : Nat}
    {before ys : List α} {t t' : Tail}
    (hread : readSeries item n id before t = .ok (ys, t')) :
    ∃ xs records, ys = before.reverse ++ xs ∧ xs.length = n ∧ (∀ x ∈ xs, p x) ∧
      xs.mapM write = .ok records ∧ t.bytes = records.flatten ++ t'.bytes := by
  induction n generalizing id before t with
  | zero =>
    obtain ⟨rfl, rfl⟩ := Prod.mk.inj (Except.ok.inj hread)
    exact ⟨[], [], by simp, rfl, by simp, rfl, rfl⟩
  | succ n ih =>
    simp only [readSeries] at hread
    split at hread
    · cases hread
    · rename_i x t'' hitem
      obtain ⟨hpx, record, hx, hbytes⟩ := (h id).gives hitem
      obtain ⟨xs, records, rfl, rfl, hp, hxs, hbytes'⟩ := ih hread
      refine ⟨x :: xs, record :: records, by simp, rfl, ?_, ?_, ?_⟩
      · exact List.forall_mem_cons.2 ⟨hpx, hp⟩
      · exact mapM_cons_eq_ok_iff.2 ⟨record, records, hx, hxs, rfl⟩
      · rw [hbytes, hbytes', List.flatten_cons, List.append_assoc]

end Series

section Many

variable {α : Type}
  {p : α → Prop} {write : α → Except LoadError Bytes} {item : TailReader α}

theorem readMany_takes (h : Inverse p write item) {xs : List α} {records : List Bytes}
    (hp : ∀ x ∈ xs, p x) (hw : xs.mapM write = .ok records) :
    Takes (readMany item xs.length []) records.flatten xs := by
  rw [readMany_eq_readSeries item xs.length 0]
  exact readSeries_takes (fun _ => h) hp hw 0 []

theorem readMany_gives (h : Inverse p write item) {n : Nat} {xs : List α} {t t' : Tail}
    (hread : readMany item n [] t = .ok (xs, t')) :
    xs.length = n ∧ (∀ x ∈ xs, p x) ∧
      ∃ records, xs.mapM write = .ok records ∧
        t.bytes = records.flatten ++ t'.bytes := by
  rw [readMany_eq_readSeries item n 0] at hread
  obtain ⟨xs', records, rfl, hlength, hp, hw, hbytes⟩ :=
    readSeries_gives (fun _ => h) hread
  exact ⟨hlength, hp, records, hw, hbytes⟩

end Many

/-- Items that can always be written are written one after another. -/
theorem mapM_ok {α : Type} (f : α → Bytes) (xs : List α) :
    xs.mapM (fun x => (.ok (f x) : Except LoadError Bytes)) = .ok (xs.map f) :=
  List.mapM_pure

/-! ## Unions -/

/-- The hint of the union is accepted. -/
def Hinted (u : Union) : Prop := u.badHint? = none ∧ u.lacksHint = false

theorem checkedUnion_eq_ok_iff {id : Nat} {variants : List Bytes} {hint : List UInt16}
    {u : Union} :
    checkedUnion id variants hint = .ok u ↔
      u = ⟨variants.toArray, hint⟩ ∧ Hinted u := by
  unfold checkedUnion
  cases hhint : Verify.hint id ⟨variants.toArray, hint⟩ with
  | error e =>
    constructor
    · intro h
      cases h
    · rintro ⟨rfl, hu⟩
      rw [Verify.hint_eq_ok_iff.2 hu] at hhint
      cases hhint
  | ok _ =>
    obtain ⟨hbad, hlacks⟩ := Verify.hint_eq_ok_iff.1 hhint
    have hmake : Union.make variants.toArray hint = .ok ⟨variants.toArray, hint⟩ := by
      simp [Union.make, hbad, hlacks]
    simp only [hmake]
    constructor
    · intro h
      obtain rfl := Except.ok.inj h
      exact ⟨rfl, hbad, hlacks⟩
    · rintro ⟨rfl, -⟩
      rfl

/-- A union record is two counts, the hints and the variants. -/
theorem union_eq_ok_iff {u : Union} {bs : Bytes} :
    union u = .ok bs ↔
      ∃ variantCount hintCount records,
        count .variants u.variants.size = .ok variantCount ∧
        count .hints u.hint.length = .ok hintCount ∧
        u.variants.toList.mapM variant = .ok records ∧
        bs = variantCount ++ (hintCount ++
          ((u.hint.map fun v => Bytes.ofNat 2 v.toNat).flatten ++ records.flatten)) := by
  unfold union
  cases count .variants u.variants.size with
  | error e => simp
  | ok variantCount =>
    cases count .hints u.hint.length with
    | error e => simp
    | ok hintCount =>
      cases u.variants.toList.mapM variant with
      | error e => simp
      | ok records => simp [List.flatMap_def, eq_comm]

theorem readUnion_inverse (id : Nat) : Inverse Hinted union (readUnion id) := by
  constructor
  · intro u bs hu hbs rest offset
    obtain ⟨variantCount, hintCount, records, hvariants, hhints, hrecords, rfl⟩ :=
      union_eq_ok_iff.1 hbs
    obtain ⟨n, htakeN, hn⟩ := count_takes hvariants
    obtain ⟨m, htakeM, hm⟩ := count_takes hhints
    have htakeHints : Takes (readMany readU16 m.toNat [])
        (u.hint.map fun v => Bytes.ofNat 2 v.toNat).flatten u.hint := by
      rw [hm]
      exact readMany_takes readU16_inverse (fun _ _ => trivial) (mapM_ok _ _)
    have htakeVariants :
        Takes (readMany readVariant n.toNat []) records.flatten u.variants.toList := by
      rw [hn, ← Array.length_toList]
      exact readMany_takes readVariant_inverse (fun _ _ => trivial) hrecords
    have hchecked : checkedUnion id u.variants.toList u.hint = .ok u :=
      checkedUnion_eq_ok_iff.2 ⟨rfl, hu⟩
    simp only [readUnion, List.append_assoc, htakeN _ _, htakeM _ _, htakeHints _ _,
      htakeVariants _ _, hchecked, List.length_append, Nat.add_assoc]
  · intro t t' u h
    simp only [readUnion] at h
    split at h
    · cases h
    · rename_i n t1 hn
      split at h
      · cases h
      · rename_i m t2 hm
        split at h
        · cases h
        · rename_i hint t3 hhint
          split at h
          · cases h
          · rename_i variants t4 hvariants
            split at h
            · cases h
            · rename_i u' hchecked
              obtain ⟨rfl, rfl⟩ := Prod.mk.inj (Except.ok.inj h)
              obtain ⟨rfl, hu⟩ := checkedUnion_eq_ok_iff.1 hchecked
              obtain ⟨variantCount, hcountN, hbytes1⟩ := count_gives hn
              obtain ⟨hintCount, hcountM, hbytes2⟩ := count_gives hm
              obtain ⟨hlengthM, -, hints, hhints, hbytes3⟩ :=
                readMany_gives readU16_inverse hhint
              obtain ⟨hlengthN, -, records, hrecords, hbytes4⟩ :=
                readMany_gives readVariant_inverse hvariants
              obtain rfl := Except.ok.inj ((mapM_ok _ _).symm.trans hhints)
              refine ⟨hu, _, union_eq_ok_iff.2 ⟨variantCount, hintCount, records, ?_,
                ?_, hrecords, rfl⟩, ?_⟩
              · simpa [hlengthN] using hcountN
              · simpa [hlengthM] using hcountM
              · rw [hbytes1, hbytes2, hbytes3, hbytes4]
                simp only [List.append_assoc]

/-! ## Sections -/

theorem resources_takes {t : Tables} {n : Nat} (hn : t.resources.size = n) :
    Takes (readMany readResource n []) (resources t) t.resources.toList := by
  rw [← hn, ← Array.length_toList]
  unfold resources
  rw [List.flatMap_def]
  exact readMany_takes readResource_inverse (fun _ _ => trivial) (mapM_ok _ _)

theorem unions_takes {t : Tables} {n : Nat} {records : List Bytes} (hn : t.unions.size = n)
    (hhinted : ∀ u ∈ t.unions.toList, Hinted u)
    (hrecords : t.unions.toList.mapM union = .ok records) :
    Takes (readUnions n 0 []) records.flatten t.unions.toList := by
  rw [← hn, ← Array.length_toList, readUnions_eq_readSeries]
  exact readSeries_takes readUnion_inverse hhinted hrecords 0 []

/-- The sections of a descriptor, as they are written. -/
theorem readSections_takes {h : Header} {d : Descriptor} {records : List Bytes}
    (hshape : d.shape.length = h.shapeLength.toNat)
    (hresources : d.tables.resources.size = h.resourceCount.toNat)
    (hunions : d.tables.unions.size = h.unionCount.toNat)
    (hhinted : ∀ u ∈ d.tables.unions.toList, Hinted u)
    (hrecords : d.tables.unions.toList.mapM union = .ok records) :
    Takes (readSections h) (d.shape ++ (resources d.tables ++ records.flatten)) d := by
  intro rest offset
  have htakeShape : Takes (take .shape h.shapeLength.toNat) d.shape d.shape :=
    take_takes hshape
  simp only [readSections, List.append_assoc, htakeShape _ _,
    resources_takes hresources _ _, unions_takes hunions hhinted hrecords _ _,
    List.length_append, Nat.add_assoc, Array.toArray_toList]

/-- The sections that are read are those that the descriptor is written with. -/
theorem readSections_gives {h : Header} {d : Descriptor} {t t' : Tail}
    (hread : readSections h t = .ok (d, t')) :
    d.shape.length = h.shapeLength.toNat ∧
      d.tables.resources.size = h.resourceCount.toNat ∧
      d.tables.unions.size = h.unionCount.toNat ∧
      ∃ records, d.tables.unions.toList.mapM union = .ok records ∧
        t.bytes = d.shape ++ (resources d.tables ++ (records.flatten ++ t'.bytes)) := by
  simp only [readSections] at hread
  split at hread
  · cases hread
  · rename_i shape t1 hshape
    split at hread
    · cases hread
    · rename_i handles t2 hhandles
      split at hread
      · cases hread
      · rename_i us t3 hus
        obtain ⟨rfl, rfl⟩ := Prod.mk.inj (Except.ok.inj hread)
        obtain ⟨hbytes1, hlength⟩ := take_gives hshape
        obtain ⟨hresources, -, written, hwritten, hbytes2⟩ :=
          readMany_gives readResource_inverse hhandles
        rw [readUnions_eq_readSeries] at hus
        obtain ⟨xs, records, rfl, hunions, -, hrecords, hbytes3⟩ :=
          readSeries_gives readUnion_inverse hus
        obtain rfl := Except.ok.inj ((mapM_ok _ _).symm.trans hwritten)
        refine ⟨hlength, by simpa using hresources, by simpa using hunions, records,
          by simpa using hrecords, ?_⟩
        rw [hbytes1, hbytes2, hbytes3]
        simp [resources, List.flatMap_def]

end Binary

/-! ## Headers -/

namespace Header

theorem field_of_append {bs : Bytes} (before word after : Bytes)
    (h : bs = before ++ (word ++ after)) :
    field bs before.length word.length = Bytes.toNat word := by
  subst h
  simp [field]

theorem length_take_drop {bs : Bytes} {offset width : Nat}
    (h : offset + width ≤ bs.length) :
    ((bs.drop offset).take width).length = width := by
  rw [List.length_take, List.length_drop]
  omega

theorem length_toBytes {h : Header} (hmagic : h.magic.length = 4) :
    h.toBytes.length = size := by
  simp [toBytes, hmagic, size]

theorem toBytes_append (h : Header) (rest : Bytes) :
    h.toBytes ++ rest =
        h.magic ++ (Bytes.ofNat 2 h.version.toNat ++ (Bytes.ofNat 2 h.unionCount.toNat ++
      (Bytes.ofNat 2 h.resourceCount.toNat ++ (Bytes.ofNat 2 h.reserved.toNat ++
        (Bytes.ofNat 4 h.shapeLength.toNat ++ rest))))) := by
  simp only [toBytes, List.append_assoc]

/-- The field behind `before` of bytes that go on with a number. -/
theorem field_ofNat {bs before after : Bytes} {offset width n : Nat}
    (h : bs = before ++ (Bytes.ofNat width n ++ after)) (hoffset : before.length = offset)
    (hn : n < 256 ^ width) : field bs offset width = n := by
  have hfield := field_of_append before (Bytes.ofNat width n) after h
  rw [hoffset, Bytes.length_ofNat, Bytes.toNat_ofNat_of_lt hn] at hfield
  exact hfield

/-- A header that was written is read back, whatever follows. -/
theorem ofBytes_toBytes_append {h : Header} (hmagic : h.magic.length = 4) (rest : Bytes) :
    ofBytes (h.toBytes ++ rest) = .ok h := by
  have hbytes := h.toBytes_append rest
  have hlength := length_toBytes hmagic
  have hversion : field (h.toBytes ++ rest) 4 2 = h.version.toNat :=
    field_ofNat hbytes hmagic h.version.toNat_lt
  rw [← List.append_assoc] at hbytes
  have hunions : field (h.toBytes ++ rest) 6 2 = h.unionCount.toNat :=
    field_ofNat hbytes (by simp [hmagic]) h.unionCount.toNat_lt
  rw [← List.append_assoc] at hbytes
  have hresources : field (h.toBytes ++ rest) 8 2 = h.resourceCount.toNat :=
    field_ofNat hbytes (by simp [hmagic]) h.resourceCount.toNat_lt
  rw [← List.append_assoc] at hbytes
  have hreserved : field (h.toBytes ++ rest) 10 2 = h.reserved.toNat :=
    field_ofNat hbytes (by simp [hmagic]) h.reserved.toNat_lt
  rw [← List.append_assoc] at hbytes
  have hshape : field (h.toBytes ++ rest) 12 4 = h.shapeLength.toNat :=
    field_ofNat hbytes (by simp [hmagic]) h.shapeLength.toNat_lt
  have htake : (h.toBytes ++ rest).take 4 = h.magic := by
    rw [toBytes_append, ← hmagic, List.take_left]
  have hsize : ¬ ((h.toBytes ++ rest).take size).length < size := by
    rw [← hlength, List.take_left]
    exact Nat.lt_irrefl _
  unfold ofBytes
  rw [if_neg hsize, htake, hversion, hunions, hresources, hreserved, hshape]
  simp only [UInt16.ofNat_toNat, UInt32.ofNat_toNat]

/-- The header that is read of a file is written as the front of the file. -/
theorem toBytes_of_ofBytes {bs : Bytes} {h : Header} (hread : ofBytes bs = .ok h) :
    bs = h.toBytes ++ bs.drop size ∧ h.magic.length = 4 := by
  unfold ofBytes at hread
  split at hread
  · cases hread
  · rename_i hsize
    rw [List.length_take] at hsize
    have hlength : 16 ≤ bs.length := by
      unfold size at hsize
      omega
    obtain rfl := Except.ok.inj hread
    -- A field is written like the bytes that it is read from.
    have hword : ∀ offset, offset + 2 ≤ 16 →
        Bytes.ofNat 2 (UInt16.ofNat (field bs offset 2)).toNat =
          (bs.drop offset).take 2 := by
      intro offset hoffset
      have hlen : ((bs.drop offset).take 2).length = 2 := length_take_drop (by omega)
      unfold field
      rw [Bytes.toNat_u16 hlen, Bytes.ofNat_toNat_of_length hlen]
    have hshape : Bytes.ofNat 4 (UInt32.ofNat (field bs 12 4)).toNat =
        (bs.drop 12).take 4 := by
      have hlen : ((bs.drop 12).take 4).length = 4 := length_take_drop (by omega)
      unfold field
      rw [Bytes.toNat_u32 hlen, Bytes.ofNat_toNat_of_length hlen]
    have hmagic : (bs.take 4).length = 4 := by
      rw [List.length_take]
      omega
    refine ⟨?_, hmagic⟩
    simp only [toBytes, hword 4 (by omega), hword 6 (by omega), hword 8 (by omega),
      hword 10 (by omega), hshape, ← List.take_add, size]
    exact (List.take_append_drop 16 bs).symm

/-- A header with another reserved field. -/
def withReserved (h : Header) (word : UInt16) : Header := { h with reserved := word }

/-- A file with the reserved bytes of its header cleared. -/
def clearReserved (file : Bytes) : Bytes := (file.set 10 0).set 11 0

theorem clearReserved_toBytes_append {h : Header} (hmagic : h.magic.length = 4)
    (rest : Bytes) :
    clearReserved (h.toBytes ++ rest) = (h.withReserved 0).toBytes ++ rest := by
  rw [toBytes_append, toBytes_append]
  simp [clearReserved, withReserved, hmagic, Bytes.ofNat]

/-- Two headers that are written alike are alike. -/
theorem toBytes_inj {h h' : Header} (hmagic : h.magic.length = 4)
    (hmagic' : h'.magic.length = 4) (heq : h.toBytes = h'.toBytes) : h = h' := by
  have hread := ofBytes_toBytes_append hmagic []
  rw [heq, ofBytes_toBytes_append hmagic' []] at hread
  exact (Except.ok.inj hread).symm

theorem length_clearReserved (file : Bytes) :
    (clearReserved file).length = file.length := by
  simp [clearReserved]

/-- A file that starts with a header once its reserved bytes are cleared starts with
that header but for the reserved field. -/
theorem eq_of_clearReserved {file rest : Bytes} {h : Header} (hmagic : h.magic.length = 4)
    (hfile : clearReserved file = h.toBytes ++ rest) :
    ∃ word, file = (h.withReserved word).toBytes ++ rest := by
  have hsize : ¬ (file.take size).length < size := by
    have hlength := congrArg List.length hfile
    rw [length_clearReserved, List.length_append, length_toBytes hmagic] at hlength
    rw [List.length_take]
    omega
  obtain ⟨h', hread⟩ : ∃ h', ofBytes file = .ok h' := by
    unfold ofBytes
    rw [if_neg hsize]
    exact ⟨_, rfl⟩
  obtain ⟨hsplit, hmagic'⟩ := toBytes_of_ofBytes hread
  rw [hsplit, clearReserved_toBytes_append hmagic'] at hfile
  obtain ⟨hheader, hrest⟩ := List.append_inj hfile (by
    rw [length_toBytes hmagic, length_toBytes (h := h'.withReserved 0) hmagic'])
  obtain rfl := toBytes_inj (h := h'.withReserved 0) hmagic' hmagic hheader
  refine ⟨h'.reserved, ?_⟩
  rw [← hrest]
  exact hsplit

end Header

namespace Binary

theorem readHeader_eq_ok_iff {file : Bytes} {h : Header} :
    readHeader file = .ok h ↔
      Header.ofBytes file = .ok h ∧ h.magic = Header.signature ∧
      h.version = Header.currentVersion := by
  unfold readHeader
  split
  · rename_i hsize
    constructor
    · intro hread
      cases hread
    · rintro ⟨hread, -⟩
      unfold Header.ofBytes at hread
      rw [if_pos hsize] at hread
      cases hread
  · cases hread : Header.ofBytes file with
    | error f => simp
    | ok h' =>
      have hsignature : h'.hasSignature = false ↔ h'.magic ≠ Header.signature := by
        simp [Header.hasSignature]
      have hcurrent : h'.isCurrent = false ↔ h'.version ≠ Header.currentVersion := by
        simp [Header.isCurrent]
      simp only [hsignature, hcurrent]
      constructor
      · intro heq
        split at heq
        · cases heq
        · rename_i hmagic
          split at heq
          · cases heq
          · rename_i hversion
            obtain rfl := Except.ok.inj heq
            exact ⟨rfl, Decidable.not_not.1 hmagic, Decidable.not_not.1 hversion⟩
      · rintro ⟨heq, hmagic, hversion⟩
        obtain rfl := Except.ok.inj heq
        rw [if_neg (Decidable.not_not.2 hmagic), if_neg (Decidable.not_not.2 hversion)]

/-- The header that a descriptor is written with. -/
theorem header_eq_ok_iff {d : Descriptor} {h : Header} :
    header d = .ok h ↔
      h.magic = Header.signature ∧
        h.version = Header.currentVersion ∧ h.reserved = 0 ∧
        d.tables.unions.size = h.unionCount.toNat ∧
        d.tables.resources.size = h.resourceCount.toNat ∧
        d.shape.length = h.shapeLength.toNat := by
  unfold header
  constructor
  · intro heq
    split at heq
    · cases heq
    · split at heq
      · cases heq
      · split at heq
        · cases heq
        · obtain rfl := Except.ok.inj heq
          refine ⟨rfl, rfl, rfl, ?_, ?_, ?_⟩
          · rw [UInt16.toNat_ofNat', Nat.mod_eq_of_lt (by omega)]
          · rw [UInt16.toNat_ofNat', Nat.mod_eq_of_lt (by omega)]
          · rw [UInt32.toNat_ofNat', Nat.mod_eq_of_lt (by omega)]
  · rintro ⟨hmagic, hversion, hreserved, hunions, hresources, hshape⟩
    have hu := h.unionCount.toNat_lt
    have hr := h.resourceCount.toNat_lt
    have hs := h.shapeLength.toNat_lt
    rw [if_neg (by omega), if_neg (by omega), if_neg (by omega),
      hunions, hresources, hshape]
    simp only [UInt16.ofNat_toNat, UInt32.ofNat_toNat]
    obtain ⟨magic, version, unionCount, resourceCount, reserved, shapeLength⟩ := h
    obtain rfl : magic = Header.signature := hmagic
    obtain rfl : version = Header.currentVersion := hversion
    obtain rfl : reserved = 0 := hreserved
    rfl

end Binary

/-! ## Files -/

namespace Descriptor

/-- A descriptor is written as its header and its sections. -/
theorem toBytes_eq_ok_iff {d : Descriptor} {file : Bytes} :
    d.toBytes = .ok file ↔
      ∃ h records, Binary.header d = .ok h ∧
        d.tables.unions.toList.mapM Binary.union = .ok records ∧
        file = h.toBytes ++ (d.shape ++ (Binary.resources d.tables ++ records.flatten)) :=
          by
  unfold toBytes
  cases Binary.header d with
  | error e => simp
  | ok h =>
    cases d.tables.unions.toList.mapM Binary.union with
    | error e => simp
    | ok records => simp [eq_comm]

theorem hinted_of_verify {d : Descriptor} (h : d.verify = .ok ()) :
    ∀ u ∈ d.tables.unions.toList, Binary.Hinted u := by
  unfold verify at h
  split at h
  · cases h
  · rename_i hranges
    exact (Verify.ranges_eq_ok_iff.1 hranges).1

/-- A file loads as a descriptor exactly if the descriptor is verified and is written as
the file with its reserved bytes cleared. -/
theorem ofBytes_eq_ok_iff {d : Descriptor} {file : Bytes} :
    ofBytes file = .ok d ↔
      d.verify = .ok () ∧ d.toBytes = .ok (Header.clearReserved file) := by
  constructor
  · intro hload
    unfold ofBytes at hload
    split at hload
    · cases hload
    · rename_i h hheader
      split at hload
      · cases hload
      · rename_i d' t hsections
        split at hload
        · rename_i hempty
          split at hload
          · cases hload
          · rename_i hverify
            obtain rfl := Except.ok.inj hload
            obtain ⟨hread, hmagic, hversion⟩ := Binary.readHeader_eq_ok_iff.1 hheader
            obtain ⟨hfile, hlength⟩ := Header.toBytes_of_ofBytes hread
            obtain ⟨hshape, hresources, hunions, records, hrecords, hbytes⟩ :=
              Binary.readSections_gives hsections
            rw [List.isEmpty_iff.1 hempty, List.append_nil] at hbytes
            refine ⟨hverify,
              toBytes_eq_ok_iff.2 ⟨h.withReserved 0, records, ?_, hrecords, ?_⟩⟩
            · exact Binary.header_eq_ok_iff.2 ⟨hmagic, hversion, rfl,
                hunions, hresources, hshape⟩
            · rw [hfile, Header.clearReserved_toBytes_append hlength]
              exact congrArg _ hbytes
        · cases hload
  · rintro ⟨hverify, hwrite⟩
    obtain ⟨hd, records, hheader, hrecords, hfile⟩ := toBytes_eq_ok_iff.1 hwrite
    obtain ⟨hmagic, hversion, hreserved, hunions, hresources, hshape⟩ :=
      Binary.header_eq_ok_iff.1 hheader
    have hlength : hd.magic.length = 4 := by
      rw [hmagic]
      rfl
    obtain ⟨word, rfl⟩ := Header.eq_of_clearReserved hlength hfile
    have hread : Binary.readHeader ((hd.withReserved word).toBytes ++
        (d.shape ++ (Binary.resources d.tables ++ records.flatten))) =
          .ok (hd.withReserved word) :=
      Binary.readHeader_eq_ok_iff.2
        ⟨Header.ofBytes_toBytes_append (h := hd.withReserved word) hlength _,
          hmagic, hversion⟩
    have hdrop : ((hd.withReserved word).toBytes ++
        (d.shape ++ (Binary.resources d.tables ++ records.flatten))).drop Header.size =
        d.shape ++ (Binary.resources d.tables ++ records.flatten) := by
      rw [← Header.length_toBytes (h := hd.withReserved word) hlength, List.drop_left]
    have hsections : Binary.Takes (Binary.readSections (hd.withReserved word))
        (d.shape ++ (Binary.resources d.tables ++ records.flatten)) d :=
      Binary.readSections_takes hshape hresources hunions
        (hinted_of_verify hverify) hrecords
    have htail := hsections [] Header.size
    rw [List.append_nil] at htail
    unfold ofBytes
    simp only [hread, hdrop, htail, hverify, List.isEmpty_nil, if_true]

/-- The format round-trips in both directions: a verified descriptor that can be written
loads from its file, and a file that loads is the file of a verified descriptor once its
reserved bytes are cleared.  So the files that load are, up to the reserved bytes, the
files of verified descriptors. -/
theorem binary_roundTrip (d : Descriptor) (file : Bytes) :
    (d.verify = .ok () → d.toBytes = .ok file → ofBytes file = .ok d) ∧
      (ofBytes file = .ok d →
        d.verify = .ok () ∧ d.toBytes = .ok (Header.clearReserved file)) ∧
      ((∃ d, ofBytes file = .ok d) ↔
        ∃ d : Descriptor, d.verify = .ok () ∧
          d.toBytes = .ok (Header.clearReserved file)) := by
  refine ⟨?_, ofBytes_eq_ok_iff.1, exists_congr fun d => ofBytes_eq_ok_iff⟩
  intro hverify hwrite
  have hclear : Header.clearReserved file = file := by
    obtain ⟨h, records, hheader, -, rfl⟩ := toBytes_eq_ok_iff.1 hwrite
    obtain ⟨hmagic, -, hreserved, -⟩ := Binary.header_eq_ok_iff.1 hheader
    have hlength : h.magic.length = 4 := by
      rw [hmagic]
      rfl
    have hsame : h.withReserved 0 = h := by
      unfold Header.withReserved
      rw [← hreserved]
    rw [Header.clearReserved_toBytes_append hlength, hsame]
  rw [ofBytes_eq_ok_iff, hclear]
  exact ⟨hverify, hwrite⟩

/-- A byte that may be missing. -/
def maybe : Descriptor :=
  ⟨Emit.union 0, ⟨#[⟨#[[], Emit.scalar .u8], [1]⟩], #[]⟩⟩

theorem binary_roundTrip_maybe :
    maybe.verify = .ok () ∧ ∃ file, maybe.toBytes = .ok file ∧
      ofBytes file = .ok maybe :=
  have h : maybe.verify = .ok () := by decide +kernel
  ⟨h, _, rfl, (binary_roundTrip maybe _).1 h rfl⟩

end Descriptor

end ShapeCode
