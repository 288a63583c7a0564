import ShapeCode.Proofs.Loading

set_option autoImplicit false

/-!
# Files that stop early or go on

The counts and lengths of a descriptor file say where it ends.  A reader that was given
less than it read before takes the same item, or it stops in an item that it has not all
of (`Cuttable`): whatever else it checks, it checks on items that it has read.  Readers
done one after another inherit this, so the sections of a file do.

So no strict part of the front of a file is a file.  It is refused where it ends, and a
file that goes on is refused as too long (`Descriptor.loaded_exactly_sized`).
-/

namespace ShapeCode

namespace Binary

/-! ## Tails of files -/

/-- Where the file ends. -/
def Tail.stop (t : Tail) : Nat := t.offset + t.bytes.length

/-- The tail of a file that goes on. -/
def Tail.goOn (t : Tail) (more : Bytes) : Tail := ⟨t.bytes ++ more, t.offset⟩

/-- Reading is refused at the end of a file, in an item that starts there or before
and needs more. -/
def StopsShort {α : Type} (stop : Nat) (r : Except Failure α) : Prop :=
  ∃ part offset needed, r = .error (.refused (.truncated part offset needed)) ∧
    offset ≤ stop ∧ stop < offset + needed

/-- Where a file that goes on gives an item, the file itself gives the same item, or is
too short for it. -/
def Cuttable {α : Type} (read : TailReader α) : Prop :=
  ∀ ⦃t more x t'⦄, read (t.goOn more) = .ok (x, t') →
    (∃ left : Tail, read t = .ok (x, left) ∧ t' = left.goOn more ∧
      left.stop = t.stop) ∨ StopsShort t.stop (read t)

/-! ## Readers -/

section Readers

variable {α β : Type}

/-- A reader, and one that depends on what the first gave. -/
def andThen (read : TailReader α) (next : α → TailReader β) : TailReader β := fun t =>
  match read t with
  | .error e => .error e
  | .ok (x, t) => next x t

theorem Cuttable.andThen {read : TailReader α} {next : α → TailReader β}
    (h : Cuttable read) (hnext : ∀ x, Cuttable (next x)) :
    Cuttable (andThen read next) := by
  intro t more y t' hread
  unfold Binary.andThen at hread ⊢
  split at hread
  · cases hread
  · rename_i x mid hfirst
    rcases h hfirst
      with ⟨left, hleft, rfl, hstop⟩ | ⟨part, offset, needed, hshort, hstop⟩
    · rw [hleft, ← hstop]
      exact hnext x hread
    · rw [hshort]
      exact .inr ⟨part, offset, needed, rfl, hstop⟩

/-- Giving an item without reading. -/
theorem cuttable_pure (x : α) : Cuttable fun t => .ok (x, t) := by
  intro t more y t' hread
  obtain ⟨rfl, rfl⟩ := Prod.mk.inj (Except.ok.inj hread)
  exact .inl ⟨t, rfl, rfl, rfl⟩

theorem cuttable_take (part : FileSection) (n : Nat) : Cuttable (take part n) := by
  intro t more bs t' hread
  by_cases hn : n ≤ t.bytes.length
  · left
    have hhead : (t.bytes.take n).length = n := by
      rw [List.length_take]
      omega
    have hwhole : Bytes.split? n (t.goOn more).bytes =
        some (t.bytes.take n, t.bytes.drop n ++ more) := by
      refine Bytes.split?_eq_some_iff.2 ⟨?_, hhead⟩
      rw [← List.append_assoc, List.take_append_drop]
      rfl
    have hpart : Bytes.split? n t.bytes = some (t.bytes.take n, t.bytes.drop n) :=
      Bytes.split?_eq_some_iff.2 ⟨(List.take_append_drop n t.bytes).symm, hhead⟩
    simp only [take, hwhole] at hread
    obtain ⟨rfl, rfl⟩ := Prod.mk.inj (Except.ok.inj hread)
    refine ⟨⟨t.bytes.drop n, t.offset + n⟩, by simp only [take, hpart], rfl, ?_⟩
    simp only [Tail.stop, List.length_drop]
    omega
  · right
    have hnone : Bytes.split? n t.bytes = none := Bytes.split?_eq_none_iff.2 (by omega)
    refine ⟨part, t.offset, n, by simp only [take, hnone], ?_⟩
    unfold Tail.stop
    omega

end Readers

/-! ## Items of a file -/

theorem readU16_eq :
    readU16 = andThen (take .unions 2) fun word t => .ok (UInt16.ofNat word.toNat, t) := by
  funext t
  unfold readU16 andThen
  cases take .unions 2 t <;> rfl

theorem readResource_eq :
    readResource = andThen (take .resources 8) fun word t =>
        .ok (UInt64.ofNat word.toNat, t) := by
  funext t
  unfold readResource andThen
  cases take .resources 8 t <;> rfl

theorem readVariant_eq :
    readVariant = andThen readU16 fun length => take .variant length.toNat := by
  funext t
  unfold readVariant andThen
  cases readU16 t <;> rfl

theorem readSeries_succ {α : Type} (item : Nat → TailReader α) (n id : Nat)
    (before : List α) :
    readSeries item (n + 1) id before = andThen (item id) fun x =>
        readSeries item n (id + 1) (x :: before) := by
  funext t
  cases h : item id t <;> simp only [readSeries, andThen, h]

/-- The check of a union that was read. -/
def checked (id : Nat) (hint : List UInt16) (variants : List Bytes) :
    TailReader Union := fun t =>
  (checkedUnion id variants hint).map fun u => (u, t)

theorem readUnion_eq (id : Nat) :
    readUnion id = andThen readU16 fun variantCount => andThen readU16 fun hintCount =>
      andThen (readMany readU16 hintCount.toNat []) fun hint =>
        andThen (readMany readVariant variantCount.toNat []) fun variants =>
          checked id hint variants := by
  funext t
  simp only [readUnion, andThen, checked]
  rcases readU16 t with e | ⟨variantCount, t⟩
  · rfl
  dsimp only
  rcases readU16 t with e | ⟨hintCount, t⟩
  · rfl
  dsimp only
  rcases readMany readU16 hintCount.toNat [] t with e | ⟨hint, t⟩
  · rfl
  dsimp only
  rcases readMany readVariant variantCount.toNat [] t with e | ⟨variants, t⟩
  · rfl
  dsimp only
  cases checkedUnion id variants hint <;> rfl

theorem readSections_eq (h : Header) :
    readSections h = andThen (take .shape h.shapeLength.toNat) fun shape =>
      andThen (readMany readResource h.resourceCount.toNat []) fun resources =>
        andThen (readUnions h.unionCount.toNat 0 []) fun unions t =>
          .ok (⟨shape, ⟨unions.toArray, resources.toArray⟩⟩, t) := by
  funext t
  simp only [readSections, andThen]
  rcases take .shape h.shapeLength.toNat t with e | ⟨shape, t⟩
  · rfl
  dsimp only
  rcases readMany readResource h.resourceCount.toNat [] t with e | ⟨resources, t⟩
  · rfl
  dsimp only
  cases readUnions h.unionCount.toNat 0 [] t <;> rfl

theorem cuttable_readU16 : Cuttable readU16 := by
  rw [readU16_eq]
  exact (cuttable_take .unions 2).andThen fun word =>
    cuttable_pure (UInt16.ofNat word.toNat)

theorem cuttable_readResource : Cuttable readResource := by
  rw [readResource_eq]
  exact (cuttable_take .resources 8).andThen fun word =>
    cuttable_pure (UInt64.ofNat word.toNat)

theorem cuttable_readVariant : Cuttable readVariant := by
  rw [readVariant_eq]
  exact cuttable_readU16.andThen fun length => cuttable_take .variant length.toNat

section Many

variable {α : Type}

theorem cuttable_readSeries {item : Nat → TailReader α}
    (hitem : ∀ id, Cuttable (item id)) (n id : Nat) (before : List α) :
    Cuttable (readSeries item n id before) := by
  induction n generalizing id before with
  | zero => exact cuttable_pure before.reverse
  | succ n ih =>
    rw [readSeries_succ]
    exact (hitem id).andThen fun x => ih (id + 1) (x :: before)

theorem cuttable_readMany {item : TailReader α} (hitem : Cuttable item) (n : Nat)
    (before : List α) : Cuttable (readMany item n before) := by
  rw [readMany_eq_readSeries item n 0]
  exact cuttable_readSeries (fun _ => hitem) n 0 before

end Many

/-- A union is checked once all of it was read. -/
theorem cuttable_checked (id : Nat) (hint : List UInt16) (variants : List Bytes) :
    Cuttable (checked id hint variants) := by
  intro t more u t' hread
  unfold checked at hread ⊢
  cases hchecked : checkedUnion id variants hint with
  | error e =>
    rw [hchecked] at hread
    cases hread
  | ok u' =>
    rw [hchecked] at hread
    exact cuttable_pure u' hread

theorem cuttable_readUnion (id : Nat) : Cuttable (readUnion id) := by
  rw [readUnion_eq]
  refine cuttable_readU16.andThen fun variantCount =>
    cuttable_readU16.andThen fun hintCount => ?_
  refine (cuttable_readMany cuttable_readU16 hintCount.toNat []).andThen fun hint => ?_
  exact (cuttable_readMany cuttable_readVariant variantCount.toNat
      []).andThen fun variants =>
    cuttable_checked id hint variants

theorem cuttable_readSections (h : Header) : Cuttable (readSections h) := by
  rw [readSections_eq]
  refine (cuttable_take .shape h.shapeLength.toNat).andThen fun shape => ?_
  refine (cuttable_readMany cuttable_readResource h.resourceCount.toNat
    []).andThen fun resources => ?_
  rw [readUnions_eq_readSeries]
  exact (cuttable_readSeries cuttable_readUnion h.unionCount.toNat 0 []).andThen
    fun unions => cuttable_pure _

/-- The header depends on the first bytes of a file alone. -/
theorem readHeader_of_append {p more : Bytes} {h : Header} (hp : Header.size ≤ p.length)
    (hread : readHeader (p ++ more) = .ok h) : readHeader p = .ok h := by
  rw [readHeader_eq_ok_iff] at hread ⊢
  rw [← Header.ofBytes_take, List.take_append_of_le_length hp,
    Header.ofBytes_take] at hread
  exact hread

end Binary

/-! ## Files -/

namespace Descriptor

/-- What loads is a header and sections to the end of the file. -/
theorem sections_of_ofBytes {d : Descriptor} {file : Bytes} (h : ofBytes file = .ok d) :
    ∃ header stop, Binary.readHeader file = .ok header ∧
      Binary.readSections header ⟨file.drop Header.size, Header.size⟩ =
        .ok (d, ⟨[], stop⟩) := by
  unfold ofBytes at h
  split at h
  · cases h
  · rename_i header hheader
    split at h
    · cases h
    · rename_i d' t hsections
      split at h
      · rename_i hempty
        split at h
        · cases h
        · obtain rfl := Except.ok.inj h
          obtain ⟨bytes, stop⟩ := t
          obtain rfl : bytes = [] := List.isEmpty_iff.1 hempty
          exact ⟨header, stop, hheader, hsections⟩
      · cases h

/-- The front of a file, cut behind its header, is refused where it ends. -/
theorem ofBytes_cut {d : Descriptor} {p more : Bytes} (h : ofBytes (p ++ more) = .ok d)
    (hmore : more ≠ []) (hp : Header.size ≤ p.length) :
    Binary.StopsShort p.length (ofBytes p) := by
  obtain ⟨header, stop, hheader, hsections⟩ := sections_of_ofBytes h
  rw [List.drop_append_of_le_length hp] at hsections
  rcases Binary.cuttable_readSections header
      (t := ⟨p.drop Header.size, Header.size⟩) hsections with
    ⟨left, -, hleft, -⟩ | ⟨part, offset, needed, hshort, hstop⟩
  · have hnone : left.bytes ++ more = [] := (congrArg Binary.Tail.bytes hleft).symm
    exact absurd (List.append_eq_nil_iff.1 hnone).2 hmore
  · refine ⟨part, offset, needed, ?_, ?_⟩
    · simp only [ofBytes, Binary.readHeader_of_append hp hheader, hshort]
    · have hlength : Binary.Tail.stop ⟨p.drop Header.size, Header.size⟩ = p.length := by
        simp only [Binary.Tail.stop, List.length_drop]
        omega
      rwa [hlength] at hstop

/-- A file that goes on is refused, with the length of the file. -/
theorem ofBytes_append {d : Descriptor} {file more : Bytes} (h : ofBytes file = .ok d)
    (hmore : more ≠ []) :
    ofBytes (file ++ more) =
        .error (.refused (.sizeMismatch file.length (file.length + more.length))) := by
  obtain ⟨header, stop, hheader, hsections⟩ := sections_of_ofBytes h
  have hsize := Binary.size_le_of_readHeader hheader
  obtain ⟨hread, hsignature, hversion⟩ := Binary.readHeader_eq_ok_iff.1 hheader
  obtain ⟨hshape, hresources, hunions, records, hrecords, hbytes⟩ :=
    Binary.readSections_gives hsections
  rw [List.append_nil] at hbytes
  have hheader' : Binary.readHeader (file ++ more) = .ok header := by
    rw [Binary.readHeader_eq_ok_iff, ← Header.ofBytes_take,
      List.take_append_of_le_length hsize, Header.ofBytes_take]
    exact ⟨hread, hsignature, hversion⟩
  have hsections' :=
    Binary.readSections_takes hshape hresources hunions
      (hinted_of_verify (ofBytes_eq_ok_iff.1 h).1) hrecords more Header.size
  rw [← hbytes, ← List.drop_append_of_le_length hsize, List.length_drop,
    Nat.add_sub_cancel' hsize] at hsections'
  have hempty : more.isEmpty = false := by
    cases more with
    | nil => exact absurd rfl hmore
    | cons => rfl
  simp [ofBytes, hheader', hsections', hempty]

/-- A file that loads ends where it says.  Every strict part of its front is refused:
too small for a header, or cut in an item that starts in the part and needs more than is
left of it.  With anything behind it the file is refused as longer than it says. -/
theorem loaded_exactly_sized {d : Descriptor} {file : Bytes} (h : ofBytes file = .ok d) :
    (∀ p, p <+: file → p ≠ file →
      (p.length < 16 → ofBytes p = .error (.refused (.tooSmall p.length))) ∧
        (16 ≤ p.length → ∃ part offset needed,
          ofBytes p = .error (.refused (.truncated part offset needed)) ∧
            offset ≤ p.length ∧ p.length < offset + needed)) ∧
      ∀ more, more ≠ [] →
        ofBytes (file ++ more) =
          .error (.refused (.sizeMismatch file.length (file.length + more.length))) := by
  refine ⟨?_, fun more hmore => ofBytes_append h hmore⟩
  rintro p ⟨more, rfl⟩ hne
  have hmore : more ≠ [] := by
    rintro rfl
    exact hne (List.append_nil p).symm
  refine ⟨fun hsmall => ?_, ofBytes_cut h hmore⟩
  have hheader : (p.take Header.size).length < Header.size :=
    Nat.lt_of_le_of_lt (List.length_take_le' _ _) hsmall
  simp only [ofBytes, Binary.readHeader, if_pos hheader]

/-- A file with a hint, cut within the hints, and with a byte behind it. -/
theorem loaded_exactly_sized_maybe : ∃ file, ofBytes file = .ok maybe ∧
    (∃ part offset needed, ofBytes (file.take 24) =
      .error (.refused (.truncated part offset needed)) ∧
      offset ≤ 24 ∧ 24 < offset + needed) ∧
    ofBytes (file ++ [0]) = .error (.refused (.sizeMismatch 30 31)) := by
  have hfile : ∃ file, maybe.toBytes = .ok file ∧
      ofBytes file = .ok maybe ∧ file.length = 30 := by
    refine ⟨_, rfl, ?_⟩
    decide +kernel
  obtain ⟨file, -, hload, hlength⟩ := hfile
  obtain ⟨hcut, hlong⟩ := loaded_exactly_sized hload
  have htake : (file.take 24).length = 24 := by
    rw [List.length_take]
    omega
  have hne : file.take 24 ≠ file := by
    intro heq
    rw [heq] at htake
    omega
  have hstops := (hcut _ (List.take_prefix 24 file) hne).2 (by omega)
  have hmore := hlong [0] (by simp)
  rw [htake] at hstops
  rw [hlength] at hmore
  exact ⟨file, hload, hstops, hmore⟩

end Descriptor

end ShapeCode
