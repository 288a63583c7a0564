import ShapeCode.Command.Run
import ShapeCode.Proofs.BinaryRoundTrip
import ShapeCode.Proofs.JsonText

set_option autoImplicit false

/-!
# JSON and files say the same

The compact JSON of a descriptor reads back as the descriptor, verified or not
(`Descriptor.ofJson?_toJson`): each part of it is taken by the scanner of that part.
What is assembled from a text is the file of the descriptor that the text describes, and
is written only if the descriptor is verified; so it loads as that descriptor, whatever
else the text holds.
-/

namespace ShapeCode

open Json (Fields Opens Scan Takes takes_natural takes_list takes_record opens_printNat
  opens_printList opens_printRecord length_lt_printList length_lt_printRecord whole_of_takes)

/-! ## Parts of a descriptor -/

namespace JsonForm

theorem takes_word {α : Type} {limit : Nat} {ofNat : Nat → α} {toNat : α → Nat}
    {x : α} (hlt : toNat x < limit) (hinverse : ofNat (toNat x) = x) :
    Takes (word limit ofNat) (Json.printNat (toNat x)) x := by
  intro rest hrest
  simp only [word, takes_natural hlt rest hrest, hinverse]

/-- Words are taken as a list of their numbers. -/
theorem takes_words {α : Type} {limit bound : Nat} {ofNat : Nat → α}
    {toNat : α → Nat} {xs : List α} (hlt : ∀ x, toNat x < limit)
    (hinverse : ∀ x, ofNat (toNat x) = x)
    (hbound : (printNats (xs.map toNat)).length < bound) :
    Takes (Json.list bound (word limit ofNat)) (printNats (xs.map toNat)) xs := by
  unfold printNats at hbound ⊢
  rw [List.map_map] at hbound ⊢
  exact takes_list (fun x _ => takes_word (hlt x) (hinverse x))
    (fun x => opens_printNat (toNat x)) hbound

theorem takes_bytes {bs : Bytes} {bound : Nat} (h : (printBytes bs).length < bound) :
    Takes (bytes bound) (printBytes bs) bs :=
  takes_words UInt8.toNat_lt (fun _ => UInt8.ofNat_toNat) h

theorem unionFields_named (bound : Nat) : (unionFields bound).Named where
  first := (by decide : Json.isPlain variantsName = true)
  second := (by decide : Json.isPlain hintName = true)
  ne := (by decide : hintName ≠ variantsName)

theorem tablesFields_named (bound : Nat) : (tablesFields bound).Named where
  first := (by decide : Json.isPlain unionsName = true)
  second := (by decide : Json.isPlain resourcesName = true)
  ne := (by decide : resourcesName ≠ unionsName)

theorem descriptorFields_named (bound : Nat) : (descriptorFields bound).Named where
  first := (by decide : Json.isPlain shapeName = true)
  second := (by decide : Json.isPlain tablesName = true)
  ne := (by decide : tablesName ≠ shapeName)

/-- A record of a list of items and a list of words is taken if the items are. -/
theorem takes_items_words {α β : Type} {item : Scan α} {print : α → List Char}
    {limit bound : Nat} {ofNat : Nat → β} {toNat : β → Nat}
    {firstName secondName : List Char} {xs : List α} {ys : List β}
    (hnamed : (Fields.mk firstName (Json.list bound item) secondName
      (Json.list bound (word limit ofNat))).Named)
    (hitem : ∀ x, (print x).length < bound → Takes item (print x) x)
    (hopens : ∀ x, Opens (print x)) (hlt : ∀ y, toNat y < limit)
    (hinverse : ∀ y, ofNat (toNat y) = y)
    (h : (Json.printRecord firstName (Json.printList (xs.map print)) secondName
      (printNats (ys.map toNat))).length < bound) :
    Takes ((Fields.mk firstName (Json.list bound item) secondName
        (Json.list bound (word limit ofNat))).record bound)
      (Json.printRecord firstName (Json.printList (xs.map print)) secondName
        (printNats (ys.map toNat))) (xs, ys) := by
  obtain ⟨hitems, hwords⟩ :=
    length_lt_printRecord firstName (Json.printList (xs.map print)) secondName
      (printNats (ys.map toNat))
  have htaken : ∀ x ∈ xs, Takes item (print x) x := by
    intro x hx
    have hlength := length_lt_printList (List.mem_map_of_mem (f := print) hx)
    exact hitem x (Nat.lt_trans (Nat.lt_trans hlength hitems) h)
  have hfirst := takes_list htaken hopens (Nat.lt_trans hitems h)
  have hsecond := takes_words hlt hinverse (Nat.lt_trans hwords h)
  exact takes_record hnamed hfirst hsecond h

theorem takes_union {u : Union} {bound : Nat} (h : (printUnion u).length < bound) :
    Takes (union bound) (printUnion u) u := by
  intro rest hrest
  have hrecord : (unionFields bound).record bound (printUnion u ++ rest) =
      some ((u.variants.toList, u.hint), rest) :=
    takes_items_words (unionFields_named bound) (fun _ => takes_bytes)
      (fun _ => opens_printList _) UInt16.toNat_lt
      (fun _ => UInt16.ofNat_toNat) h rest hrest
  simp only [union, hrecord, Array.toArray_toList]

theorem takes_tables {t : Tables} {bound : Nat} (h : (printTables t).length < bound) :
    Takes (tables bound) (printTables t) t := by
  intro rest hrest
  have hrecord : (tablesFields bound).record bound (printTables t ++ rest) =
      some ((t.unions.toList, t.resources.toList), rest) :=
    takes_items_words (tablesFields_named bound) (fun _ => takes_union)
      (fun _ => opens_printRecord _ _ _ _)
      UInt64.toNat_lt (fun _ => UInt64.ofNat_toNat) h rest hrest
  simp only [tables, hrecord, Array.toArray_toList]

theorem takes_descriptor {d : Descriptor} {bound : Nat}
    (h : (printDescriptor d).length < bound) :
    Takes (descriptor bound) (printDescriptor d) d := by
  obtain ⟨hshape, htables⟩ :=
    length_lt_printRecord shapeName (printBytes d.shape) tablesName (printTables d.tables)
  have hfirst := takes_bytes (Nat.lt_trans hshape h)
  have hsecond := takes_tables (Nat.lt_trans htables h)
  intro rest hrest
  have hrecord : (descriptorFields bound).record bound (printDescriptor d ++ rest) =
      some ((d.shape, d.tables), rest) :=
    takes_record (descriptorFields_named bound) hfirst hsecond h rest hrest
  simp only [descriptor, hrecord]

end JsonForm

/-! ## Descriptors -/

namespace Descriptor

/-- The compact JSON of a descriptor is JSON of that descriptor. -/
theorem ofJson?_toJson (d : Descriptor) : ofJson? d.toJson = some d := by
  unfold ofJson? toJson
  rw [String.toList_ofList]
  exact whole_of_takes (JsonForm.takes_descriptor (Nat.lt_succ_self _))

/-- A text is assembled as the file of the descriptor it describes, if that is verified
and can be written. -/
theorem assembleText_eq_ok_iff {text : String} {file : Bytes} :
    assembleText text = .ok file ↔
      ∃ d, ofJson? text = some d ∧ d.verify = .ok () ∧ d.toBytes = .ok file := by
  unfold assembleText
  constructor
  · intro h
    split at h
    · cases h
    · rename_i d hread
      split at h
      · cases h
      · cases h
      · rename_i hverify
        split at h
        · cases h
        · rename_i hwrite
          obtain rfl := Except.ok.inj h
          exact ⟨d, hread, hverify, hwrite⟩
  · rintro ⟨d, hread, hverify, hwrite⟩
    simp only [hread, hverify, hwrite]

/-- The reserved bytes of a file that was written are clear. -/
theorem clearReserved_of_toBytes {d : Descriptor} {file : Bytes}
    (h : d.toBytes = .ok file) : Header.clearReserved file = file := by
  obtain ⟨header, records, hheader, -, rfl⟩ := toBytes_eq_ok_iff.1 h
  obtain ⟨hmagic, -, hreserved, -⟩ := Binary.header_eq_ok_iff.1 hheader
  have hlength : header.magic.length = 4 := by
    rw [hmagic]
    rfl
  have hsame : header.withReserved 0 = header := by
    unfold Header.withReserved
    rw [← hreserved]
  rw [Header.clearReserved_toBytes_append hlength, hsame]

/-- A verified descriptor loads from the file it is written as. -/
theorem ofBytes_of_toBytes {d : Descriptor} {file : Bytes} (hverify : d.verify = .ok ())
    (hwrite : d.toBytes = .ok file) : ofBytes file = .ok d := by
  rw [ofBytes_eq_ok_iff, clearReserved_of_toBytes hwrite]
  exact ⟨hverify, hwrite⟩

/-- JSON and files agree: the compact JSON of a descriptor reads back as it, and
assembles as its file if it is verified and can be written; whatever a text assembles as
loads as the descriptor that the text describes. -/
theorem json_agrees_with_files :
    (∀ d : Descriptor, ofJson? d.toJson = some d) ∧
    (∀ (d : Descriptor) (file : Bytes), d.verify = .ok () → d.toBytes = .ok file →
      assembleText d.toJson = .ok file) ∧
    ∀ (text : String) (file : Bytes), assembleText text = .ok file →
      ∃ d, ofJson? text = some d ∧ ofBytes file = .ok d := by
  refine ⟨ofJson?_toJson, ?_, ?_⟩
  · intro d file hverify hwrite
    exact assembleText_eq_ok_iff.2 ⟨d, ofJson?_toJson d, hverify, hwrite⟩
  · intro text file h
    obtain ⟨d, hread, hverify, hwrite⟩ := assembleText_eq_ok_iff.1 h
    exact ⟨d, hread, ofBytes_of_toBytes hverify hwrite⟩

theorem json_agrees_with_files_maybe : ∃ file, assembleText maybe.toJson = .ok file ∧
    ofJson? maybe.toJson = some maybe ∧ ∃ d, ofJson? maybe.toJson = some d ∧
    ofBytes file = .ok d := by
  have hverify : maybe.verify = .ok () := by decide +kernel
  obtain ⟨hread, hassemble, hload⟩ := json_agrees_with_files
  obtain ⟨file, hwrite⟩ : ∃ file, maybe.toBytes = .ok file := ⟨_, rfl⟩
  have hfile := hassemble maybe file hverify hwrite
  exact ⟨file, hfile, hread maybe, hload _ _ hfile⟩

end Descriptor

end ShapeCode
