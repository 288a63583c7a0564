import Mathlib.Data.Nat.Log
import ShapeCode.Proofs.BuilderLimits
import ShapeCode.Proofs.PrintableText
import ShapeCode.Proofs.RangeText
import ShapeCode.Proofs.RoomForLayouts

set_option autoImplicit false

/-!
# A listing, line by line

`Descriptor.lines` says what each line of a listing stands for, and `Line.text` how a
line is spelled.  A listing is the text of these lines if its layouts can be measured
(`listing_eq_ok_iff`), and the text splits into the lines again, since what a line shows
is printable.  Palettes differ in marks alone (`Painted`), so that deleting the marks of
the one leaves the text of the other (`Fades`).
-/

namespace ShapeCode

namespace Listing

/-! ## Lines -/

/-- What a line of a listing says. -/
inductive Line where
  | blank
  | title (name : String)
  | root (text : String) (layout : Layout)
  | union (width id : Nat) (layout : Layout)
  | variant (width id : Nat) (hinted : Bool) (text : String)
  | resource (width id : Nat) (handle : UInt64)
  deriving DecidableEq, Repr

/-- The text of a line. -/
def Line.text (c : Palette) : Line → String
  | .blank => ""
  | .title name => c.kind ++ "[" ++ name ++ "]" ++ c.reset
  | .root text l => text ++ "  " ++ remark c l
  | .union width id l => c.number ++ label "T" width id ++ c.reset ++ "  " ++ remark c l
  | .variant width id hinted text =>
    "  " ++ label "V" width id ++ c.punctuation ++ (if hinted then "*" else " ") ++
      c.reset ++ "  (" ++ text ++ ")"
  | .resource width id handle =>
    c.number ++ label "R" width id ++ c.reset ++ "  0x" ++ Numeral.hexPadded 16 handle.toNat

/-- The text of lines, each of them ended. -/
def unlines (c : Palette) : List Line → String
  | [] => ""
  | line :: rest => line.text c ++ "\n" ++ unlines c rest

/-- The layout of a range that can be measured. -/
def measured (t : Tables) (bs : Bytes) : Layout := (Bytes.layout t bs).toOption.getD .unset

/-- The texts of the nodes of a range, joined by commas. -/
def joined (t : Tables) (bs : Bytes) : String :=
  ",".intercalate ((Outline.ofBytes bs).texts t)

/-- The line of a variant and its id, with a star if the hint names the id. -/
def variantLine (t : Tables) (u : Union) (entry : Bytes × Nat) : Line :=
  .variant (labelWidth u.variants.size) entry.2
    (decide (∃ id ∈ u.hint, id.toNat = entry.2)) (joined t entry.1)

/-- The line of a union, and below it those of its variants. -/
def unionLines (t : Tables) (width : Nat) (entry : Union × Nat) : List Line :=
  .union width entry.2 (measured t (Emit.union (UInt16.ofNat entry.2))) ::
    entry.1.variants.toList.zipIdx.map (variantLine t entry.1)

/-- The line of a resource. -/
def resourceLine (width : Nat) (entry : UInt64 × Nat) : Line :=
  .resource width entry.2 entry.1

/-- The lines of the unions and of their variants. -/
def linesOfUnions (t : Tables) : List Line :=
  t.unions.toList.zipIdx.flatMap (unionLines t (labelWidth t.unions.size))

/-- The lines of the resources. -/
def linesOfResources (t : Tables) : List Line :=
  t.resources.toList.zipIdx.map (resourceLine (labelWidth t.resources.size))

/-- Lines below a title, if there are any. -/
def titled (name : String) : List Line → List Line
  | [] => []
  | line :: rest => .blank :: .title name :: line :: rest

end Listing

open Listing

/-- The lines of the listing of a descriptor. -/
def Descriptor.lines (d : Descriptor) : List Line :=
  .title "shape" :: .root (joined d.tables d.shape) (measured d.tables d.shape) ::
    (titled "tags" (linesOfUnions d.tables) ++
      titled "resources" (linesOfResources d.tables))

/-- What a listing measures can be measured: the root, each union, and the elements of
the runs that are written. -/
structure Descriptor.Listable (d : Descriptor) : Prop where
  root : ∃ l, Bytes.layout d.tables d.shape = .ok l
  unions : ∀ id : UInt16, id.toNat < d.tables.unions.size →
    ∃ l, Bytes.layout d.tables (Emit.union id) = .ok l
  rootRuns : (Outline.ofBytes d.shape).RunsSpaced d.tables
  variantRuns : ∀ u ∈ d.tables.unions, ∀ fields ∈ u.variants,
    (Outline.ofBytes fields).RunsSpaced d.tables

namespace Listing

variable {t : Tables} {c : Palette}

theorem unlines_append (ls ls' : List Line) :
    unlines c (ls ++ ls') = unlines c ls ++ unlines c ls' := by
  induction ls with
  | nil => simp [unlines]
  | cons line rest ih => simp only [List.cons_append, unlines, ih, String.append_assoc]

theorem linesOfUnions_eq_nil_iff : linesOfUnions t = [] ↔ t.unions = #[] := by
  have hentries : linesOfUnions t = [] ↔ t.unions.toList.zipIdx = [] := by
    rw [linesOfUnions]
    cases t.unions.toList.zipIdx with
    | nil => exact iff_of_true rfl rfl
    | cons entry rest => exact iff_of_false (List.cons_ne_nil _ _) (List.cons_ne_nil _ _)
  rw [hentries, List.zipIdx_eq_nil_iff, Array.toList_eq_nil_iff]

theorem linesOfResources_eq_nil_iff : linesOfResources t = [] ↔ t.resources = #[] := by
  rw [linesOfResources, List.map_eq_nil_iff, List.zipIdx_eq_nil_iff,
    Array.toList_eq_nil_iff]

theorem forall_mem_linesOfUnions {p : Line → Prop}
    (hunion : ∀ width id l, p (.union width id l))
    (hvariant : ∀ width id hinted bs, p (.variant width id hinted (joined t bs))) :
    ∀ line ∈ linesOfUnions t, p line :=
  List.forall_mem_flatMap.2 fun _ _ =>
    List.forall_mem_cons.2 ⟨hunion _ _ _,
      List.forall_mem_map.2 fun _ _ => hvariant _ _ _ _⟩

theorem forall_mem_linesOfResources {p : Line → Prop}
    (h : ∀ width id handle, p (.resource width id handle)) :
    ∀ line ∈ linesOfResources t, p line :=
  List.forall_mem_map.2 fun _ _ => h _ _ _

theorem forall_mem_titled {p : Line → Prop} {name : String} {ls : List Line}
    (hblank : p .blank) (hname : p (.title name)) (h : ∀ line ∈ ls, p line) :
    ∀ line ∈ titled name ls, p line := by
  cases ls with
  | nil => exact List.forall_mem_nil _
  | cons line rest =>
    exact List.forall_mem_cons.2 ⟨hblank, List.forall_mem_cons.2 ⟨hname, h⟩⟩

theorem title_mem_titled_iff {x name : String} {ls : List Line}
    (h : ∀ line ∈ ls, line ≠ .title x) :
    .title x ∈ titled name ls ↔ x = name ∧ ls ≠ [] := by
  have hnone : .title x ∉ ls := fun hmem => h _ hmem rfl
  cases ls with
  | nil => simp [titled]
  | cons line rest => simp [titled, hnone]

/-- A hint names the id that an index is narrowed to if the index does not need more
than sixteen bits. -/
theorem contains_ofNat {hint : List UInt16} {v : Nat} (hv : v < 65536) :
    hint.contains (UInt16.ofNat v) = decide (∃ id ∈ hint, id.toNat = v) := by
  rw [List.contains_eq_mem, decide_eq_decide]
  constructor
  · intro hmem
    exact ⟨UInt16.ofNat v, hmem, UInt16.toNat_ofNat_of_lt hv⟩
  · rintro ⟨id, hmem, rfl⟩
    rwa [UInt16.ofNat_toNat]

/-! ## Writing the lines -/

/-- A computation of which it is known when it gives which result gives that result, or
ends in a fault. -/
theorem ok_or_error {α : Type} {r : Except Fault α} {p : Prop} {y : α}
    (h : ∀ x, r = .ok x ↔ p ∧ x = y) :
    (p ∧ r = .ok y) ∨ (¬ p ∧ ∃ f, r = .error f) := by
  cases hr : r with
  | error f =>
    refine .inr ⟨fun hp => ?_, f, rfl⟩
    cases hr.symm.trans ((h y).2 ⟨hp, rfl⟩)
  | ok x =>
    obtain ⟨hp, rfl⟩ := (h x).1 hr
    exact .inl ⟨hp, rfl⟩

theorem variant_eq_ok_iff {u : Union} {v : Nat} {fields : Bytes} {s : String}
    (hv : v < 65536) (hsound : (Outline.ofBytes fields).Sound t) :
    variant t c u v fields = .ok s ↔
      (Outline.ofBytes fields).RunsSpaced t ∧
      s = (variantLine t u (fields, v)).text c ++ "\n" := by
  unfold variant
  rcases ok_or_error fun _ => Outline.text_eq_ok_iff hsound
    with ⟨hspaced, htext⟩ | ⟨hspaced, f, htext⟩
  · simp only [htext, contains_ofNat hv, hspaced, true_and, variantLine, Line.text,
      joined, String.append_assoc, Except.ok.injEq]
    exact eq_comm
  · simp only [htext, hspaced, false_and, reduceCtorEq]

theorem variants_eq_ok_iff {u : Union} {index : Nat} {fs : List Bytes} {before s : String}
    (hindex : index + fs.length ≤ 65536)
    (hsound : ∀ fields ∈ fs, (Outline.ofBytes fields).Sound t) :
    variants t c u index fs before = .ok s ↔
      (∀ fields ∈ fs, (Outline.ofBytes fields).RunsSpaced t) ∧
        s = before ++ unlines c ((fs.zipIdx index).map (variantLine t u)) := by
  induction fs generalizing index before with
  | nil => simp [variants, unlines, eq_comm]
  | cons fields rest ih =>
    rw [List.forall_mem_cons] at hsound
    rw [List.length_cons] at hindex
    have hrest : index + 1 + rest.length ≤ 65536 := by omega
    have hline := fun line =>
      variant_eq_ok_iff (c := c) (u := u) (s := line) (v := index) (by omega) hsound.1
    simp only [List.forall_mem_cons, List.zipIdx_cons, List.map_cons, unlines, variants]
    rcases ok_or_error hline with ⟨hspaced, hwritten⟩ | ⟨hspaced, f, hwritten⟩
    · simp only [hwritten, hspaced, true_and, ih hrest hsound.2, String.append_assoc]
    · simp only [hwritten, hspaced, false_and, reduceCtorEq]

theorem unionLine_eq_ok_iff {width index : Nat} {s : String} :
    unionLine t c width index = .ok s ↔
      (∃ l, Bytes.layout t (Emit.union (UInt16.ofNat index)) = .ok l) ∧
        s = (Line.union width index (measured t (Emit.union (UInt16.ofNat index)))).text
          c ++ "\n" := by
  unfold unionLine measured
  cases hl : Bytes.layout t (Emit.union (UInt16.ofNat index)) with
  | error f => simp
  | ok l => simp [Line.text, String.append_assoc, Except.toOption, eq_comm]

/-- What a listing measures for a union and its variants. -/
def UnionListable (t : Tables) (entry : Union × Nat) : Prop :=
  (∃ l, Bytes.layout t (Emit.union (UInt16.ofNat entry.2)) = .ok l) ∧
    ∀ fields ∈ entry.1.variants.toList, (Outline.ofBytes fields).RunsSpaced t

theorem unions_eq_ok_iff {width index : Nat} {us : List Union} {before s : String}
    (hus : ∀ u ∈ us, u.variants.toList.length ≤ 65536 ∧
      ∀ fields ∈ u.variants.toList, (Outline.ofBytes fields).Sound t) :
    unions t c width index us before = .ok s ↔
      (∀ entry ∈ us.zipIdx index, UnionListable t entry) ∧
        s = before ++ unlines c ((us.zipIdx index).flatMap (unionLines t width)) := by
  induction us generalizing index before with
  | nil => simp [unions, unlines, eq_comm]
  | cons u rest ih =>
    rw [List.forall_mem_cons] at hus
    obtain ⟨⟨hsize, hsound⟩, hrest⟩ := hus
    -- The first that fails ends the listing: the line of the union, its
    -- variants, or the rest.
    have hvariants := fun before s =>
      @variants_eq_ok_iff t c u 0 u.variants.toList before s (by omega) hsound
    simp only [List.forall_mem_cons, List.zipIdx_cons, List.flatMap_cons, unlines_append,
      unionLines, unlines, unions]
    rcases ok_or_error fun _ => @unionLine_eq_ok_iff t c width index _
      with ⟨hl, hline⟩ | ⟨hl, f, hline⟩
    · generalize (Line.union width index
        (measured t (Emit.union (UInt16.ofNat index)))).text c ++ "\n" = line at hline
      rcases ok_or_error (hvariants (before ++ line))
        with ⟨hspaced, hbelow⟩ | ⟨hspaced, f, hbelow⟩
      · have hlistable : UnionListable t (u, index) := ⟨hl, hspaced⟩
        simp only [hline, hbelow, hlistable, true_and, ih hrest, String.append_assoc]
      · have hlistable : ¬ UnionListable t (u, index) := fun h => hspaced h.2
        simp only [hline, hbelow, hlistable, false_and, reduceCtorEq]
    · have hlistable : ¬ UnionListable t (u, index) := fun h => hl h.1
      simp only [hline, hlistable, false_and, reduceCtorEq]

theorem resources_eq {width index : Nat} {handles : List UInt64} {before : String} :
    resources c width index handles before =
      before ++ unlines c ((handles.zipIdx index).map (resourceLine width)) := by
  induction handles generalizing index before with
  | nil => simp [resources, unlines]
  | cons handle rest ih =>
    have hline : resource c width index handle =
        (resourceLine width (handle, index)).text c ++ "\n" :=
      rfl
    simp only [resources, ih, hline, List.zipIdx_cons, List.map_cons,
      unlines, String.append_assoc]

theorem unlines_titled {name : String} {ls : List Line} (h : ls ≠ []) :
    unlines c (titled name ls) = "\n" ++ title c name ++ unlines c ls := by
  obtain ⟨line, rest, rfl⟩ := List.exists_cons_of_ne_nil h
  simp [titled, unlines, Line.text, title, String.append_assoc]

theorem root_eq_ok_iff {d : Descriptor} {s : String}
    (hsound : (Outline.ofBytes d.shape).Sound d.tables) :
    root d c = .ok s ↔
      ((∃ l, Bytes.layout d.tables d.shape = .ok l) ∧
        (Outline.ofBytes d.shape).RunsSpaced d.tables) ∧
        s = unlines c [.title "shape",
          .root (joined d.tables d.shape) (measured d.tables d.shape)] := by
  unfold root measured Bytes.layout
  cases hl : (Outline.ofBytes d.shape).layout d.tables with
  | error f => simp [hl]
  | ok l =>
    rcases ok_or_error fun _ => Outline.text_eq_ok_iff hsound
      with ⟨hspaced, htext⟩ | ⟨hspaced, f, htext⟩
    · simp [hl, htext, hspaced, unlines, Line.text, joined, title, String.append_assoc,
        Except.toOption, eq_comm]
    · simp [hl, htext, hspaced]

theorem unionSection_eq_ok_iff {s : String}
    (hus : ∀ u ∈ t.unions.toList, u.variants.toList.length ≤ 65536 ∧
      ∀ fields ∈ u.variants.toList, (Outline.ofBytes fields).Sound t) :
    unionSection t c = .ok s ↔
      (∀ entry ∈ t.unions.toList.zipIdx, UnionListable t entry) ∧
      s = unlines c (titled "tags" (linesOfUnions t)) := by
  unfold unionSection
  split
  · rename_i hempty
    rw [Array.isEmpty_iff] at hempty
    rw [linesOfUnions_eq_nil_iff.2 hempty, hempty]
    simp [titled, unlines, eq_comm]
  · rename_i hsome
    rw [Array.isEmpty_iff] at hsome
    rw [unlines_titled (mt linesOfUnions_eq_nil_iff.1 hsome),
      unions_eq_ok_iff hus, linesOfUnions]

theorem resourceSection_eq :
    resourceSection t c = unlines c (titled "resources" (linesOfResources t)) := by
  unfold resourceSection
  split
  · rename_i hempty
    rw [Array.isEmpty_iff] at hempty
    rw [linesOfResources_eq_nil_iff.2 hempty]
    rfl
  · rename_i hsome
    rw [Array.isEmpty_iff] at hsome
    rw [unlines_titled (mt linesOfResources_eq_nil_iff.1 hsome),
      resources_eq, linesOfResources]

end Listing

namespace Descriptor

variable {d : Descriptor} {c : Palette}

/-- The tables of a descriptor that was loaded are small enough for ids of sixteen bits. -/
structure Numbered (d : Descriptor) : Prop where
  unions : d.tables.unions.size < 65536
  variants : ∀ u ∈ d.tables.unions, u.variants.size < 65536

theorem numbered_of_ofBytes {file : Bytes} (h : ofBytes file = .ok d) : d.Numbered := by
  have hfits := d.toBytes_fits
  rw [(ofBytes_eq_ok_iff.1 h).2] at hfits
  exact ⟨hfits _ _ .unions, fun u hu => hfits _ _ (.record hu .variants)⟩

theorem listable_iff (hn : d.Numbered) :
    d.Listable ↔
      ((∃ l, Bytes.layout d.tables d.shape = .ok l) ∧
        (Outline.ofBytes d.shape).RunsSpaced d.tables) ∧
        ∀ entry ∈ d.tables.unions.toList.zipIdx, UnionListable d.tables entry := by
  constructor
  · rintro ⟨hroot, hunions, hrootRuns, hvariantRuns⟩
    refine ⟨⟨hroot, hrootRuns⟩, ?_⟩
    rintro ⟨u, i⟩ hentry
    rw [List.mem_zipIdx_iff_getElem?, Array.getElem?_toList] at hentry
    obtain ⟨hi, -⟩ := Array.getElem?_eq_some_iff.1 hentry
    have hid : (UInt16.ofNat i).toNat = i :=
      UInt16.toNat_ofNat_of_lt (Nat.lt_trans hi hn.unions)
    refine ⟨hunions _ (by rwa [hid]), fun fields hf => ?_⟩
    exact hvariantRuns u (Array.mem_of_getElem? hentry) fields (Array.mem_toList_iff.1 hf)
  · rintro ⟨⟨hroot, hrootRuns⟩, hentries⟩
    refine ⟨hroot, fun id hid => ?_, hrootRuns, fun u hu fields hf => ?_⟩
    · have hentry :
          (d.tables.unions[id.toNat], id.toNat) ∈ d.tables.unions.toList.zipIdx := by
        rw [List.mem_zipIdx_iff_getElem?, Array.getElem?_toList]
        exact Array.getElem?_eq_getElem hid
      have hl := (hentries _ hentry).1
      rwa [UInt16.ofNat_toNat] at hl
    · obtain ⟨i, hi⟩ := Array.mem_iff_getElem?.1 hu
      have hentry : (u, i) ∈ d.tables.unions.toList.zipIdx := by
        rwa [List.mem_zipIdx_iff_getElem?, Array.getElem?_toList]
      exact (hentries _ hentry).2 fields (Array.mem_toList_iff.2 hf)

/-- A listing is the text of its lines, if what it measures can be measured. -/
theorem listing_eq_ok_iff {s : String} (hv : d.Verified) (hn : d.Numbered) :
    d.listing c = .ok s ↔ d.Listable ∧ s = unlines c d.lines := by
  have hus : ∀ u ∈ d.tables.unions.toList, u.variants.toList.length ≤ 65536 ∧
      ∀ fields ∈ u.variants.toList, (Outline.ofBytes fields).Sound d.tables := by
    intro u hu
    rw [Array.mem_toList_iff] at hu
    rw [Array.length_toList]
    refine ⟨Nat.le_of_lt (hn.variants u hu), fun fields hf => ?_⟩
    exact hv.tables.sound.variant_sound u hu fields (Array.mem_toList_iff.1 hf)
  have hlines : unlines c d.lines =
      unlines c [.title "shape",
        .root (joined d.tables d.shape) (measured d.tables d.shape)] ++
        unlines c (titled "tags" (linesOfUnions d.tables)) ++ resourceSection d.tables c :=
          by
    simp only [resourceSection_eq, ← unlines_append]
    rfl
  unfold listing
  rw [hlines]
  have hroots := fun s => @root_eq_ok_iff c d s hv.root
  have hsections := fun s => @unionSection_eq_ok_iff d.tables c s hus
  rcases ok_or_error hroots with ⟨hroot, hwritten⟩ | ⟨hroot, f, hwritten⟩
  · rcases ok_or_error hsections with ⟨hunions, hsection⟩ | ⟨hunions, f, hsection⟩
    · have hlistable : d.Listable := (listable_iff hn).2 ⟨hroot, hunions⟩
      simp only [hwritten, hsection, hlistable, true_and, Except.ok.injEq]
      exact eq_comm
    · have hlistable : ¬ d.Listable := fun h => hunions ((listable_iff hn).1 h).2
      simp only [hwritten, hsection, hlistable, false_and, reduceCtorEq]
  · have hlistable : ¬ d.Listable := fun h => hroot ((listable_iff hn).1 h).1
    simp only [hwritten, hlistable, false_and, reduceCtorEq]

end Descriptor

/-! ## Lines are printable -/

theorem Printable.intercalate {separator : String} {ss : List String}
    (hseparator : Printable separator) (h : ∀ s ∈ ss, Printable s) :
    Printable (separator.intercalate ss) := by
  induction ss with
  | nil => exact (by decide : Printable "")
  | cons s rest ih =>
    rw [List.forall_mem_cons] at h
    by_cases hrest : rest = []
    · simpa [hrest] using h.1
    · rw [String.intercalate_cons_of_ne_nil hrest]
      exact (h.1.append hseparator).append (ih h.2)

theorem Scalar.printable_name (s : Scalar) : Printable s.name := by
  cases s <;> decide

theorem Numeral.printable_padded {width n b : Nat} (hone : 1 < b) (hb : b ≤ 16) :
    Printable (padded width (Nat.toDigits b n)) :=
  Printable.ofList
    ((AllPrintable.replicate (by decide) _).append (allPrintable_toDigits hone hb n))

theorem Node.printable_text {t : Tables} {node : Node} {inside : List String}
    (h : ∀ s ∈ inside, Printable s) : Printable (node.text t inside) := by
  have hjoined : Printable (",".intercalate inside) := Printable.intercalate (by decide) h
  have hgroup : ∀ {opening closing : String}, Printable opening → Printable closing →
      Printable (opening ++ ",".intercalate inside ++ closing) := fun hopening hclosing =>
    (hopening.append hjoined).append hclosing
  cases node with
  | scalar s => exact s.printable_name
  | handle h => exact h.printable_name
  | union id => exact Printable.append (by decide) (Numeral.printable_nat _)
  | record => exact hgroup (by decide) (by decide)
  | pointer form => exact hgroup (form.printable_sigil.append (by decide)) (by decide)
  | run form =>
    cases form with
    | vec | unboxedVec | slice => exact hgroup (by decide) (by decide)
    | fixedVec count =>
      have hcount : Printable s!"fixedvec<{count.toNat}, " :=
        (Printable.append (by decide) (Numeral.printable_nat _)).append (by decide)
      exact hgroup hcount (by decide)
  | resource id =>
    have hname : Printable ("res@0x" ++ Numeral.hex (t.resources.getD id.toNat 0).toNat) :=
      Printable.append (by decide)
        (Printable.ofList (Numeral.allPrintable_toDigits (by decide) (by decide) _))
    simp only [text]
    split
    · exact hname
    · exact hgroup (hname.append (by decide)) (by decide)

theorem Outline.printable_texts (t : Tables) (o : Outline) :
    ∀ s ∈ o.texts t, Printable s := by
  induction o with
  | done | broken => exact List.forall_mem_nil _
  | cons node inner rest ihi ihr =>
    exact List.forall_mem_cons.2 ⟨Node.printable_text ihi, ihr⟩

namespace Listing

theorem printable_joined (t : Tables) (bs : Bytes) : Printable (joined t bs) :=
  Printable.intercalate (by decide) (Outline.printable_texts t _)

/-- The text that a line takes up is printable. -/
def Line.Printable : Line → Prop
  | .title text | .root text _ | .variant _ _ _ text => ShapeCode.Printable text
  | .blank | .union _ _ _ | .resource _ _ _ => True

theorem printable_lines (d : Descriptor) : ∀ line ∈ d.lines, line.Printable := by
  have hunions : ∀ line ∈ linesOfUnions d.tables, line.Printable :=
    forall_mem_linesOfUnions (fun _ _ _ => trivial) fun _ _ _ => printable_joined d.tables
  have hresources : ∀ line ∈ linesOfResources d.tables, line.Printable :=
    forall_mem_linesOfResources fun _ _ _ => trivial
  refine List.forall_mem_cons.2 ⟨(by decide : Printable "shape"),
    List.forall_mem_cons.2 ⟨printable_joined _ _, ?_⟩⟩
  exact List.forall_mem_append.2
    ⟨forall_mem_titled trivial (by decide : Printable "tags") hunions,
    forall_mem_titled trivial (by decide : Printable "resources") hresources⟩

end Listing

/-! ## Colours -/

/-- No mark of the palette has the character. -/
def Palette.Lacks (c : Palette) (x : Char) : Prop :=
  x ∉ c.kind.toList ∧ x ∉ c.number.toList ∧
    x ∉ c.punctuation.toList ∧ x ∉ c.reset.toList

instance (c : Palette) (x : Char) : Decidable (c.Lacks x) :=
  inferInstanceAs (Decidable (_ ∧ _))

namespace Listing

/-- Two texts that differ by the marks of two palettes only. -/
inductive Painted (c c' : Palette) : String → String → Prop where
  | plain {s : String} (h : ShapeCode.Printable s) : Painted c c' s s
  | kind : Painted c c' c.kind c'.kind
  | number : Painted c c' c.number c'.number
  | punctuation : Painted c c' c.punctuation c'.punctuation
  | reset : Painted c c' c.reset c'.reset
  | append {s s' r r' : String} (h : Painted c c' s s') (hr : Painted c c' r r') :
      Painted c c' (s ++ r) (s' ++ r')

theorem Painted.remark (c c' : Palette) (l : Layout) :
    Painted c c' (remark c l) (remark c' l) := by
  have hlayout : ShapeCode.Printable l.text := Printable.append
    (Printable.append (Printable.append (by decide) (Numeral.printable_nat _)) (by decide))
      (Numeral.printable_nat _)
  exact ((Painted.punctuation.append (.plain (by decide))).append
    (.plain hlayout)).append .reset

theorem printable_label {letter : String} (h : ShapeCode.Printable letter)
    (width index : Nat) :
    ShapeCode.Printable (label letter width index) :=
  h.append (Numeral.printable_padded (by decide) (by decide))

/-- A line shows the same under each palette, but for the marks. -/
theorem Line.painted {line : Line} (h : line.Printable) (c c' : Palette) :
    Painted c c' (line.text c) (line.text c') := by
  cases line with
  | blank => exact Painted.plain (s := "") (by decide)
  | title name =>
    exact (((Painted.kind.append (.plain (by decide))).append (.plain h)).append
      (.plain (by decide))).append .reset
  | root text l =>
    exact (Painted.append (.plain h) (.plain (by decide))).append (.remark c c' l)
  | union width id l =>
    have hlabel := printable_label (by decide : ShapeCode.Printable "T") width id
    exact (((Painted.number.append (.plain hlabel)).append .reset).append
      (.plain (by decide))).append (.remark c c' l)
  | variant width id hinted text =>
    have hlabel := printable_label (by decide : ShapeCode.Printable "V") width id
    have hmark : ShapeCode.Printable (if hinted then "*" else " ") := by
      cases hinted <;> decide
    have hstart : Painted c c' ("  " ++ label "V" width id) ("  " ++ label "V" width id) :=
      .append (.plain (by decide)) (.plain hlabel)
    exact (((((hstart.append .punctuation).append (.plain hmark)).append .reset).append
      (.plain (by decide))).append
      (.plain h)).append (.plain (by decide))
  | resource width id handle =>
    have hlabel := printable_label (by decide : ShapeCode.Printable "R") width id
    have hhandle : ShapeCode.Printable (Numeral.hexPadded 16 handle.toNat) :=
      Numeral.printable_padded (by decide) (by decide)
    exact (((Painted.number.append (.plain hlabel)).append .reset).append
      (.plain (by decide))).append (.plain hhandle)

theorem Painted.not_mem {c c' : Palette} {x : Char} {s s' : String} (h : Painted c c' s s')
    (hx : Quoted.isPrintable x.toNat = false) (hc : c.Lacks x) : x ∉ s.toList := by
  obtain ⟨hkind, hnumber, hpunctuation, hreset⟩ := hc
  induction h with
  | plain h => exact fun hmem => by simp [h _ hmem] at hx
  | kind => exact hkind
  | number => exact hnumber
  | punctuation => exact hpunctuation
  | reset => exact hreset
  | append _ _ ih ihr =>
    rw [String.toList_append, List.mem_append, not_or]
    exact ⟨ih, ihr⟩

/-- Text of lines that have no line feed splits into the lines again. -/
theorem splitOn_unlines {c : Palette} {ls : List Line}
    (h : ∀ line ∈ ls, '\n' ∉ (line.text c).toList) :
    (unlines c ls).toList.splitOn '\n' =
        ls.map (fun line => (line.text c).toList) ++ [[]] := by
  -- Behind the last line feed stands an empty piece.
  have hjoined : (unlines c ls).toList =
      ['\n'].intercalate (ls.map (fun line => (line.text c).toList) ++ [[]]) := by
    clear h
    induction ls with
    | nil => rfl
    | cons line rest ih =>
      rw [List.map_cons, List.cons_append,
        List.intercalate_cons_of_ne_nil (by simp), ← ih]
      simp [unlines, String.toList_append]
  rw [hjoined, List.splitOn_intercalate '\n' ?_ (by simp)]
  rw [List.forall_mem_append, List.forall_mem_map]
  exact ⟨h, by simp⟩

/-- Deletes marks where they stand; of the mark that is being deleted `skip`
characters are left. -/
def deleteAll (marks : List (List Char)) : (skip : Nat) → List Char → List Char
  | _, [] => []
  | skip + 1, _ :: cs => deleteAll marks skip cs
  | 0, c :: cs =>
    match marks.find? (·.isPrefixOf (c :: cs)) with
    | some mark => deleteAll marks (mark.length - 1) cs
    | none => c :: deleteAll marks 0 cs

end Listing

/-- What a palette marks text with. -/
def Palette.marks (c : Palette) : List (List Char) :=
  [c.kind, c.number, c.punctuation, c.reset].map String.toList

namespace Listing

/-- The text without the marks of colours. -/
def uncoloured (s : String) : String :=
  String.ofList (deleteAll Palette.on.marks 0 s.toList)

/-- Deleting the marks of colours in the one text leaves the other, whatever
follows.  No mark runs on from the one text into what follows it, and so this passes
to texts put together. -/
def Fades (s s' : String) : Prop :=
  ∀ rest, deleteAll Palette.on.marks 0 (s.toList ++ rest) =
    s'.toList ++ deleteAll Palette.on.marks 0 rest

theorem marks_on : Palette.on.marks =
    [['\x1b', '[', '3', '4', 'm'], ['\x1b', '[', '3', '2', 'm'], ['\x1b', '[', '2', 'm'],
      ['\x1b', '[', '0', 'm']] := by
  decide

theorem Fades.append {s s' r r' : String} (h : Fades s s') (hr : Fades r r') :
    Fades (s ++ r) (s' ++ r') := by
  intro rest
  rw [String.toList_append, String.toList_append, List.append_assoc,
    h, hr, List.append_assoc]

/-- Every mark starts with the escape character. -/
theorem Fades.refl {s : String} (h : '\x1b' ∉ s.toList) : Fades s s := by
  intro rest
  generalize s.toList = cs at h
  induction cs with
  | nil => rfl
  | cons c cs ih =>
    rw [List.mem_cons, not_or] at h
    rw [List.cons_append, List.cons_append, ← ih h.2]
    simp [deleteAll, marks_on, h.1]

theorem Painted.fades {s s' : String} (h : Painted .on .off s s') : Fades s s' := by
  induction h with
  | plain h => exact .refl fun hmem => absurd (h _ hmem) (by decide)
  | kind | number | punctuation | reset =>
    intro rest
    rw [marks_on]
    rfl
  | append _ _ ih ihr => exact ih.append ihr

theorem unlines_fades {ls : List Line} (h : ∀ line ∈ ls, line.Printable) :
    Fades (unlines .on ls) (unlines .off ls) := by
  induction ls with
  | nil => exact .refl (by decide)
  | cons line rest ih =>
    rw [List.forall_mem_cons] at h
    exact ((Line.painted h.1 _ _).fades.append (.refl (by decide))).append (ih h.2)

theorem uncoloured_of_fades {s s' : String} (h : Fades s s') : uncoloured s = s' := by
  have hwhole := h []
  rw [List.append_nil, deleteAll, List.append_nil] at hwhole
  rw [uncoloured, hwhole, String.ofList_toList]

/-! ## Labels -/

/-- Recursion by tenths is the floor of the logarithm. -/
theorem log10_eq_log (n : Nat) : Numeral.log10 n = Nat.log 10 n := by
  induction n using Numeral.log10.induct with
  | case1 n h => rw [Numeral.log10, if_pos h, Nat.log_of_lt h]
  | case2 n h ih =>
    rw [Numeral.log10, if_neg h, ih,
      Nat.log_of_one_lt_of_le (by decide) (Nat.le_of_not_lt h)]

/-- The width bounds every index below the count. -/
theorem lt_pow_labelWidth {count index : Nat} (h : index < count) :
    index < 10 ^ labelWidth count := by
  unfold labelWidth
  split
  · omega
  · calc index ≤ count - 1 := by omega
      _ < 10 ^ (Nat.log 10 (count - 1) + 1) := Nat.lt_pow_succ_log_self (by decide) _
      _ = 10 ^ (Numeral.log10 (count - 1) + 1) := by rw [log10_eq_log]

theorem labelWidth_pos (count : Nat) : 0 < labelWidth count := by
  unfold labelWidth
  split <;> omega

theorem length_toDigits_le {count index : Nat} (h : index < count) :
    (Nat.toDigits 10 index).length ≤ labelWidth count :=
  (Nat.length_toDigits_le_iff (by decide) (labelWidth_pos count)).2 (lt_pow_labelWidth h)

/-- Labels are equally wide, and read as their indices. -/
theorem label_of_lt (letter : String) {count index : Nat} (h : index < count) :
    (label letter (labelWidth count) index).length = letter.length + labelWidth count ∧
      Nat.ofDigitChars 10
        ((label letter (labelWidth count) index).toList.drop letter.length) 0 = index := by
  have hle := length_toDigits_le h
  constructor
  · rw [label, Numeral.decimalPadded, Numeral.padded, String.length_append,
      String.length_ofList, List.length_append, List.length_replicate]
    omega
  · rw [label, Numeral.decimalPadded, Numeral.padded, String.toList_append,
      String.toList_ofList, ← String.length_toList, List.drop_left,
      Nat.ofDigitChars_append, Nat.ofDigitChars_replicate_zero, Nat.mul_zero,
      Nat.ofDigitChars_toDigits (by decide) (by decide)]

/-- The label of the largest index is not filled up. -/
theorem label_largest (letter : String) (count : Nat) :
    label letter (labelWidth count) (count - 1) = letter ++ toString (count - 1) := by
  rw [label, Numeral.decimalPadded, Numeral.padded, labelWidth_eq, Nat.sub_self]
  rfl

end Listing

namespace Descriptor

variable {d : Descriptor}

/-- The lines of a listing carry what is measured and written of the root, of the unions
and of their variants. -/
structure Carried (d : Descriptor) : Prop where
  rootLayout : Bytes.layout d.tables d.shape = .ok (measured d.tables d.shape)
  rootText : (Outline.ofBytes d.shape).text d.tables = .ok (joined d.tables d.shape)
  unionLayout : ∀ i, i < d.tables.unions.size → (UInt16.ofNat i).toNat = i ∧
    Node.layout d.tables (.union (UInt16.ofNat i)) .done =
      .ok (measured d.tables (Emit.union (UInt16.ofNat i)))
  variantText : ∀ u ∈ d.tables.unions, ∀ fields ∈ u.variants,
    (Outline.ofBytes fields).text d.tables = .ok (joined d.tables fields)

theorem Listable.carried (h : d.Listable) (hv : d.Verified)
    (hn : d.Numbered) : d.Carried where
  rootLayout := by
    obtain ⟨l, hl⟩ := h.root
    rw [measured, hl]
    rfl
  rootText := (Outline.text_eq_ok_iff hv.root).2 ⟨h.rootRuns, rfl⟩
  unionLayout i hi := by
    have hid : (UInt16.ofNat i).toNat = i :=
      UInt16.toNat_ofNat_of_lt (Nat.lt_trans hi hn.unions)
    have hlt : (UInt16.ofNat i).toNat < d.tables.unions.size := by rwa [hid]
    obtain ⟨l, hl⟩ := h.unions _ hlt
    have hsingle := hl
    rw [Bytes.layout, Outline.ofBytes_union] at hsingle
    rw [measured, hl]
    exact ⟨hid,
      ((hv.tables.layout_single_iff (Part.sound hv (.union hlt))).1 hsingle).1⟩
  variantText u hu fields hf :=
    (Outline.text_eq_ok_iff (hv.tables.sound.variant_sound u hu fields hf)).2
      ⟨h.variantRuns u hu fields hf, rfl⟩

/-- A table has a section in the listing if it is not empty. -/
theorem title_mem_lines_iff :
    (.title "tags" ∈ d.lines ↔ d.tables.unions ≠ #[]) ∧
      (.title "resources" ∈ d.lines ↔ d.tables.resources ≠ #[]) := by
  have hunions : ∀ name, ∀ line ∈ linesOfUnions d.tables,
      line ≠ .title name := fun _ =>
    forall_mem_linesOfUnions (fun _ _ _ => nofun) fun _ _ _ _ => nofun
  have hresources : ∀ name, ∀ line ∈ linesOfResources d.tables,
      line ≠ .title name := fun _ =>
    forall_mem_linesOfResources fun _ _ _ => nofun
  simp only [lines, List.mem_cons, List.mem_append, title_mem_titled_iff (hunions _),
    title_mem_titled_iff (hresources _), ne_eq, linesOfUnions_eq_nil_iff,
    linesOfResources_eq_nil_iff]
  simp

/-- The listing of a descriptor that was loaded is the text of its lines, and can be written
unless a layout overflows.  Each line is one line of text, and a table that is empty has
none.  The labels of a table are as wide as that of the largest index, which is not filled
up.  Without the marks of colours a coloured listing is the one without colours. -/
theorem listing_faithful {d : Descriptor} {file : Bytes} (h : ofBytes file = .ok d) :
    (∀ c s, d.listing c = .ok s ↔ d.Listable ∧ s = unlines c d.lines) ∧
    ((∀ o f, d.Part o → o.layout d.tables = .error f → ¬ f.Overflow) →
      d.Listable) ∧
    (d.Listable → d.Carried) ∧
    ((.title "tags" ∈ d.lines ↔ d.tables.unions ≠ #[]) ∧
      (.title "resources" ∈ d.lines ↔ d.tables.resources ≠ #[])) ∧
    (∀ enabled, (unlines (.ofBool enabled) d.lines).toList.splitOn '\n' =
      d.lines.map (fun line => (line.text (.ofBool enabled)).toList) ++ [[]]) ∧
    (∀ letter count index, index < count →
      (label letter (labelWidth count) index).length = letter.length + labelWidth count ∧
        Nat.ofDigitChars 10
          ((label letter (labelWidth count) index).toList.drop letter.length) 0 = index) ∧
    (∀ letter count,
      label letter (labelWidth count) (count - 1) = letter ++ toString (count - 1)) ∧
    ∀ s, d.listing .on = .ok s → d.listing .off = .ok (uncoloured s) := by
  have hv := verified_of_verify (ofBytes_eq_ok_iff.1 h).1
  have hn := numbered_of_ofBytes h
  have hlisting := fun c s => @listing_eq_ok_iff d c s hv hn
  refine ⟨hlisting, fun hroom => ?_, fun hlistable => hlistable.carried hv hn,
    title_mem_lines_iff, fun enabled => ?_,
    fun letter count index => label_of_lt letter, label_largest, fun s hs => ?_⟩
  · rcases (listing_onlyOverflows hv .off).cases
      with ⟨f, -, hover, o, ho, hf⟩ | ⟨s, hs, -⟩
    · exact absurd hover (hroom o f ho hf)
    · exact ((hlisting _ _).1 hs).1
  · refine splitOn_unlines fun line hline => ?_
    have hlacks : (Palette.ofBool enabled).Lacks '\n' := by cases enabled <;> decide
    exact (Line.painted (printable_lines d line hline) _ .off).not_mem (by decide) hlacks
  · obtain ⟨hlistable, rfl⟩ := (hlisting _ _).1 hs
    refine (hlisting _ _).2 ⟨hlistable, ?_⟩
    exact uncoloured_of_fades (unlines_fades (printable_lines d))

/-- A record of a byte and a union of nothing or a number, beside a resource. -/
def listed : Descriptor where
  shape := Kind.record.byte :: 4 :: 0 :: (Emit.scalar .u8 ++ Emit.union 0)
  tables := ⟨#[⟨#[[], Emit.scalar .i64], [1]⟩], #[0x1000]⟩

/-- The text of the lines, and the coloured text without its marks. -/
theorem listing_faithful_listed :
    ∃ file, listed.toBytes = .ok file ∧ ofBytes file = .ok listed ∧
    unlines .off listed.lines =
      "[shape]\n(u8,tag0)  ; size=24 align=8\n" ++
      "\n[tags]\nT0  ; size=16 align=8\n  V0   ()\n  V1*  (i64)\n" ++
      "\n[resources]\nR0  0x0000000000001000\n" ∧
    unlines .off listed.lines = uncoloured (
      "\x1b[34m[shape]\x1b[0m\n(u8,tag0)  \x1b[2m; size=24 align=8\x1b[0m\n" ++
      "\n\x1b[34m[tags]\x1b[0m\n\x1b[32mT0\x1b[0m  \x1b[2m; size=16 align=8\x1b[0m\n" ++
      "  V0\x1b[2m \x1b[0m  ()\n  V1\x1b[2m*\x1b[0m  (i64)\n" ++
      "\n\x1b[34m[resources]\x1b[0m\n\x1b[32mR0\x1b[0m  0x0000000000001000\n") := by
  have hfile : ∃ file, listed.toBytes = .ok file ∧ ofBytes file = .ok listed := by
    refine ⟨_, rfl, ?_⟩
    decide +kernel
  obtain ⟨file, hwrite, hload⟩ := hfile
  obtain ⟨hlisting, -, -, -, -, -, -, huncoloured⟩ := listing_faithful hload
  refine ⟨file, hwrite, hload, ?_, ?_⟩
  · refine ((hlisting .off _).1 ?_).2.symm
    decide +kernel
  · refine ((hlisting .off _).1 (huncoloured _ ?_)).2.symm
    decide +kernel

end Descriptor

end ShapeCode
