import ShapeCode.Emit
import ShapeCode.Proofs.Visits
import ShapeCode.Severity
import ShapeCode.Value.Text

set_option autoImplicit false

/-!
# Value text is one line of printable ASCII

Whatever the bytes of a value are, they reach its text as digits, as names, or quoted, and a
character or byte that is not printable ASCII is quoted as an escape.  A walk adds nothing
else: what entering and leaving nodes keeps, a walk keeps (`Visitor.Keeps`), through every
variant it is led to.  So no value, well formed or not, can end the line it is written in.
-/

namespace ShapeCode

open Quoted (isPrintable)

/-! ## Printable text -/

/-- Every character is printable ASCII. -/
def AllPrintable (cs : List Char) : Prop := ∀ c ∈ cs, isPrintable c.toNat = true

namespace AllPrintable

variable {cs ds : List Char}

instance (cs : List Char) : Decidable (AllPrintable cs) :=
  decidable_of_iff (cs.all (isPrintable ·.toNat) = true) List.all_eq_true

theorem cons {c : Char} (hc : isPrintable c.toNat = true) (hcs : AllPrintable cs) :
    AllPrintable (c :: cs) :=
  List.forall_mem_cons.2 ⟨hc, hcs⟩

theorem append (hcs : AllPrintable cs) (hds : AllPrintable ds) : AllPrintable (cs ++ ds) :=
  List.forall_mem_append.2 ⟨hcs, hds⟩

theorem replicate {c : Char} (hc : isPrintable c.toNat = true) (n : Nat) :
    AllPrintable (List.replicate n c) :=
  fun _ hmem => List.eq_of_mem_replicate hmem ▸ hc

theorem of_subset (hcs : AllPrintable cs) (h : ds ⊆ cs) : AllPrintable ds :=
  fun c hc => hcs c (h hc)

end AllPrintable

/-- A text of printable ASCII. -/
def Printable (s : String) : Prop := AllPrintable s.toList

namespace Printable

instance (s : String) : Decidable (Printable s) :=
  inferInstanceAs (Decidable (AllPrintable s.toList))

theorem ofList {cs : List Char} (h : AllPrintable cs) : Printable (String.ofList cs) := by
  rwa [Printable, String.toList_ofList]

theorem append {s t : String} (hs : Printable s) (ht : Printable t) :
    Printable (s ++ t) := by
  rw [Printable, String.toList_append]
  exact AllPrintable.append hs ht

end Printable

/-! ## Digits -/

namespace Numeral

theorem allPrintable_toDigits {b : Nat} (hone : 1 < b) (hb : b ≤ 16) (n : Nat) :
    AllPrintable (Nat.toDigits b n) := by
  have hdigit : ∀ d < 16, AllPrintable [Nat.digitChar d] := by decide
  induction n using Nat.strong_induction_on with
  | _ n ih =>
    by_cases hlt : n < b
    · rw [Nat.toDigits_of_lt_base hlt]
      exact hdigit n (by omega)
    · have hlast : n % b < b := Nat.mod_lt n (by omega)
      rw [Nat.toDigits_of_base_le hone (by omega)]
      exact (ih _ (Nat.div_lt_self (by omega) hone)).append (hdigit _ (by omega))

theorem printable_nat (n : Nat) : Printable (toString n) :=
  Printable.ofList (allPrintable_toDigits (by omega) (by omega) n)

theorem printable_int (n : Int) : Printable (toString n) := by
  cases n with
  | ofNat n => exact printable_nat n
  | negSucc n => exact Printable.append (s := "-") (by decide) (printable_nat (n + 1))

end Numeral

namespace FloatText

theorem dropTrailingZeros_subset (ds : List Char) : dropTrailingZeros ds ⊆ ds := by
  intro c hc
  rw [dropTrailingZeros, List.mem_reverse] at hc
  exact List.mem_reverse.1 ((List.dropWhile_suffix _).subset hc)

/-- Filling up with zeros and dropping zeros only takes digits and adds a point. -/
theorem allPrintable_withPoint {ds : List Char} (h : AllPrintable ds) (places : Nat) :
    AllPrintable (withPoint ds places) := by
  have hfilled :=
    (AllPrintable.replicate (c := '0') (by decide) (places + 1 - ds.length)).append h
  unfold withPoint
  generalize List.replicate (places + 1 - ds.length) '0' ++ ds = filled at hfilled
  have hwhole := hfilled.of_subset (List.take_subset (filled.length - places) filled)
  have hpart :=
    (hfilled.of_subset (List.drop_subset (filled.length - places) filled)).of_subset
      (dropTrailingZeros_subset _)
  simp only
  split
  · exact hwhole
  · exact hwhole.append (hpart.cons (by decide))

theorem allPrintable_finite (mantissa : Nat) (exponent : Int) (narrow : Bool) :
    AllPrintable (finite mantissa exponent narrow) := by
  have hdigits := fun n => Numeral.allPrintable_toDigits (b := 10) (by omega) (by omega) n
  unfold finite positional
  split
  · decide
  · simp only
    split
    · exact (hdigits _).append (AllPrintable.replicate (by decide) _)
    · exact allPrintable_withPoint (hdigits _) _

theorem printable_ofBits (f : FloatFormat) (bits : Nat) : Printable (ofBits f bits) := by
  unfold ofBits
  split
  · decide
  · split <;> decide
  · rename_i negative mantissa exponent narrow _
    have hsign : AllPrintable (if negative then ['-'] else []) := by
      cases negative <;> decide
    exact Printable.ofList (hsign.append (allPrintable_finite mantissa exponent narrow))

end FloatText

/-! ## Quoted text -/

namespace Quoted

theorem allPrintable_ofNat {code : Nat} (h : isPrintable code = true) :
    AllPrintable [Char.ofNat code] := by
  have hall : ∀ code < 128, isPrintable code = true →
      AllPrintable [Char.ofNat code] := by
    decide
  refine hall code ?_ h
  simp only [isPrintable, Bool.and_eq_true, decide_eq_true_eq] at h
  omega

/-- What encloses quoted text is printable. -/
theorem printable_enclosed {c : Char} {body : List Char} (hc : isPrintable c.toNat = true)
    (h : AllPrintable body) :
    Printable (String.ofList (c :: (body ++ [c]))) :=
  Printable.ofList ((h.append (AllPrintable.cons hc (by decide))).cons hc)

/-- A code is quoted in printable characters, whether or not it is one of a character. -/
theorem printable_char (code : Nat) : Printable (char code) := by
  refine printable_enclosed (by decide) ?_
  unfold charBody
  split_ifs with htab hline hreturn hquote hprintable
  · decide
  · decide
  · decide
  · rcases hquote with rfl | rfl | rfl <;> decide
  · exact allPrintable_ofNat hprintable
  · have hdigits := Numeral.allPrintable_toDigits (b := 16) (by omega) (by omega) code
    exact (AllPrintable.append (by decide) hdigits).append (by decide)

theorem allPrintable_byteBody (b : UInt8) : AllPrintable (byteBody b) := by
  have hdigits : ∀ high < 16, ∀ low < 16,
      AllPrintable ['\\', 'x', hexDigit high, hexDigit low] := by
    decide
  unfold byteBody
  split_ifs with hline hreturn htab hquote hprintable
  · decide
  · decide
  · decide
  · rcases hquote with rfl | rfl <;> decide
  · exact allPrintable_ofNat hprintable
  · have hlt := b.toNat_lt
    exact hdigits _ (by omega) _ (by omega)

theorem printable_bytes (bs : Bytes) : Printable (bytes bs) :=
  printable_enclosed (by decide) (List.forall_mem_flatMap.2 fun b _ =>
    allPrintable_byteBody b)

end Quoted

/-! ## Pieces -/

theorem Scalar.printable_text (s : Scalar) (n : Nat) : Printable (s.text n) := by
  cases s with
  | unit => exact (by decide : Printable "()")
  | bool =>
    change Printable (if n = 0 then "false" else "true")
    split <;> decide
  | char => exact Quoted.printable_char n
  | u8 | u16 | u32 | u64 => exact Numeral.printable_nat n
  | i8 | i16 | i32 | i64 => exact Numeral.printable_int _
  | f32 | f64 => exact FloatText.printable_ofBits _ n

theorem Handle.printable_name (h : Handle) : Printable h.name := by
  cases h with
  | callable c => exact (by decide : Printable "fn")
  | _ => decide

theorem PointerForm.printable_sigil (form : PointerForm) : Printable form.sigil := by
  cases form <;> decide

/-! ## Walks -/

/-- What entering and leaving nodes keeps of the state. -/
structure Visitor.Keeps {σ : Type} (v : Visitor σ) (p : σ → Prop) : Prop where
  enter : ∀ node c content st, p st → p (v.enter node c content st).1
  leave : ∀ node content st, p st → p (v.leave node content st)

namespace Walk

variable {σ : Type} {s : Scene} {v : Visitor σ} {p : σ → Prop}

/-- A part of a walk that, started in a state with a property, ends in one, if it ends. -/
def Keeps (p : σ → Prop) (walk : σ → Outcome σ) : Prop :=
  ∀ st st', p st → walk st = .ok st' → p st'

theorem keeps_elements {span : Span} {one : Cursor → σ → Outcome σ}
    (hone : ∀ c, Keeps p (one c)) (bound : Nat) (c : Cursor) :
    Keeps p (elements v span one bound c) := by
  induction bound generalizing c with
  | zero =>
    intro st st' hst h
    exact Except.ok.inj h ▸ hst
  | succ bound ih =>
    intro st st' hst h
    rw [elements] at h
    split at h
    · split at h
      · cases h
      · rename_i st₁ hvisit
        exact ih _ st₁ st' (hone c st st₁ hst hvisit) h
    · exact Except.ok.inj h ▸ hst

section Inside

variable {variant : UInt16 → Nat → Cursor → σ → Outcome σ}
  {one fields : Cursor → σ → Outcome σ}
  (hvariant : ∀ id selected c, Keeps p (variant id selected c))
    (hone : ∀ c, Keeps p (one c))
  (hfields : ∀ c, Keeps p (fields c))

include hvariant hone hfields

theorem keeps_inside (node : Node) (inner : Outline) (content : Content) (c : Cursor) :
    Keeps p (inside s v variant one fields node inner content c) := by
  intro st st' hst h
  unfold inside at h
  split at h
  · exact hfields c st st' hst h
  · exact hfields c st st' hst h
  · exact hvariant _ _ c st st' hst h
  · exact keeps_elements hone _ _ st st' hst h
  · split at h
    · cases h
    · exact hone _ st st' hst h
  · exact Except.ok.inj h ▸ hst

theorem keeps_visit (hv : v.Keeps p) (node : Node) (inner : Outline) (c : Cursor) :
    Keeps p (visit s v variant one fields node inner c) := by
  intro st st' hst h
  unfold visit at h
  split at h
  · split at h
    · cases h
    · rename_i content _
      have henter := hv.enter node c content st hst
      split at h
      · rename_i st₁ hstop
        rw [hstop] at henter
        exact Except.ok.inj h ▸ henter
      · rename_i st₁ hgo
        rw [hgo] at henter
        split at h
        · cases h
        · rename_i st₂ hinside
          exact Except.ok.inj h ▸ hv.leave node content st₂
            (keeps_inside hvariant hone hfields node inner content c
              st₁ st₂ henter hinside)
  · exact Except.ok.inj h ▸ hst

end Inside

theorem keeps_range (hv : v.Keeps p)
    {variant : UInt16 → Nat → Cursor → σ → Outcome σ}
    (hvariant : ∀ id selected c, Keeps p (variant id selected c)) (o : Outline)
    (single : Bool) (c : Cursor) (aligned : Bool) :
    Keeps p fun st => (range s v variant single o c aligned st).map Prod.fst := by
  induction o generalizing single c aligned with
  | done =>
    intro st st' hst h
    cases single with
    | true => cases h
    | false => exact Except.ok.inj h ▸ hst
  | broken f => intro st st' hst h; cases h
  | cons node inner rest ihi ihr =>
    intro st st' hst h
    simp only [range] at h
    split at h
    · cases h
    · split at h
      · cases h
      · rename_i c' _
        split at h
        · cases h
        · rename_i st₁ hvisit
          have hst₁ :=
            keeps_visit hvariant (fun c => ihi true c false)
              (fun c => ihi false c false) hv node inner c' st st₁ hst hvisit
          cases single with
          | true => exact Except.ok.inj h ▸ hst₁
          | false => exact ihr false _ true st₁ st' hst₁ h

theorem keeps_variant (hv : v.Keeps p) (depth : Nat) (id : UInt16) (selected : Nat)
    (c : Cursor) :
    Keeps p (variant s v depth id selected c) := by
  induction depth generalizing id selected c with
  | zero => intro st st' hst h; cases h
  | succ depth ih =>
    intro st st' hst h
    simp only [variant] at h
    split at h
    · cases h
    · split at h
      · cases h
      · exact keeps_range hv ih _ false _ _ st st' hst h

/-- What entering and leaving nodes keeps, a walk keeps, over whatever tables and memory. -/
theorem keeps_run (hv : v.Keeps p) (depth : Nat) (o : Outline) (c : Cursor) :
    Keeps p (run s v depth o c) :=
  keeps_range hv (keeps_variant hv depth) o false c false

end Walk

/-! ## Values -/

namespace Phrase

variable {separator s : String} {p : Phrase}

theorem printable_start (hseparator : Printable separator) (hs : Printable s)
    (hp : Printable p.text) :
    Printable (p.start separator s).text := by
  unfold start
  split
  · exact (hp.append hseparator).append hs
  · exact hp.append hs

theorem printable_finish (hs : Printable s) (hp : Printable p.text) :
    Printable (p.finish s).text :=
  hp.append hs

end Phrase

namespace ValueText

theorem printable_separator : Printable separator := by decide

theorem printable_leaf {s : String} {p : Phrase} (hs : Printable s)
    (hp : Printable p.text) : Printable (leaf s p).1.text :=
  Phrase.printable_finish (by decide) (Phrase.printable_start printable_separator hs hp)

theorem printable_opening {s : String} {p : Phrase} (hs : Printable s)
    (hp : Printable p.text) : Printable (opening s p).1.text :=
  Phrase.printable_start printable_separator hs hp

/-- What is written at a node is printable. -/
theorem keeps_printable (m : Memory) : (visitor m).Keeps fun p => Printable p.text where
  enter node c content p hp := by
    change Printable (enter m node c content p).1.text
    unfold enter
    split
    · exact printable_leaf (Scalar.printable_text _ _) hp
    · exact printable_leaf (Handle.printable_name _) hp
    · exact printable_opening (by decide) hp
    · split
      · exact printable_leaf (by decide) hp
      · exact printable_opening (by decide) hp
    · split
      · exact printable_leaf (by decide) hp
      · exact printable_opening (by decide) hp
    · split
      · exact printable_leaf (Quoted.printable_bytes _) hp
      · exact printable_opening (by decide) hp
    · split
      · exact printable_leaf ((PointerForm.printable_sigil _).append (by decide)) hp
      · exact printable_opening (PointerForm.printable_sigil _) hp
    · exact hp
  leave node content p hp := by
    cases node with
    | record | resource | union | run => exact Phrase.printable_finish (by decide) hp
    | scalar | handle | pointer => exact hp

end ValueText

theorem Scene.printable_render {s : Scene} {depth : Nat} {o : Outline} {address : Nat}
    {text : String} (h : s.render depth o address = .ok text) : Printable text := by
  unfold render at h
  cases hrun : Walk.run s (ValueText.visitor s.mem) depth o [address] .empty with
  | error halt =>
    rw [hrun] at h
    cases h
  | ok p =>
    rw [hrun] at h
    exact Except.ok.inj h ▸ Walk.keeps_run (ValueText.keeps_printable s.mem)
      depth o [address] .empty p
      (by decide) hrun

theorem Severity.printable_line (l : Severity) {text : String} (h : Printable text) :
    Printable (l.line text) := by
  have hword : Printable ("[" ++ l.word ++ "] ") := by cases l <;> decide
  exact hword.append h

namespace Descriptor

/-- The text of a value is printable ASCII, one line of it, whatever the descriptor,
whether or not it was accepted, and whatever memory holds; so the line of a log that
carries it is one line. -/
theorem render_printable (d : Descriptor) (m : Memory) (p depth : Nat) {text : String}
    (h : Scene.render ⟨d.tables, m⟩ depth (Outline.ofBytes d.shape) p = .ok text) :
    (∀ c ∈ text.toList, 0x20 ≤ c.toNat ∧ c.toNat ≤ 0x7e) ∧
    ('\n' ∉ text.toList ∧ '\r' ∉ text.toList) ∧
    ∀ l : Severity, ∀ c ∈ (l.line text).toList,
      0x20 ≤ c.toNat ∧ c.toNat ≤ 0x7e := by
  have hbounds : ∀ {s : String}, Printable s →
      ∀ c ∈ s.toList, 0x20 ≤ c.toNat ∧ c.toNat ≤ 0x7e := by
    intro s hs c hc
    simpa [isPrintable] using hs c hc
  have htext := Scene.printable_render h
  refine ⟨hbounds htext, ⟨fun hc => ?_, fun hc => ?_⟩,
    fun l => hbounds (l.printable_line htext)⟩
  · exact absurd (hbounds htext _ hc) (by decide)
  · exact absurd (hbounds htext _ hc) (by decide)

/-- Two characters, two floating-point numbers, a signed number and a slice of bytes. -/
def dangerous : Descriptor where
  shape := Kind.record.byte :: 11 :: 0 ::
    (Emit.scalar .char ++ Emit.scalar .char ++ Emit.scalar .f32 ++
    Emit.scalar .f64 ++ Emit.scalar .i8 ++
      Kind.slice.byte :: 1 :: 0 :: 1 :: 0 :: Emit.scalar .u8)
  tables := ⟨#[], #[]⟩

/-- A line feed, a code of no character, and bytes that would recolour a terminal. -/
def dangerousMemory : Memory :=
  Memory.zero.write 0 #[10, 0, 0, 0, 0, 0xd8, 0, 0, 0, 0, 0x80, 0xff, 0, 0, 0, 0, 0,
    0, 0, 0, 0, 0, 0xb0, 0xbf,
    200, 0, 0, 0, 0, 0, 0, 0, 48, 0, 0, 0, 0, 0, 0, 0, 5, 0, 0, 0, 0, 0,
    0, 0, 27, 91, 51, 49, 109]

theorem render_printable_dangerous :
    Scene.render ⟨dangerous.tables, dangerousMemory⟩ 0
        (Outline.ofBytes dangerous.shape) 0 =
      .ok "('\\n', '\\u\x7bd800\x7d', -inf, -0.0625, -56, \"\\x1b[31m\")" ∧
    '\n' ∉ "('\\n', '\\u\x7bd800\x7d', -inf, -0.0625, -56, \"\\x1b[31m\")".toList := by
  have hrender : Scene.render ⟨dangerous.tables, dangerousMemory⟩ 0
      (Outline.ofBytes dangerous.shape) 0 =
      .ok "('\\n', '\\u\x7bd800\x7d', -inf, -0.0625, -56, \"\\x1b[31m\")" :=
        by decide +kernel
  obtain ⟨-, ⟨hline, -⟩, -⟩ :=
    render_printable dangerous dangerousMemory 0 0 hrender
  exact ⟨hrender, hline⟩

end Descriptor

end ShapeCode
