import ShapeCode.Quoted
import Mathlib.Data.Nat.Digits.Defs

set_option autoImplicit false

/-!
# Quoted text is read back

The quote that ends a byte string is the first one that no escape takes
(`Quoted.close?_eq_some_iff`), whatever text follows it, and what stands before it is
read escape by escape.  A character is quoted differently from every other code, those
of no character included, as its code is read back from the digits or the character
between the quotes.
-/

namespace ShapeCode.Quoted

/-! ## Digits -/

/-- The number below sixteen that a character is the digit of. -/
def digit? (c : Char) : Option Nat := (List.range 16).find? (Nat.digitChar · == c)

/-- The number of digits in base sixteen. -/
def number? (digits : List Char) : Option Nat :=
  digits.foldlM (fun n c => (digit? c).map (16 * n + ·)) 0

theorem digit?_digitChar : ∀ n < 16, digit? (Nat.digitChar n) = some n := by decide

theorem number?_concat {digits : List Char} {n m : Nat} (hn : number? digits = some n)
    (hm : m < 16) :
    number? (digits ++ [Nat.digitChar m]) = some (16 * n + m) := by
  unfold number? at hn ⊢
  simp [List.foldlM_append, hn, digit?_digitChar m hm]

theorem number?_hexDigits (n : Nat) : number? (Numeral.hexDigits n) = some n := by
  unfold Numeral.hexDigits
  induction n using Nat.strong_induction_on with
  | _ n ih =>
    by_cases hlt : n < 16
    · rw [Nat.toDigits_of_lt_base hlt]
      have hnone : number? [] = some 0 := rfl
      simpa using number?_concat hnone hlt
    · rw [Nat.toDigits_of_base_le (by omega) (by omega),
        number?_concat (ih _ (Nat.div_lt_self (by omega) (by omega)))
          (Nat.mod_lt n (by omega)),
        Nat.div_add_mod]

/-! ## The quote that ends a text -/

/-- Text in which every quote is taken by an escape, and every escape is complete. -/
inductive Escaped : List Char → Prop where
  | nil : Escaped []
  | plain {c : Char} {text : List Char} (hquote : c ≠ '"') (hescape : c ≠ '\\')
      (h : Escaped text) : Escaped (c :: text)
  | escape {c : Char} {text : List Char} (h : Escaped text) : Escaped ('\\' :: c :: text)

/-- What stands before and after the first quote that no escape takes. -/
def close? : List Char → Option (List Char × List Char)
  | [] => none
  | '"' :: rest => some ([], rest)
  | ['\\'] => none
  | '\\' :: c :: rest => (close? rest).map fun (body, tail) => ('\\' :: c :: body, tail)
  | c :: rest => (close? rest).map fun (body, tail) => (c :: body, tail)

variable {text body rest : List Char}

theorem close?_append (h : Escaped body) (rest : List Char) :
    close? (body ++ '"' :: rest) = some (body, rest) := by
  induction h with
  | nil => rfl
  | plain hquote hescape _ ih => simp [close?, hescape, ih]
  | escape _ ih => simp [close?, ih]

theorem close?_eq_some_iff :
    close? text = some (body, rest) ↔ Escaped body ∧ text = body ++ '"' :: rest := by
  refine ⟨fun h => ?_, fun ⟨h, htext⟩ => htext ▸ close?_append h rest⟩
  fun_induction close? text generalizing body with
  | case1 | case3 => cases h
  | case2 tail =>
    cases h
    exact ⟨.nil, rfl⟩
  | case4 c tail ih =>
    obtain ⟨⟨body', rest'⟩, hclose, heq⟩ := Option.map_eq_some_iff.1 h
    cases heq
    obtain ⟨hbody, rfl⟩ := ih hclose
    exact ⟨.escape hbody, rfl⟩
  | case5 c tail hquote hlast hescape ih =>
    obtain ⟨⟨body', rest'⟩, hclose, heq⟩ := Option.map_eq_some_iff.1 h
    cases heq
    obtain ⟨hbody, rfl⟩ := ih hclose
    refine ⟨.plain hquote ?_ hbody, rfl⟩
    -- A backslash is alone or takes a character.
    rintro rfl
    rcases hrest : body' ++ '"' :: rest with _ | ⟨d, tail⟩
    · exact hlast rfl hrest
    · exact hescape d tail rfl hrest

/-! ## Byte strings -/

/-- The character an escape of two characters stands for. -/
def escaped : Char → Char
  | 'n' => '\n'
  | 'r' => '\r'
  | 't' => '\t'
  | c => c

/-- The bytes that text between the quotes stands for. -/
def unescape : List Char → Option Bytes
  | [] => some []
  | ['\\'] => none
  | '\\' :: 'x' :: high :: low :: rest => do
    let h ← digit? high
    let l ← digit? low
    (unescape rest).map (UInt8.ofNat (16 * h + l) :: ·)
  | '\\' :: c :: rest => (unescape rest).map (UInt8.ofNat (escaped c).toNat :: ·)
  | c :: rest => (unescape rest).map (UInt8.ofNat c.toNat :: ·)

/-- The byte string that text starts with, and what follows it. -/
def readBytes? (text : String) : Option (Bytes × String) :=
  match text.toList with
  | '"' :: quoted => do
    let (body, rest) ← close? quoted
    (unescape body).map (·, String.ofList rest)
  | _ => none

/-- A printable character that needs no escape is read as it is. -/
theorem ofNat_of_plain {code : Nat} (hprintable : isPrintable code = true)
    (hquote : ¬ (code = 0x22 ∨ code = 0x5c)) :
    Char.ofNat code ≠ '"' ∧ Char.ofNat code ≠ '\\' ∧
      (Char.ofNat code).toNat = code := by
  have hall : ∀ code < 128, isPrintable code = true →
      ¬ (code = 0x22 ∨ code = 0x5c) →
      Char.ofNat code ≠ '"' ∧ Char.ofNat code ≠ '\\' ∧
      (Char.ofNat code).toNat = code := by decide
  refine hall code ?_ hprintable hquote
  simp only [isPrintable, Bool.and_eq_true, decide_eq_true_eq] at hprintable
  omega

/-- So is a byte that needs no escape. -/
theorem ofNat_of_plain_byte {b : UInt8} (hprintable : isPrintable b.toNat = true)
    (hquote : ¬ (b = 0x22 ∨ b = 0x5c)) :
    Char.ofNat b.toNat ≠ '"' ∧ Char.ofNat b.toNat ≠ '\\' ∧
      (Char.ofNat b.toNat).toNat = b.toNat :=
  ofNat_of_plain hprintable fun h => hquote (h.imp UInt8.toNat_inj.1 UInt8.toNat_inj.1)

theorem escaped_byteBody (b : UInt8) (h : Escaped text) : Escaped (byteBody b ++ text) := by
  have hdigit : ∀ d < 16, hexDigit d ≠ '"' ∧ hexDigit d ≠ '\\' := by decide
  have hb := b.toNat_lt
  obtain ⟨hhighQuote, hhighEscape⟩ := hdigit (b.toNat / 16) (by omega)
  obtain ⟨hlowQuote, hlowEscape⟩ := hdigit (b.toNat % 16) (by omega)
  unfold byteBody
  split_ifs with hline hreturn htab hquote hprintable
  · exact .escape h
  · exact .escape h
  · exact .escape h
  · exact .escape h
  · obtain ⟨hne, hescape, -⟩ := ofNat_of_plain_byte hprintable hquote
    exact .plain hne hescape h
  · exact .escape (.plain hhighQuote hhighEscape (.plain hlowQuote hlowEscape h))

theorem unescape_byteBody (b : UInt8) (rest : List Char) :
    unescape (byteBody b ++ rest) = (unescape rest).map (b :: ·) := by
  have hb := b.toNat_lt
  unfold byteBody
  split_ifs with hline hreturn htab hquote hprintable
  · subst hline
    simp [unescape, escaped]
  · subst hreturn
    simp [unescape, escaped]
  · subst htab
    simp [unescape, escaped]
  · rcases hquote with rfl | rfl <;> simp [unescape, escaped]
  · obtain ⟨-, hescape, hcode⟩ := ofNat_of_plain_byte hprintable hquote
    simp [unescape, hescape, hcode]
  · have hhigh := digit?_digitChar (b.toNat / 16) (by omega)
    have hlow := digit?_digitChar (b.toNat % 16) (by omega)
    simp only [unescape, hexDigit, List.cons_append, List.nil_append, hhigh, hlow,
      Option.bind_eq_bind, Option.bind_some, Nat.div_add_mod, UInt8.ofNat_toNat]

theorem escaped_bytes (bs : Bytes) : Escaped (bs.flatMap byteBody) := by
  induction bs with
  | nil => exact .nil
  | cons b bs ih => exact escaped_byteBody b ih

theorem unescape_bytes (bs : Bytes) : unescape (bs.flatMap byteBody) = some bs := by
  induction bs with
  | nil => rfl
  | cons b bs ih =>
    rw [List.flatMap_cons, unescape_byteBody, ih]
    rfl

theorem readBytes?_append (bs : Bytes) (rest : String) :
    readBytes? (bytes bs ++ rest) = some (bs, rest) := by
  have htext :
      (bytes bs ++ rest).toList = '"' :: (bs.flatMap byteBody ++ '"' :: rest.toList) := by
    simp [bytes, String.toList_append]
  simp only [readBytes?, htext, close?_append (escaped_bytes bs), Option.bind_eq_bind,
    Option.bind_some, unescape_bytes, Option.map_some, String.ofList_toList]

/-! ## Characters -/

/-- The code that text between single quotes stands for. -/
def code? : List Char → Option Nat
  | [c] => some c.toNat
  | ['\\', c] => some (escaped c).toNat
  | '\\' :: 'u' :: '{' :: digits => number? digits.dropLast
  | _ => none

/-- The code that a character in single quotes stands for. -/
def readChar? (text : String) : Option Nat :=
  match text.toList with
  | '\'' :: quoted => code? quoted.dropLast
  | _ => none

theorem code?_charBody (code : Nat) : code? (charBody code) = some code := by
  unfold charBody
  split_ifs with htab hline hreturn hquote hprintable
  · subst htab
    rfl
  · subst hline
    rfl
  · subst hreturn
    rfl
  · rcases hquote with rfl | rfl | rfl <;> rfl
  · obtain ⟨-, -, hcode⟩ := ofNat_of_plain hprintable (by omega)
    rw [code?, hcode]
  · simp only [List.cons_append, List.nil_append, code?,
      List.dropLast_concat, number?_hexDigits]

theorem readChar?_char (code : Nat) : readChar? (char code) = some code := by
  simp [readChar?, char, code?_charBody]

/-- Codes are quoted alike only when they are one code. -/
theorem char_inj {m n : Nat} : char m = char n ↔ m = n := by
  refine ⟨fun h => ?_, congrArg char⟩
  have hread := readChar?_char m
  rw [h, readChar?_char n] at hread
  exact (Option.some.inj hread).symm

/-- No text that follows a quoted byte string keeps it from being read back, and the
quote it ends with is the first that no escape takes.  No two codes are quoted alike, be
they those of characters or not. -/
theorem quoting_recoverable :
    (∀ (bs : Bytes) (rest : String), readBytes? (bytes bs ++ rest) = some (bs, rest)) ∧
    (∀ text body rest : List Char, close? text = some (body, rest) ↔
      Escaped body ∧ text = body ++ '"' :: rest) ∧
    ∀ c d : UInt32, char c.toNat = char d.toNat ↔ c = d :=
  ⟨readBytes?_append, fun _ _ _ => close?_eq_some_iff,
    fun _ _ => char_inj.trans UInt32.toNat_inj⟩

/-- Bytes that look like an escape, an escaped one, and a quote that belongs
to what follows. -/
example :
    readBytes? "\"\\\\x41\\x00\"\"" = some ([0x5c, 0x78, 0x34, 0x31, 0x00], "\"") := by
  decide +kernel

end ShapeCode.Quoted
