import ShapeCode.Proofs.ImageText

set_option autoImplicit false

/-!
# Which texts spell an image

What a text has to be is said of its characters: without white space and without one mark in
front it is pairs of hexadecimal digits of either case (`Image.Spells`).  It is decoded byte
by byte.  A digit is one byte, and no other character starts with a byte that is a digit, so
that both come to the same (`Image.decode_digits_iff`).  Of any other text an odd number of
bytes is refused, or else the first byte that is no digit (`Hex.Refuses`).
-/

namespace ShapeCode

namespace Hex

/-! ## Digits -/

/-- The character is the digit of a number below sixteen, of either case. -/
def Digit (c : Char) (n : Nat) : Prop :=
  n < 16 ∧ (c = Nat.digitChar n ∨ c = (Nat.digitChar n).toUpper)

instance (c : Char) (n : Nat) : Decidable (Digit c n) :=
  inferInstanceAs (Decidable (_ ∧ _))

/-- The characters are two digits for each of the bytes, the higher one first. -/
inductive Spells : List Char → Bytes → Prop where
  | nil : Spells [] []
  | cons {high low : Char} {h l : Nat} {cs : List Char} {bs : Bytes} (hhigh : Digit high h)
      (hlow : Digit low l) (hrest : Spells cs bs) :
      Spells (high :: low :: cs) (UInt8.ofNat (16 * h + l) :: bs)

/-- Why bytes of text are refused: there is an odd number of them, or one of them is the
first that is no digit. -/
inductive Refuses (text : Bytes) : HexError → Prop where
  | oddLength (h : text.length % 2 = 1) : Refuses text .oddLength
  | badDigit {front rest : Bytes} {b : UInt8} (h : text.length % 2 = 0)
      (htext : text = front ++ b :: rest)
      (hfront : ∀ a ∈ front, ∃ n, Digit (Char.ofUInt8 a) n)
      (hb : ∀ n, ¬ Digit (Char.ofUInt8 b) n) : Refuses text (.badDigit b front.length)

variable {a b : UInt8} {c d : Char} {n : Nat} {cs : List Char} {text bs : Bytes}

theorem Digit.toNat_lt (h : Digit c n) : c.toNat < 128 := by
  have hall : ∀ n < 16, (Nat.digitChar n).toNat < 128 ∧
      (Nat.digitChar n).toUpper.toNat < 128 := by
    decide
  obtain ⟨hn, rfl | rfl⟩ := h
  · exact (hall n hn).1
  · exact (hall n hn).2

theorem toNat_ofUInt8 (b : UInt8) : (Char.ofUInt8 b).toNat = b.toNat :=
  UInt8.toNat_toUInt32 b

theorem lt_of_digitValue? (h : digitValue? b = some n) : n < 16 := by
  unfold digitValue? at h
  simp only at h
  grind

theorem digitValue?_eq_some_iff : digitValue? b = some n ↔ Digit (Char.ofUInt8 b) n := by
  have hall : ∀ b < 256, ∀ n < 16,
      (digitValue? (UInt8.ofNat b) = some n ↔ Digit (Char.ofUInt8 (UInt8.ofNat b)) n) :=
        by decide +kernel
  by_cases hn : n < 16
  · have hb := hall b.toNat b.toNat_lt n hn
    rwa [UInt8.ofNat_toNat] at hb
  · exact iff_of_false (fun h => hn (lt_of_digitValue? h)) fun h => hn h.1

theorem digitValue?_eq_none_iff :
    digitValue? b = none ↔ ∀ n, ¬ Digit (Char.ofUInt8 b) n := by
  simp only [← digitValue?_eq_some_iff]
  exact Option.eq_none_iff_forall_ne_some

/-! ## Pairs of digits -/

theorem pairs_of_spells {position : Nat} {before : Bytes}
    (h : Spells (text.map Char.ofUInt8) bs) :
    pairs position before text = .ok (before.reverse ++ bs) := by
  induction bs generalizing position before text with
  | nil =>
    generalize hcs : text.map Char.ofUInt8 = cs at h
    cases h
    obtain rfl := List.map_eq_nil_iff.1 hcs
    simp [pairs]
  | cons _ bs ih =>
    generalize hcs : text.map Char.ofUInt8 = cs at h
    cases h with
    | cons hhigh hlow hrest =>
      obtain ⟨a, tail, rfl, rfl, htail⟩ := List.map_eq_cons_iff.1 hcs
      obtain ⟨b, rest, rfl, rfl, rfl⟩ := List.map_eq_cons_iff.1 htail
      simp only [pairs, digitValue?_eq_some_iff.2 hhigh,
        digitValue?_eq_some_iff.2 hlow, ih hrest]
      simp

/-- Pairs of bytes are pairs of digits, or one of them is the first that is no digit. -/
theorem pairs_cases {position : Nat} {before : Bytes} (heven : text.length % 2 = 0) :
    (∃ bs, pairs position before text = .ok (before.reverse ++ bs) ∧
      Spells (text.map Char.ofUInt8) bs) ∨
      ∃ front b rest, pairs position before text =
        .error (.badDigit b (position + front.length)) ∧
        text = front ++ b :: rest ∧ (∀ a ∈ front, ∃ n, Digit (Char.ofUInt8 a) n) ∧
          ∀ n, ¬ Digit (Char.ofUInt8 b) n := by
  fun_induction pairs position before text with
  | case1 position before high low rest hhigh =>
    exact .inr ⟨[], high, low :: rest, rfl, rfl,
      by simp, digitValue?_eq_none_iff.1 hhigh⟩
  | case2 position before high low rest h hhigh hlow =>
    refine .inr ⟨[high], low, rest, rfl, rfl, ?_, digitValue?_eq_none_iff.1 hlow⟩
    rw [List.forall_mem_singleton]
    exact ⟨h, digitValue?_eq_some_iff.1 hhigh⟩
  | case3 position before high low rest h hhigh l hlow ih =>
    rw [digitValue?_eq_some_iff] at hhigh hlow
    rcases ih (by simp only [List.length_cons] at heven; omega)
      with ⟨bs, hbs, hspells⟩ | hbad
    · exact .inl ⟨_,
        by rw [hbs, List.reverse_cons, List.append_assoc]; rfl, .cons hhigh hlow hspells⟩
    · obtain ⟨front, b, tail, herror, rfl, hfront, hb⟩ := hbad
      refine .inr ⟨high :: low :: front, b, tail, ?_, rfl, ?_, hb⟩
      · rw [herror]
        congr 2
        simp only [List.length_cons]
        omega
      · rw [List.forall_mem_cons, List.forall_mem_cons]
        exact ⟨⟨h, hhigh⟩, ⟨l, hlow⟩, hfront⟩
  | case4 text position before hpairs =>
    -- What is no pair is empty, as it is not a single byte.
    match text, hpairs, heven with
    | [], _, _ => exact .inl ⟨[], by simp, .nil⟩
    | high :: low :: rest, hpairs, _ => exact absurd rfl (hpairs high low rest)

theorem Spells.length_eq (h : Spells cs bs) : cs.length = 2 * bs.length := by
  induction h with
  | nil => rfl
  | cons _ _ _ ih =>
    simp only [List.length_cons]
    omega

/-- What bytes of text are decoded to, read as characters they spell. -/
theorem decode_eq_ok_iff : decode text = .ok bs ↔ Spells (text.map Char.ofUInt8) bs := by
  unfold decode
  constructor
  · intro h
    split at h
    · cases h
    · rename_i hodd
      have heven : text.length % 2 = 0 := by omega
      rcases pairs_cases heven
        with ⟨bs', hbs', hspells⟩ | ⟨front, b, rest, herror, -⟩
      · obtain rfl := Except.ok.inj (hbs'.symm.trans h)
        exact hspells
      · cases herror.symm.trans h
  · intro h
    have hlength := h.length_eq
    rw [List.length_map] at hlength
    rw [if_neg (by omega), pairs_of_spells h]
    rfl

theorem refuses_of_decode {cause : HexError} (h : decode text = .error cause) :
    Refuses text cause := by
  unfold decode at h
  split at h
  · rename_i hodd
    obtain rfl := Except.error.inj h
    exact .oddLength hodd
  · have heven : text.length % 2 = 0 := by omega
    rcases pairs_cases heven
      with ⟨bs, hbs, -⟩ | ⟨front, b, rest, herror, htext, hfront, hb⟩
    · cases hbs.symm.trans h
    · obtain rfl := Except.error.inj (herror.symm.trans h)
      rw [Nat.zero_add]
      exact .badDigit heven htext hfront hb

theorem Spells.digits (h : Spells cs bs) : ∀ c ∈ cs, ∃ n, Digit c n := by
  induction h with
  | nil => exact List.forall_mem_nil _
  | cons hhigh hlow _ ih =>
    rw [List.forall_mem_cons, List.forall_mem_cons]
    exact ⟨⟨_, hhigh⟩, ⟨_, hlow⟩, ih⟩

/-- What is refused spells nothing. -/
theorem Refuses.not_spells {cause : HexError} (h : Refuses text cause) :
    ¬ Spells (text.map Char.ofUInt8) bs := by
  intro hspells
  cases h with
  | oddLength hodd =>
    have hlength := hspells.length_eq
    rw [List.length_map] at hlength
    omega
  | @badDigit front rest b _ htext _ hb =>
    have hmem : Char.ofUInt8 b ∈ text.map Char.ofUInt8 :=
      List.mem_map_of_mem (htext ▸ List.mem_append_right front List.mem_cons_self)
    obtain ⟨n, hn⟩ := hspells.digits _ hmem
    exact hb n hn

/-- The first byte without a property is at one place. -/
theorem eq_of_append_eq {p : UInt8 → Prop} {front front' rest rest' : Bytes}
    (h : front ++ a :: rest = front' ++ b :: rest') (hfront : ∀ x ∈ front, p x)
    (ha : ¬ p a) (hfront' : ∀ x ∈ front', p x) (hb : ¬ p b) :
    front = front' ∧ a = b := by
  rcases List.append_eq_append_iff.1 h
    with ⟨between, rfl, hrest⟩ | ⟨between, rfl, hrest⟩
  · cases between with
    | nil => exact ⟨(List.append_nil front).symm, (List.cons.inj hrest).1⟩
    | cons x more =>
      obtain ⟨rfl, -⟩ := List.cons.inj hrest
      exact absurd (hfront' a (List.mem_append_right front List.mem_cons_self)) ha
  · cases between with
    | nil => exact ⟨List.append_nil front', (List.cons.inj hrest).1.symm⟩
    | cons x more =>
      obtain ⟨rfl, -⟩ := List.cons.inj hrest
      exact absurd (hfront b (List.mem_append_right front' List.mem_cons_self)) hb

theorem Refuses.unique {cause cause' : HexError} (h : Refuses text cause)
    (h' : Refuses text cause') : cause = cause' := by
  cases h with
  | oddLength hodd =>
    cases h' with
    | oddLength => rfl
    | badDigit heven => exact absurd (heven.symm.trans hodd) (by decide)
  | badDigit heven htext hfront hb =>
    cases h' with
    | oddLength hodd => exact absurd (heven.symm.trans hodd) (by decide)
    | badDigit _ htext' hfront' hb' =>
      obtain ⟨rfl, rfl⟩ :=
        eq_of_append_eq (p := fun x => ∃ n, Digit (Char.ofUInt8 x) n)
          (htext.symm.trans htext') hfront (not_exists.2 hb) hfront' (not_exists.2 hb')
      rfl

theorem decode_eq_error_iff {cause : HexError} :
    decode text = .error cause ↔ Refuses text cause := by
  refine ⟨refuses_of_decode, fun h => ?_⟩
  cases hdecode : decode text with
  | ok bs => exact absurd (decode_eq_ok_iff.1 hdecode) h.not_spells
  | error cause' => rw [(refuses_of_decode hdecode).unique h]

/-! ## Characters and their bytes -/

/-- The bytes of characters, each read as a character. -/
def bytewise (cs : List Char) : List Char :=
  (cs.flatMap String.utf8EncodeChar).map Char.ofUInt8

theorem bytewise_cons_of_lt (h : c.toNat < 128) :
    bytewise (c :: cs) = c :: bytewise cs := by
  have hc : c.val.toNat ≤ 127 := Nat.le_of_lt_succ h
  have hchar : Char.ofUInt8 (UInt8.ofNat c.val.toNat) = c := by
    apply Char.toNat_inj.1
    rw [toNat_ofUInt8, UInt8.toNat_ofNat', Nat.mod_eq_of_lt (by omega)]
    rfl
  simp only [bytewise, List.flatMap_cons, String.utf8EncodeChar, if_pos hc,
    List.cons_append, List.nil_append, List.map_cons, hchar]

theorem bytewise_cons_of_ge (h : 128 ≤ c.toNat) :
    ∃ d tail, bytewise (c :: cs) = d :: tail ∧ 128 ≤ d.toNat := by
  have hc : ¬ c.val.toNat ≤ 127 := Nat.not_le.2 h
  have hhead : ∃ b more, String.utf8EncodeChar c = b :: more ∧ 128 ≤ b.toNat := by
    simp only [String.utf8EncodeChar, if_neg hc]
    split
    · refine ⟨_, _, rfl, ?_⟩
      rw [UInt8.toNat_ofNat']
      omega
    · split
      · refine ⟨_, _, rfl, ?_⟩
        rw [UInt8.toNat_ofNat']
        omega
      · refine ⟨_, _, rfl, ?_⟩
        rw [UInt8.toNat_ofNat']
        omega
  obtain ⟨b, more, hbytes, hb⟩ := hhead
  refine ⟨_, _, by simp only [bytewise, List.flatMap_cons, hbytes, List.cons_append,
    List.map_cons]; rfl, ?_⟩
  rw [toNat_ofUInt8]
  exact hb

/-- A digit among the bytes of characters is a character. -/
theorem eq_of_bytewise {tail : List Char} (h : bytewise cs = d :: tail) (hd : Digit d n) :
    ∃ rest, cs = d :: rest ∧ tail = bytewise rest := by
  cases cs with
  | nil => cases h
  | cons c rest =>
    by_cases hc : c.toNat < 128
    · rw [bytewise_cons_of_lt hc] at h
      obtain ⟨rfl, rfl⟩ := List.cons.inj h
      exact ⟨rest, rfl, rfl⟩
    · obtain ⟨d', tail', htail, hge⟩ :=
        @bytewise_cons_of_ge c rest (Nat.le_of_not_lt hc)
      obtain ⟨rfl, -⟩ := List.cons.inj (htail.symm.trans h)
      exact absurd hd.toNat_lt (Nat.not_lt.2 hge)

/-- Characters spell what their bytes do. -/
theorem spells_bytewise_iff : Spells (bytewise cs) bs ↔ Spells cs bs := by
  constructor
  · intro h
    induction bs generalizing cs with
    | nil =>
      cases cs with
      | nil => exact .nil
      | cons c rest =>
        have hlength := h.length_eq
        have hpos : 0 < (String.utf8EncodeChar c).length := by
          simp only [String.utf8EncodeChar]
          grind
        simp only [bytewise, List.flatMap_cons, List.map_append, List.length_append,
          List.length_map, List.length_nil] at hlength
        omega
    | cons _ bs ih =>
      generalize hseen : bytewise cs = seen at h
      cases h with
      | cons hhigh hlow hrest =>
        obtain ⟨tail, rfl, htail⟩ := eq_of_bytewise hseen hhigh
        obtain ⟨rest, rfl, rfl⟩ := eq_of_bytewise htail.symm hlow
        exact .cons hhigh hlow (ih hrest)
  · intro h
    induction h with
    | nil => exact .nil
    | cons hhigh hlow _ ih =>
      rw [bytewise_cons_of_lt hhigh.toNat_lt, bytewise_cons_of_lt hlow.toNat_lt]
      exact .cons hhigh hlow ih

end Hex

/-! ## Texts -/

namespace Image

/-- White space. -/
def blanks : List Char := [' ', '\t', '\n', '\r', '\x0c']

/-- The characters are those of a text behind its mark, if it has one. -/
inductive Unmarked : List Char → List Char → Prop where
  | marked {x : Char} {cs : List Char} (hx : x = 'x' ∨ x = 'X') :
      Unmarked ('0' :: x :: cs) cs
  | bare {cs : List Char}
      (h : ∀ x rest, cs = '0' :: x :: rest → x ≠ 'x' ∧ x ≠ 'X') : Unmarked cs cs

/-- The text is an image in hexadecimal digits, with white space anywhere and a mark
in front or none. -/
def Spells (text : String) (image : Bytes) : Prop :=
  ∃ cs, Unmarked (text.toList.filter (· ∉ blanks)) cs ∧ Hex.Spells cs image

/-- The text without white space and mark is refused as hexadecimal digits. -/
def Misspelled (text : String) (cause : HexError) : Prop :=
  ∃ cs, Unmarked (text.toList.filter (· ∉ blanks)) cs ∧
    Hex.Refuses (cs.flatMap String.utf8EncodeChar) cause

variable {text : String} {image : Bytes}

theorem unmarked_iff {cs cs' : List Char} : Unmarked cs cs' ↔ withoutMark cs = cs' := by
  constructor
  · intro h
    cases h with
    | marked hx => obtain rfl | rfl := hx <;> rfl
    | bare h =>
      unfold withoutMark
      split
      · exact absurd rfl (h _ _ rfl).1
      · exact absurd rfl (h _ _ rfl).2
      · rfl
  · rintro rfl
    unfold withoutMark
    split
    · exact .marked (.inl rfl)
    · exact .marked (.inr rfl)
    · rename_i hlower hupper
      refine .bare fun x rest hcs => ⟨?_, ?_⟩
      · rintro rfl
        exact hlower rest hcs
      · rintro rfl
        exact hupper rest hcs

theorem isBlank_eq (c : Char) : (!isBlank c) = decide (c ∉ blanks) := by
  have hfeed : c.toNat = 12 ↔ c = '\x0c' := @Char.toNat_inj c '\x0c'
  rw [Bool.eq_iff_iff]
  simp only [isBlank, blanks, Bool.not_eq_true', Bool.or_eq_false_iff,
    beq_eq_false_iff_ne, ne_eq, hfeed, decide_eq_true_eq, List.mem_cons, List.not_mem_nil,
    or_false, not_or, and_assoc]

/-- The digits of a text are the bytes of its characters without white space and mark. -/
theorem exists_unmarked (text : String) :
    ∃ cs, Unmarked (text.toList.filter (· ∉ blanks)) cs ∧
    digits text = cs.flatMap String.utf8EncodeChar ∧
      ∀ cs', Unmarked (text.toList.filter (· ∉ blanks)) cs' → cs' = cs := by
  refine ⟨_, unmarked_iff.2 rfl, ?_, fun cs' h => (unmarked_iff.1 h).symm⟩
  rw [digits, String.toUTF8, String.toByteArray_ofList,
    List.utf8Encode, List.data_toByteArray]
  simp only [isBlank_eq]

/-- A text is decoded to the image that it spells. -/
theorem decode_digits_iff : Hex.decode (digits text) = .ok image ↔ Spells text image := by
  obtain ⟨cs, hcs, hdigits, hunique⟩ := exists_unmarked text
  rw [hdigits, Hex.decode_eq_ok_iff]
  refine Hex.spells_bytewise_iff.trans ⟨fun h => ⟨cs, hcs, h⟩, ?_⟩
  rintro ⟨cs', hcs', h⟩
  rwa [hunique cs' hcs'] at h

/-- A text that spells no image is refused for the odd number of its digits, or the
first that is none. -/
theorem decode_digits_error_iff {cause : HexError} :
    Hex.decode (digits text) = .error cause ↔ Misspelled text cause := by
  obtain ⟨cs, hcs, hdigits, hunique⟩ := exists_unmarked text
  rw [hdigits, Hex.decode_eq_error_iff]
  refine ⟨fun h => ⟨cs, hcs, h⟩, ?_⟩
  rintro ⟨cs', hcs', h⟩
  rwa [hunique cs' hcs'] at h

/-- A text spells an image of no more than half its characters. -/
theorem Spells.length_le (h : Spells text image) : 2 * image.length ≤ text.length := by
  obtain ⟨cs, hcs, hspells⟩ := h
  have hfilter := List.length_filter_le (fun c => decide (c ∉ blanks)) text.toList
  have hunmarked : cs.length ≤ (text.toList.filter (· ∉ blanks)).length := by
    generalize text.toList.filter (· ∉ blanks) = all at hcs
    cases hcs with
    | marked => simp only [List.length_cons]; omega
    | bare => exact Nat.le_refl _
  have hlength := hspells.length_eq
  rw [String.length_toList] at hfilter
  omega

end Image

end ShapeCode
