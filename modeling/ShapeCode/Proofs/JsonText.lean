import ShapeCode.Json

set_option autoImplicit false

/-!
# Compact JSON reads back

A scanner takes a text if it reads it off the front of whatever follows, as long as what
follows does not go on with the number that the text may end in (`Json.Takes`).
Numbers, lists and records of two fields are taken as they are printed.  A scanner that
loops takes a text if its bound exceeds the length of the text, which every item and
every field of the text inherits.
-/

namespace ShapeCode.Json

/-- The scanner takes the text off the front and reads it as `x`. -/
def Takes {α : Type} (scan : Scan α) (text : List Char) (x : α) : Prop :=
  ∀ rest, goesOn rest = false → scan (text ++ rest) = some (x, rest)

/-! ## Marks -/

theorem skipBlanks_cons {c : Char} (h : isBlank c = false) (rest : List Char) :
    skipBlanks (c :: rest) = c :: rest := by
  simp [skipBlanks, h]

theorem mark_self {m : Char} (h : isBlank m = false) (rest : List Char) :
    mark m (m :: rest) = some rest := by
  simp [mark, skipBlanks_cons h]

theorem mark_ne {m c : Char} (h : isBlank c = false) (hne : c ≠ m) (rest : List Char) :
    mark m (c :: rest) = none := by
  simp [mark, skipBlanks_cons h, hne]

/-! ## Numbers -/

theorem not_isBlank_of_isDigit {c : Char} (h : c.isDigit = true) : isBlank c = false := by
  cases hblank : isBlank c with
  | false => rfl
  | true =>
    simp only [isBlank, Bool.or_eq_true, beq_iff_eq] at hblank
    rcases hblank with ((rfl | rfl) | rfl) | rfl <;> cases h

theorem moreDigits_append {digits rest : List Char} (h : ∀ c ∈ digits, c.isDigit = true)
    (hrest : goesOn rest = false) (value : Nat) :
    moreDigits value (digits ++ rest) = (Nat.ofDigitChars 10 digits value, rest) := by
  induction digits generalizing value with
  | nil =>
    cases rest with
    | nil => rfl
    | cons c rest =>
      have hc : c.isDigit = false := by
        simp only [goesOn, Bool.or_eq_false_iff] at hrest
        exact hrest.1.1.1
      simp [moreDigits, hc, Nat.ofDigitChars]
  | cons c digits ih =>
    rw [List.forall_mem_cons] at h
    simp only [List.cons_append, moreDigits, h.1, if_true, Nat.ofDigitChars_cons]
    exact ih h.2 _

/-- The digits of a positive number do not start with a zero. -/
theorem exists_toDigits {n : Nat} (h : 0 < n) :
    ∃ c digits, Nat.toDigits 10 n = c :: digits ∧ c ≠ '0' := by
  induction n using Nat.strongRecOn with
  | _ n ih =>
    by_cases hlt : n < 10
    · refine ⟨n.digitChar, [], Nat.toDigits_of_lt_base hlt, ?_⟩
      intro hzero
      have hvalue := Nat.toNat_digitChar_of_lt_ten hlt
      rw [hzero] at hvalue
      have : '0'.toNat = 48 := rfl
      omega
    · obtain ⟨c, digits, hdigits, hc⟩ := ih (n / 10) (by omega) (by omega)
      refine ⟨c, digits ++ [(n % 10).digitChar], ?_, hc⟩
      rw [Nat.toDigits_of_base_le (by omega) (by omega), hdigits]
      rfl

/-- A number below the limit is taken. -/
theorem takes_natural {n limit : Nat} (h : n < limit) :
    Takes (natural limit) (printNat n) n := by
  intro rest hrest
  have hdigit : ∀ c ∈ Nat.toDigits 10 n, c.isDigit = true := fun c hc =>
    Nat.isDigit_of_mem_toDigits (by omega) (by omega) hc
  have hvalue : Nat.ofDigitChars 10 (Nat.toDigits 10 n) 0 = n :=
    Nat.ofDigitChars_toDigits (by omega) (by omega)
  unfold printNat
  rcases Nat.eq_zero_or_pos n with rfl | hpos
  · simp [natural, Nat.toDigits_zero, skipBlanks, isBlank, hrest, h]
  · obtain ⟨c, digits, hdigits, hc⟩ := exists_toDigits hpos
    rw [hdigits] at hdigit hvalue ⊢
    rw [List.forall_mem_cons] at hdigit
    have hmore : moreDigits (digitValue c) (digits ++ rest) = (n, rest) := by
      rw [moreDigits_append hdigit.2 hrest, ← hvalue, Nat.ofDigitChars_cons]
      simp [digitValue]
    simp [natural, skipBlanks_cons (not_isBlank_of_isDigit hdigit.1),
      hdigit.1, hc, hmore, hrest, h]

/-! ## Lists -/

/-- The text starts with a character that is no blank and ends no list. -/
def Opens (text : List Char) : Prop :=
  ∃ c rest, text = c :: rest ∧ isBlank c = false ∧ c ≠ ']'

theorem opens_printNat (n : Nat) : Opens (printNat n) := by
  obtain ⟨c, digits, hdigits⟩ :=
    List.exists_cons_of_ne_nil (Nat.toDigits_ne_nil (n := n) (b := 10))
  have hdigit : c.isDigit = true :=
    Nat.isDigit_of_mem_toDigits (by omega) (by omega) (hdigits ▸ List.mem_cons_self)
  refine ⟨c, digits, hdigits, not_isBlank_of_isDigit hdigit, ?_⟩
  rintro rfl
  cases hdigit

theorem opens_printList (items : List (List Char)) : Opens (printList items) := by
  cases items <;> exact ⟨'[', _, rfl, rfl, by decide⟩

theorem opens_printRecord (firstName first secondName second : List Char) :
    Opens (printRecord firstName first secondName second) :=
  ⟨'{', _, rfl, rfl, by decide⟩

variable {α β : Type} {item : Scan α} {print : α → List Char}

theorem goesOn_printRest (items : List (List Char)) (rest : List Char) :
    goesOn (printRest items ++ ']' :: rest) = false := by
  cases items <;> rfl

theorem length_le_printRest (items : List (List Char)) :
    items.length ≤ (printRest items).length := by
  induction items with
  | nil => exact Nat.le_refl 0
  | cons text items ih =>
    simp only [printRest, List.length_cons, List.length_append]
    omega

theorem length_le_printRest_of_mem {items : List (List Char)} {text : List Char}
    (h : text ∈ items) :
    text.length ≤ (printRest items).length := by
  induction items with
  | nil => cases h
  | cons text' items ih =>
    simp only [printRest, List.length_cons, List.length_append]
    rcases List.mem_cons.1 h with rfl | h
    · omega
    · have := ih h
      omega

/-- An item is shorter than its list. -/
theorem length_lt_printList {items : List (List Char)} {text : List Char}
    (h : text ∈ items) :
    text.length < (printList items).length := by
  cases items with
  | nil => cases h
  | cons text' items =>
    simp only [printList, List.length_cons, List.length_append]
    rcases List.mem_cons.1 h with rfl | h
    · omega
    · have := length_le_printRest_of_mem h
      omega

theorem moreItems_printRest {xs before : List α} {bound : Nat}
    (hitem : ∀ x ∈ xs, Takes item (print x) x) (hbound : xs.length < bound)
    (rest : List Char) :
    moreItems item bound before (printRest (xs.map print) ++ ']' :: rest) =
        some (before.reverse ++ xs, rest) := by
  induction xs generalizing before bound with
  | nil =>
    obtain ⟨bound, rfl⟩ : ∃ k, bound = k + 1 := ⟨bound - 1, by omega⟩
    have hcomma : mark ',' (']' :: rest) = none := mark_ne rfl (by decide) rest
    have hclose : mark ']' (']' :: rest) = some rest := mark_self rfl rest
    simp [moreItems, printRest, hcomma, hclose]
  | cons x xs ih =>
    obtain ⟨bound, rfl⟩ : ∃ k, bound = k + 1 := ⟨bound - 1, by omega⟩
    rw [List.forall_mem_cons] at hitem
    have htext : printRest ((x :: xs).map print) ++ ']' :: rest =
        ',' :: (print x ++ (printRest (xs.map print) ++ ']' :: rest)) := by simp [printRest]
    have hcomma :=
      mark_self (m := ',') rfl (print x ++ (printRest (xs.map print) ++ ']' :: rest))
    have hfirst := hitem.1 _ (goesOn_printRest (xs.map print) rest)
    have hlength : xs.length < bound := by
      simp only [List.length_cons] at hbound
      omega
    simp only [htext, moreItems, hcomma, hfirst, ih hitem.2 hlength, List.reverse_cons,
      List.append_assoc, List.singleton_append]

/-- A list is taken if its items are. -/
theorem takes_list {xs : List α} {bound : Nat}
    (hitem : ∀ x ∈ xs, Takes item (print x) x) (hopens : ∀ x, Opens (print x))
    (hbound : (printList (xs.map print)).length < bound) :
    Takes (list bound item) (printList (xs.map print)) xs := by
  intro rest _
  cases xs with
  | nil =>
    have hopen : mark '[' ('[' :: ']' :: rest) = some (']' :: rest) := mark_self rfl _
    have hclose : mark ']' (']' :: rest) = some rest := mark_self rfl rest
    simp [list, printList, hopen, hclose]
  | cons x xs =>
    rw [List.forall_mem_cons] at hitem
    obtain ⟨c, text, htext, hblank, hne⟩ := hopens x
    have hopen :=
      mark_self (m := '[') rfl (print x ++ (printRest (xs.map print) ++ ']' :: rest))
    have hclose :
        mark ']' (print x ++ (printRest (xs.map print) ++ ']' :: rest)) = none := by
      rw [htext]
      exact mark_ne hblank hne _
    have hfirst := hitem.1 _ (goesOn_printRest (xs.map print) rest)
    have hlength : xs.length < bound := by
      have := length_le_printRest (xs.map print)
      simp only [List.map_cons, printList, List.length_cons, List.length_append,
        List.length_map] at hbound this
      omega
    have hmore : moreItems item bound [x] (printRest (xs.map print) ++ ']' :: rest) =
        some ([x].reverse ++ xs, rest) :=
      moreItems_printRest hitem.2 hlength rest
    have hprinted : printList ((x :: xs).map print) ++ rest =
        '[' :: (print x ++ (printRest (xs.map print) ++ ']' :: rest)) := by simp [printList]
    simp only [hprinted, list, hopen, hclose, hfirst, hmore]
    rfl

/-! ## Records -/

/-- Whether the name is spelled in a string as it is. -/
def isPlain (name : List Char) : Bool :=
  name.all fun c => c != '"' && c != '\\' && decide (0x20 ≤ c.toNat)

theorem stringBody_of_isPlain {name before : List Char} {bound : Nat}
    (h : isPlain name = true) (hbound : name.length < bound) (rest : List Char) :
    stringBody bound before (name ++ '"' :: rest) = some (before.reverse ++ name, rest) :=
        by
  induction name generalizing before bound with
  | nil =>
    obtain ⟨bound, rfl⟩ : ∃ k, bound = k + 1 := ⟨bound - 1, by omega⟩
    simp [stringBody]
  | cons c name ih =>
    obtain ⟨bound, rfl⟩ : ∃ k, bound = k + 1 := ⟨bound - 1, by omega⟩
    simp only [isPlain, List.all_cons, Bool.and_eq_true, bne_iff_ne,
      ne_eq, decide_eq_true_eq] at h
    obtain ⟨⟨⟨hquote, hescape⟩, hcontrol⟩, hname⟩ := h
    have hlength : name.length < bound := by
      simp only [List.length_cons] at hbound
      omega
    simp [stringBody, hquote, hescape, Nat.not_lt.2 hcontrol, ih hname hlength]

/-- A member: a name in quotes, a colon and a value. -/
def printMember (name value : List Char) : List Char := '"' :: (name ++ '"' :: ':' :: value)

theorem key_printMember {name : List Char} {bound : Nat} (h : isPlain name = true)
    (hbound : name.length < bound) (value rest : List Char) :
    key bound (printMember name value ++ rest) = some (name, value ++ rest) := by
  have hquote := mark_self (m := '"') rfl (name ++ '"' :: ':' :: (value ++ rest))
  have hname : stringBody bound [] (name ++ '"' :: ':' :: (value ++ rest)) =
      some (name, ':' :: (value ++ rest)) :=
    stringBody_of_isPlain h hbound _
  have hcolon := mark_self (m := ':') rfl (value ++ rest)
  have htext :
      printMember name value ++ rest = '"' :: (name ++ '"' :: ':' :: (value ++ rest)) := by
    simp [printMember]
  simp only [htext, key, hquote, hname, hcolon]

/-- The names of the fields are spelled as they are, and differ. -/
structure Fields.Named (fields : Fields α β) : Prop where
  first : isPlain fields.firstName = true
  second : isPlain fields.secondName = true
  ne : fields.secondName ≠ fields.firstName

variable {fields : Fields α β} {bound : Nat}
  {text firstText secondText : List Char} {x : α} {y : β}

theorem member_first (hnamed : fields.Named) (hlength : fields.firstName.length < bound)
    (h : Takes fields.first text x) (second : Option β) {rest : List Char}
    (hrest : goesOn rest = false) :
    fields.member bound (none, second) (printMember fields.firstName text ++ rest) =
        some ((some x, second), rest) := by
  simp only [Fields.member, key_printMember hnamed.first hlength, if_true, h rest hrest]

theorem member_second (hnamed : fields.Named) (hlength : fields.secondName.length < bound)
    (h : Takes fields.second text y) (first : Option α) {rest : List Char}
    (hrest : goesOn rest = false) :
    fields.member bound (first, none) (printMember fields.secondName text ++ rest) =
        some ((first, some y), rest) := by
  simp only [Fields.member, key_printMember hnamed.second hlength, hnamed.ne,
    if_true, if_false, h rest hrest]

/-- The fields of a record are shorter than the record. -/
theorem length_lt_printRecord (firstName first secondName second : List Char) :
    first.length < (printRecord firstName first secondName second).length ∧
      second.length < (printRecord firstName first secondName second).length := by
  simp only [printRecord, List.length_append, List.length_cons, List.length_nil]
  omega

/-- A record is taken if its fields are. -/
theorem takes_record (hnamed : fields.Named) (hfirst : Takes fields.first firstText x)
    (hsecond : Takes fields.second secondText y)
    (hbound :
      (printRecord fields.firstName firstText fields.secondName secondText).length <
        bound) :
    Takes (fields.record bound)
        (printRecord fields.firstName firstText fields.secondName secondText) (x, y) := by
  intro rest _
  have hlengths : fields.firstName.length < bound ∧
      fields.secondName.length < bound ∧ 2 < bound := by
    simp only [printRecord, List.length_append, List.length_cons, List.length_nil] at hbound
    omega
  obtain ⟨hlength, hlength', htwo⟩ := hlengths
  obtain ⟨later, hlater⟩ :
      ∃ later, later = printMember fields.secondName secondText ++ '}' :: rest :=
    ⟨_, rfl⟩
  have hmore : fields.moreMembers bound bound (some x, none) (',' :: later) =
      some ((some x, some y), rest) := by
    obtain ⟨steps, hsteps⟩ : ∃ k, bound = k + 2 := ⟨bound - 2, by omega⟩
    have hcomma := mark_self (m := ',') rfl later
    have hmember : fields.member bound (some x, none) later =
        some ((some x, some y), '}' :: rest) := by
      rw [hlater]
      exact member_second hnamed hlength' hsecond (some x) rfl
    have hend : mark ',' ('}' :: rest) = none := mark_ne rfl (by decide) rest
    have hclose := mark_self (m := '}') rfl rest
    -- Two steps are taken, and the bound of keys and values stays as it is.
    calc fields.moreMembers bound bound (some x, none) (',' :: later)
        = fields.moreMembers bound (steps + 2) (some x, none) (',' :: later) :=
          by rw [← hsteps]
      _ = some ((some x, some y), rest) :=
        by simp only [Fields.moreMembers, hcomma, hmember, hend, hclose]
  have hmember : fields.member bound (none, none)
      (printMember fields.firstName firstText ++ ',' :: later) =
      some ((some x, none), ',' :: later) := member_first hnamed hlength hfirst none rfl
  have htext : printRecord fields.firstName firstText fields.secondName secondText ++ rest =
      '{' :: (printMember fields.firstName firstText ++ ',' :: later) := by
    simp [printRecord, printMember, hlater]
  have hopen :=
    mark_self (m := '{') rfl (printMember fields.firstName firstText ++ ',' :: later)
  have hsome : mark '}' (printMember fields.firstName firstText ++ ',' :: later) = none :=
    mark_ne rfl (by decide) _
  simp only [htext, Fields.record, hopen, Fields.members, hsome, hmember, hmore]

/-- A text that is taken is the text of one value. -/
theorem whole_of_takes {scan : Nat → Scan α} {text : List Char} {x : α}
    (h : Takes (scan (text.length + 1)) text x) : whole scan text = some x := by
  have htext := h [] rfl
  rw [List.append_nil] at htext
  simp [whole, htext, skipBlanks]

end ShapeCode.Json
