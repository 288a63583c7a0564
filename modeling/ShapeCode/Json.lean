set_option autoImplicit false

/-!
# JSON text: strict scanning, compact printing

Scanners take characters off the front of a text and hand back the rest, or refuse.  The
grammar is the strict one: four blank characters, no comments, no trailing commas, no
leading zeros.  A number is read only where a natural number is expected, and then a
sign, a fraction, an exponent or a value beyond the field is refused.  A key is decoded,
so its escapes must spell characters; a value nobody asked for is skipped with a check
of its syntax alone, to any depth.

Every step of a scanner takes at least one character, which is why the length of the text
bounds the loops.  Scanners that loop are told this `bound` once, for the whole text.
-/

namespace ShapeCode.Json

/-- Takes something off the front of a text. -/
abbrev Scan (α : Type) : Type := List Char → Option (α × List Char)

/-! ## Blanks and marks -/

/-- The characters allowed between tokens. -/
def isBlank (c : Char) : Bool := c == ' ' || c == '\t' || c == '\n' || c == '\r'

/-- The text behind its leading blanks. -/
def skipBlanks (cs : List Char) : List Char := cs.dropWhile isBlank

/-- The text behind a mark, which may follow blanks. -/
def mark (m : Char) (cs : List Char) : Option (List Char) :=
  match skipBlanks cs with
  | [] => none
  | c :: rest => if c = m then some rest else none

/-! ## Numbers -/

/-- The value of a decimal digit. -/
def digitValue (c : Char) : Nat := c.toNat - '0'.toNat

/-- The number that `value` and the digits behind it spell. -/
def moreDigits : (value : Nat) → List Char → Nat × List Char
  | value, [] => (value, [])
  | value, c :: rest =>
    if c.isDigit then moreDigits (10 * value + digitValue c) rest else (value, c :: rest)

/-- Whether a number goes on: with a digit, a fraction or an exponent. -/
def goesOn : List Char → Bool
  | [] => false
  | c :: _ => c.isDigit || c == '.' || c == 'e' || c == 'E'

/-- A natural number below `limit`. -/
def natural (limit : Nat) : Scan Nat := fun cs =>
  match skipBlanks cs with
  | [] => none
  | c :: rest =>
    if c.isDigit then
      let (n, rest) := if c = '0' then (0, rest) else moreDigits (digitValue c) rest
      if goesOn rest then none
      else if n < limit then some (n, rest)
      else none
    else none

/-! ## Strings -/

/-- The value of a hexadecimal digit of either case. -/
def hexValue? (c : Char) : Option Nat :=
  if c.isDigit then some (c.toNat - '0'.toNat)
  else if 'a' ≤ c ∧ c ≤ 'f' then some (c.toNat - 'a'.toNat + 10)
  else if 'A' ≤ c ∧ c ≤ 'F' then some (c.toNat - 'A'.toNat + 10)
  else none

/-- Four hexadecimal digits. -/
def hex4 : Scan Nat
  | a :: b :: c :: d :: rest =>
    match hexValue? a, hexValue? b, hexValue? c, hexValue? d with
    | some a, some b, some c, some d => some (((a * 16 + b) * 16 + c) * 16 + d, rest)
    | _, _, _, _ => none
  | _ => none

/-- What a letter after a backslash stands for. -/
def escapeLetter? (c : Char) : Option Char :=
  if c = '"' ∨ c = '\\' ∨ c = '/' then some c
  else if c = 'b' then some (Char.ofNat 8)
  else if c = 'f' then some (Char.ofNat 12)
  else if c = 'n' then some '\n'
  else if c = 'r' then some '\r'
  else if c = 't' then some '\t'
  else none

/-- The character of a code behind a backslash and the letter u.  A code of the upper
half of a pair must be followed by one of the lower half; neither half stands alone. -/
def codeEscape : Scan Char := fun cs =>
  match hex4 cs with
  | none => none
  | some (high, rest) =>
    if 0xDC00 ≤ high ∧ high ≤ 0xDFFF then none
    else if 0xD800 ≤ high ∧ high ≤ 0xDBFF then
      match rest with
      | '\\' :: 'u' :: rest =>
        match hex4 rest with
        | none => none
        | some (low, rest) =>
          if 0xDC00 ≤ low ∧ low ≤ 0xDFFF then
            some (Char.ofNat (0x10000 + (high - 0xD800) * 0x400 + (low - 0xDC00)), rest)
          else none
      | _ => none
    else some (Char.ofNat high, rest)

/-- The characters of a string up to its closing quote, after those in `before`, which
are kept newest first. -/
def stringBody : (bound : Nat) → (before : List Char) → Scan (List Char)
  | 0, _ => fun _ => none
  | bound + 1, before => fun cs =>
    match cs with
    | [] => none
    | c :: rest =>
      if c = '"' then some (before.reverse, rest)
      else if c = '\\' then
        match rest with
        | [] => none
        | e :: rest =>
          if e = 'u' then
            match codeEscape rest with
            | none => none
            | some (c, rest) => stringBody bound (c :: before) rest
          else
            match escapeLetter? e with
            | none => none
            | some c => stringBody bound (c :: before) rest
      else if c.toNat < 0x20 then none
      else stringBody bound (c :: before) rest

/-- The key of a member, behind blanks, with the colon that follows it. -/
def key (bound : Nat) : Scan (List Char) := fun cs =>
  match mark '"' cs with
  | none => none
  | some rest =>
    match stringBody bound [] rest with
    | none => none
    | some (k, rest) =>
      match mark ':' rest with
      | none => none
      | some rest => some (k, rest)

/-! ## Skipping values -/

/-- The text behind a string whose opening quote was taken. -/
def skipString : (bound : Nat) → List Char → Option (List Char)
  | 0, _ => none
  | _, [] => none
  | bound + 1, c :: rest =>
    if c = '"' then some rest
    else if c = '\\' then
      match rest with
      | [] => none
      | e :: rest =>
        if e = 'u' then
          match hex4 rest with
          | none => none
          | some (_, rest) => skipString bound rest
        else
          match escapeLetter? e with
          | none => none
          | some _ => skipString bound rest
    else if c.toNat < 0x20 then none
    else skipString bound rest

/-- The text behind one or more digits. -/
def skipDigits : List Char → Option (List Char)
  | [] => none
  | c :: rest => if c.isDigit then some (rest.dropWhile Char.isDigit) else none

/-- The text behind an exponent, if there is one. -/
def skipExponent (cs : List Char) : Option (List Char) :=
  match cs with
  | [] => some []
  | c :: rest =>
    if c = 'e' ∨ c = 'E' then
      match rest with
      | [] => none
      | s :: digits => if s = '+' ∨ s = '-' then skipDigits digits else skipDigits rest
    else some cs

/-- The text behind a fraction and an exponent, if there are any. -/
def skipFraction (cs : List Char) : Option (List Char) :=
  match cs with
  | [] => some []
  | c :: rest =>
    if c = '.' then
      match skipDigits rest with
      | none => none
      | some rest => skipExponent rest
    else skipExponent cs

/-- The text behind a number without its sign. -/
def skipUnsigned : List Char → Option (List Char)
  | [] => none
  | c :: rest =>
    if c = '0' then
      match rest with
      | [] => some []
      | d :: _ => if d.isDigit then none else skipFraction rest
    else if c.isDigit then skipFraction (rest.dropWhile Char.isDigit)
    else none

/-- The text behind a given word. -/
def skipWord : (word : List Char) → List Char → Option (List Char)
  | [], cs => some cs
  | _ :: _, [] => none
  | w :: word, c :: rest => if c = w then skipWord word rest else none

/-- The text behind a value that is no list and no object, and that starts with `c`. -/
def skipPlain (bound : Nat) (c : Char) (rest : List Char) : Option (List Char) :=
  if c = '"' then skipString bound rest
  else if c = '-' then skipUnsigned rest
  else if c.isDigit then skipUnsigned (c :: rest)
  else if c = 'n' then skipWord ['u', 'l', 'l'] rest
  else if c = 't' then skipWord ['r', 'u', 'e'] rest
  else if c = 'f' then skipWord ['a', 'l', 's', 'e'] rest
  else none

/-- The text behind a key that nobody decodes, and its colon. -/
def skipKey (bound : Nat) (cs : List Char) : Option (List Char) :=
  match mark '"' cs with
  | none => none
  | some rest =>
    match skipString bound rest with
    | none => none
    | some rest => mark ':' rest

/-- What encloses a value that is being skipped. -/
inductive Enclosure where
  | list
  | object
  deriving DecidableEq, Repr, Inhabited

/-- The text behind everything that is open, in at most `steps` steps.  A value comes
next if `pending`, and otherwise one has just ended. -/
def skipOpen (bound : Nat) :
    (steps : Nat) → (pending : Bool) → List Enclosure →
      List Char → Option (List Char)
  | 0, _, _, _ => none
  | _ + 1, false, [], cs => some cs
  | steps + 1, false, e :: outer, cs =>
    match skipBlanks cs, e with
    | ',' :: rest, .list => skipOpen bound steps true (e :: outer) rest
    | ',' :: rest, .object =>
      match skipKey bound rest with
      | none => none
      | some rest => skipOpen bound steps true (e :: outer) rest
    | ']' :: rest, .list => skipOpen bound steps false outer rest
    | '}' :: rest, .object => skipOpen bound steps false outer rest
    | _, _ => none
  | steps + 1, true, opened, cs =>
    match skipBlanks cs with
    | [] => none
    | '[' :: rest =>
      match mark ']' rest with
      | some rest => skipOpen bound steps false opened rest
      | none => skipOpen bound steps true (.list :: opened) rest
    | '{' :: rest =>
      match mark '}' rest with
      | some rest => skipOpen bound steps false opened rest
      | none =>
        match skipKey bound rest with
        | none => none
        | some rest => skipOpen bound steps true (.object :: opened) rest
    | c :: rest =>
      match skipPlain bound c rest with
      | none => none
      | some rest => skipOpen bound steps false opened rest

/-- The text behind any value: no character takes more than two steps. -/
def skipValue (bound : Nat) (cs : List Char) : Option (List Char) :=
  skipOpen bound (2 * bound + 2) true [] cs

/-! ## Lists and objects -/

/-- The items of a list behind those in `before`, which are kept newest first. -/
def moreItems {α : Type} (item : Scan α) :
    (bound : Nat) → (before : List α) → Scan (List α)
  | 0, _ => fun _ => none
  | bound + 1, before => fun cs =>
    match mark ',' cs with
    | some rest =>
      match item rest with
      | none => none
      | some (x, rest) => moreItems item bound (x :: before) rest
    | none =>
      match mark ']' cs with
      | none => none
      | some rest => some (before.reverse, rest)

/-- A list. -/
def list {α : Type} (bound : Nat) (item : Scan α) : Scan (List α) := fun cs =>
  match mark '[' cs with
  | none => none
  | some rest =>
    match mark ']' rest with
    | some rest => some ([], rest)
    | none =>
      match item rest with
      | none => none
      | some (x, rest) => moreItems item bound [x] rest

/-- A record of two fields, of which some have been read. -/
abbrev Partial (α β : Type) : Type := Option α × Option β

/-- The fields of a record: two names and how to read what they name. -/
structure Fields (α β : Type) where
  firstName : List Char
  first : Scan α
  secondName : List Char
  second : Scan β

/-- A member of a record: a field not read before, or a value to skip
under any other key. -/
def Fields.member {α β : Type} (fields : Fields α β) (bound : Nat)
    (sofar : Partial α β) :
    Scan (Partial α β) := fun cs =>
  match key bound cs with
  | none => none
  | some (k, rest) =>
    if k = fields.firstName then
      match sofar.1 with
      | some _ => none
      | none =>
        match fields.first rest with
        | none => none
        | some (x, rest) => some ((some x, sofar.2), rest)
    else if k = fields.secondName then
      match sofar.2 with
      | some _ => none
      | none =>
        match fields.second rest with
        | none => none
        | some (y, rest) => some ((sofar.1, some y), rest)
    else
      match skipValue bound rest with
      | none => none
      | some rest => some (sofar, rest)

/-- The members of a record behind those read so far. -/
def Fields.moreMembers {α β : Type} (fields : Fields α β) (bound : Nat) :
    (steps : Nat) → (sofar : Partial α β) → Scan (Partial α β)
  | 0, _ => fun _ => none
  | steps + 1, sofar => fun cs =>
    match mark ',' cs with
    | some rest =>
      match fields.member bound sofar rest with
      | none => none
      | some (sofar, rest) => fields.moreMembers bound steps sofar rest
    | none =>
      match mark '}' cs with
      | none => none
      | some rest => some (sofar, rest)

/-- The members of a record whose opening brace was taken. -/
def Fields.members {α β : Type} (fields : Fields α β) (bound : Nat) :
    Scan (Partial α β) := fun cs =>
  match mark '}' cs with
  | some rest => some ((none, none), rest)
  | none =>
    match fields.member bound (none, none) cs with
    | none => none
    | some (sofar, rest) => fields.moreMembers bound bound sofar rest

/-- A record written as the list of its fields in order, whose opening bracket was taken. -/
def Fields.inOrder {α β : Type} (fields : Fields α β) : Scan (α × β) := fun cs =>
  match fields.first cs with
  | none => none
  | some (x, rest) =>
    match mark ',' rest with
    | none => none
    | some rest =>
      match fields.second rest with
      | none => none
      | some (y, rest) =>
        match mark ']' rest with
        | none => none
        | some rest => some ((x, y), rest)

/-- A record of two fields: an object with both, or a list of them in order. -/
def Fields.record {α β : Type} (fields : Fields α β) (bound : Nat) :
    Scan (α × β) := fun cs =>
  match mark '{' cs with
  | some rest =>
    match fields.members bound rest with
    | some ((some x, some y), rest) => some ((x, y), rest)
    | _ => none
  | none =>
    match mark '[' cs with
    | none => none
    | some rest => fields.inOrder rest

/-- A text that is one value and blanks. -/
def whole {α : Type} (scan : (bound : Nat) → Scan α) (cs : List Char) : Option α :=
  match scan (cs.length + 1) cs with
  | none => none
  | some (x, rest) => if (skipBlanks rest).isEmpty then some x else none

/-! ## Printing -/

/-- Items behind the first, each behind a comma. -/
def printRest : List (List Char) → List Char
  | [] => []
  | item :: rest => ',' :: (item ++ printRest rest)

/-- A list of printed items. -/
def printList : List (List Char) → List Char
  | [] => ['[', ']']
  | item :: rest => '[' :: (item ++ printRest rest ++ [']'])

/-- A natural number. -/
def printNat (n : Nat) : List Char := Nat.toDigits 10 n

/-- An object of two members. -/
def printRecord (firstName first secondName second : List Char) : List Char :=
  ['{', '"'] ++ firstName ++ ['"', ':'] ++ first ++ [',', '"'] ++
    secondName ++ ['"', ':'] ++ second ++
    ['}']

end ShapeCode.Json
