set_option autoImplicit false

/-!
# Phrases: text of siblings with separators between them

Texts of nested lists are written front to back.  A phrase is the text so far and whether a
separator is owed before the next sibling: starting a sibling pays it, finishing one owes
the next.  A group opens a nested list, in which nothing is owed at first.
-/

namespace ShapeCode

/-- Text written so far, and whether a separator is owed before the next sibling. -/
structure Phrase where
  text : String
  owes : Bool
  deriving DecidableEq, Repr, Inhabited

namespace Phrase

/-- Nothing written. -/
def empty : Phrase := ⟨"", false⟩

/-- Starts a sibling with the text `s`, behind the separator if one is owed. -/
def start (separator s : String) (p : Phrase) : Phrase :=
  ⟨(if p.owes then p.text ++ separator else p.text) ++ s, false⟩

/-- Finishes a sibling with the text `s`. -/
def finish (s : String) (p : Phrase) : Phrase := ⟨p.text ++ s, true⟩

/-- A sibling of one piece. -/
def leaf (separator s : String) (p : Phrase) : Phrase := (p.start separator s).finish ""

end Phrase

end ShapeCode
