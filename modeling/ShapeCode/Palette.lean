set_option autoImplicit false

/-!
# Palettes: colours of a listing

A listing marks section titles, labels and punctuation with terminal escape
sequences, or with nothing.
-/

namespace ShapeCode

/-- What to write before section titles, labels and punctuation, and after each. -/
structure Palette where
  kind : String
  number : String
  punctuation : String
  reset : String
  deriving DecidableEq, Repr, Inhabited

namespace Palette

/-- Blue titles, green labels and faint punctuation. -/
def on : Palette := ⟨"\x1b[34m", "\x1b[32m", "\x1b[2m", "\x1b[0m"⟩

/-- No colours. -/
def off : Palette := ⟨"", "", "", ""⟩

/-- The palette for a choice. -/
def ofBool (enabled : Bool) : Palette := if enabled then on else off

/-- Whether the palette colours anything. -/
def isEnabled (p : Palette) : Bool := !p.reset.isEmpty

end Palette

end ShapeCode
