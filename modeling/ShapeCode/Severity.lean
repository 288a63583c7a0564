set_option autoImplicit false

/-!
# Severities: how loud a rendered value is logged

A severity is named by a byte or by a word.  A log line is the word in
brackets and the text.
-/

namespace ShapeCode

/-- How loud a line is. -/
inductive Severity where
  | error
  | warn
  | info
  | debug
  deriving DecidableEq, Repr, Inhabited

namespace Severity

/-- The byte of a severity. -/
def byte : Severity → UInt8
  | .error => 0
  | .warn => 1
  | .info => 2
  | .debug => 3

/-- Every severity, by its byte. -/
def all : List Severity := [.error, .warn, .info, .debug]

/-- The severity of a byte. -/
def ofByte? (b : UInt8) : Option Severity := all.find? fun s => s.byte == b

/-- The text for a byte that names no severity. -/
def unknownMessage (b : UInt8) : String := s!"invalid log level: {b.toNat} (expected 0..=3)"

/-- The word for a severity. -/
def word : Severity → String
  | .error => "error"
  | .warn => "warn"
  | .info => "info"
  | .debug => "debug"

/-- The severity of a word. -/
def ofWord? (s : String) : Option Severity := all.find? fun l => l.word == s

/-- A line of a log. -/
def line (s : Severity) (text : String) : String := "[" ++ s.word ++ "] " ++ text

theorem ofByte?_byte (s : Severity) : ofByte? s.byte = some s := by
  cases s <;> rfl

end Severity

end ShapeCode
