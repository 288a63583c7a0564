import ShapeCode.Bytes

set_option autoImplicit false

/-!
# Files: what a program asks of a file system

Reading yields bytes or the reason there are none.  The reasons keep the texts a user sees.
-/

namespace ShapeCode

/-- Why a file could not be read or written. -/
inductive FileError where
  | notFound
  | permissionDenied
  | notDirectory
  | isDirectory
  | nameTooLong
  | noSpace
  /-- The bytes of a text file are not UTF-8. -/
  | notText
  | other (text : String)
  deriving DecidableEq, Repr, Inhabited

/-- The text of a file error. -/
def FileError.message : FileError → String
  | .notFound => "No such file or directory (os error 2)"
  | .permissionDenied => "Permission denied (os error 13)"
  | .notDirectory => "Not a directory (os error 20)"
  | .isDirectory => "Is a directory (os error 21)"
  | .nameTooLong => "File name too long (os error 36)"
  | .noSpace => "No space left on device (os error 28)"
  | .notText => "stream did not contain valid UTF-8"
  | .other text => text

end ShapeCode
