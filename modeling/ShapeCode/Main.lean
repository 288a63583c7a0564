import ShapeCode.Command.Run

set_option autoImplicit false

/-!
# The program

Reads the file that a command needs, runs the command, and writes its response.  Everything
that is decided is decided by `Command.run`; here is only what touches files and streams.
-/

namespace ShapeCode.Program

/-- The reason behind an error of the operating system.  The code of an error may come
with a negative sign. -/
def fileError (e : IO.Error) : FileError :=
  match e with
  | .noFileOrDirectory _ _ _ => .notFound
  | .permissionDenied _ _ _ => .permissionDenied
  | .inappropriateType _ code _ =>
    if code = 21 ∨ code = 0 - 21 then .isDirectory else .notDirectory
  | .invalidArgument _ code _ =>
    if code = 36 ∨ code = 0 - 36 then .nameTooLong else .other (toString e)
  | .resourceExhausted _ code _ =>
    if code = 28 ∨ code = 0 - 28 then .noSpace else .other (toString e)
  | e => .other (toString e)

/-- Reads a file. -/
def readFile (path : String) : IO (Except FileError Bytes) := do
  try
    let bytes ← IO.FS.readBinFile path
    return .ok bytes.toList
  catch e => return .error (fileError e)

/-- Runs a command line with the file it needs. -/
def respond (terminal : Bool) (argv : List String) : IO Response := do
  match Arguments.parse argv with
  | .error e => return .ofUsageError e
  | .ok command =>
    let file ← readFile command.input
    return command.run (fun _ => file) terminal

/-- Writes the file of a response, and gives the response that is left. -/
def writeOutput (r : Response) : IO Response := do
  match r.output with
  | none => return r
  | some (path, bytes) =>
    try
      IO.FS.withFile path .write fun file => do
        file.write ⟨bytes.toArray⟩
        file.flush
      return r
    catch e => return Command.unwritable path (fileError e)

/-- Runs the program on the words behind its name. -/
def run (words : List String) : IO UInt32 := do
  let stdout ← IO.getStdout
  let stderr ← IO.getStderr
  let terminal := (← stdout.isTty) && (← stderr.isTty)
  let response ← writeOutput (← respond terminal ("shapecode" :: words))
  stdout.putStr response.stdout
  stderr.putStr response.stderr
  return UInt32.ofNat response.code

end ShapeCode.Program

/-- Runs the command that the arguments ask for. -/
def main (arguments : List String) : IO UInt32 := ShapeCode.Program.run arguments
