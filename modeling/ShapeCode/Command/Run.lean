import ShapeCode.Command.Arguments
import ShapeCode.Descriptor.Binary
import ShapeCode.Descriptor.Json
import ShapeCode.Files
import ShapeCode.Image
import ShapeCode.Listing

set_option autoImplicit false

/-!
# Running a command

A command reads files and ends in a response: what goes to the two output streams, the
exit code, and a file to write, if any.  A refusal is one line on the error stream and
exit code 1; a fault has exit code 101.
-/

namespace ShapeCode

/-- How a command ends. -/
structure Response where
  code : Nat
  stdout : String
  stderr : String
  /-- The file to write, and its bytes. -/
  output : Option (String × Bytes)
  deriving DecidableEq, Repr, Inhabited

namespace Response

/-- Text on the output stream. -/
def success (text : String) : Response := ⟨0, text, "", none⟩

/-- A refusal. -/
def failure (message : String) : Response := ⟨1, "", "error: " ++ message ++ "\n", none⟩

/-- A fault. -/
def crash (message : String) : Response := ⟨101, "", message ++ "\n", none⟩

/-- The end of a walk that stopped short. -/
def ofHalt : Halt → Response
  | .fault f => crash f.message
  | .tooDeep => crash "too many nested unions"

/-- What the program can be asked for. -/
def usage : String :=
  "usage:\n" ++
  "  dump DESC [--color auto|always|never]\n" ++
  "  size DESC\n" ++
  "  render DESC HEX [--level error|warn|info|debug]\n" ++
  "  compare DESC HEX HEX [--mode eq|lt|le]\n" ++
  "  assemble JSON --output FILE\n"

/-- The response to a command line that asks for nothing that can be done: help is an
answer, a mistake is not. -/
def ofUsageError : UsageError → Response
  | .helpAsked => ⟨0, usage, "", none⟩
  | _ => ⟨2, "", usage, none⟩

end Response

/-- Whether a text is JSON of a descriptor that verifies, and the file of it. -/
inductive AssembleError where
  | invalidJson
  | rejected (cause : LoadError)
  | fault (cause : Fault)
  deriving DecidableEq, Repr, Inhabited

/-- The file of the descriptor that a JSON text describes. -/
def assembleText (json : String) : Except AssembleError Bytes :=
  match Descriptor.ofJson? json with
  | none => .error .invalidJson
  | some d =>
    match d.verify with
    | .error (.refused cause) => .error (.rejected cause)
    | .error (.fault cause) => .error (.fault cause)
    | .ok () =>
      match d.toBytes with
      | .error cause => .error (.rejected cause)
      | .ok file => .ok file

/-- Reads a file by its path. -/
abbrev ReadFile : Type := String → Except FileError Bytes

namespace Descriptor

/-- Loads a descriptor file. -/
def load (read : ReadFile) (path : String) : Except Failure Descriptor :=
  match read path with
  | .error cause => .error (.refused (.unreadable cause))
  | .ok file => ofBytes file

end Descriptor

namespace Command

/-- The file that a command reads. -/
def input : Command → String
  | .dump desc _ => desc
  | .size desc => desc
  | .render desc _ _ => desc
  | .compare desc _ _ _ => desc
  | .assemble json _ => json

/-- A refusal to load the file at a path. -/
def loadMessage (path : String) (cause : LoadError) : String :=
  path ++ ": " ++ cause.message

/-- Loads a descriptor and goes on with it. -/
def withDescriptor (read : ReadFile) (path : String)
    (next : Descriptor → Response) : Response :=
  match Descriptor.load read path with
  | .error (.refused cause) => .failure (loadMessage path cause)
  | .error (.fault cause) => .crash cause.message
  | .ok d => next d

/-- Reads an image and goes on with it. -/
def withImage (d : Descriptor) (what text : String)
    (next : Bytes → Response) : Response :=
  match d.readImage .zero text with
  | .error halt => .ofHalt halt
  | .ok (.error cause) => .failure (cause.message what)
  | .ok (.ok image) => next image

/-- The response of a computation that gives text. -/
def ofText : Walk.Outcome String → Response
  | .error halt => .ofHalt halt
  | .ok text => .success text

/-- Renders an image to the output stream, or to the log. -/
def renderTo (d : Descriptor) (level : Option Severity) (image : Bytes) : Response :=
  match d.renderImage .zero image with
  | .error halt => .ofHalt halt
  | .ok text =>
    match level with
    | none => .success (text ++ "\n")
    | some level => ⟨0, "", level.line text ++ "\n", none⟩

/-- Tests a relation of two images. -/
def compareTo (d : Descriptor) (relation : Relation) (first second : Bytes) : Response :=
  match d.compareImages .zero first second with
  | .error halt => .ofHalt halt
  | .ok order => .success (toString (relation.holds order) ++ "\n")

/-- Assembles the text of a file. -/
def assembleFile (read : ReadFile) (path output : String) : Response :=
  match read path with
  | .error cause => .failure (path ++ ": " ++ cause.message)
  | .ok bytes =>
    match String.fromUTF8? ⟨bytes.toArray⟩ with
    | none => .failure (path ++ ": " ++ FileError.notText.message)
    | some text =>
      match assembleText text with
      | .error .invalidJson => .failure "invalid descriptor JSON"
      | .error (.rejected cause) => .failure cause.message
      | .error (.fault cause) => .crash cause.message
      | .ok file => ⟨0, "", "", some (output, file)⟩

/-- Runs a command; `terminal` says whether the output is one. -/
def run (read : ReadFile) (terminal : Bool) : Command → Response
  | .dump desc color =>
    withDescriptor read desc fun d =>
      ofText (Walk.lift (d.listing (Palette.ofBool (color.enabled terminal))))
  | .size desc =>
    withDescriptor read desc fun d =>
      ofText (Walk.lift ((d.outline.layout d.tables).map fun l => l.text ++ "\n"))
  | .render desc image level =>
    withDescriptor read desc fun d => withImage d "image" image (renderTo d level)
  | .compare desc first second relation =>
    withDescriptor read desc fun d =>
      withImage d "first image" first fun a =>
        withImage d "second image" second fun b => compareTo d relation a b
  | .assemble json output => assembleFile read json output

/-- Runs a command line. -/
def runLine (read : ReadFile) (terminal : Bool) (argv : List String) : Response :=
  match Arguments.parse argv with
  | .error e => .ofUsageError e
  | .ok command => command.run read terminal

/-- The response when the file a command is to write cannot be written. -/
def unwritable (path : String) (cause : FileError) : Response :=
  .failure (path ++ ": " ++ cause.message)

end Command

end ShapeCode
