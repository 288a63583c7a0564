import ShapeCode.Relation
import ShapeCode.Severity

set_option autoImplicit false

/-!
# Arguments: what a command line asks for

The first word selects a command; the rest are its options and its positional values, in any
order.  An option is `--name value`, `--name=value`, `-n value`, `-nvalue` or `-n=value`.  A
word that starts with a dash and is not just one dash is an option wherever it stands,
unless `--` came before it: from there on every word is a positional value.

A value is checked once the next word has been recognised as an argument, or at the end,
so of several mistakes the first to be noticed in that order is reported.
-/

namespace ShapeCode

/-- Why a command line asks for nothing that can be done. -/
inductive UsageError where
  /-- Nothing was asked for. -/
  | nothingAsked
  /-- Help was asked for. -/
  | helpAsked
  | unknownCommand
  | unknownArgument
  | missingArgument
  | badValue
  | repeatedOption
  /-- A value for an option that takes none. -/
  | unneededValue
  deriving DecidableEq, Repr, Inhabited

/-- When to colour a listing. -/
inductive ColorChoice where
  /-- On a terminal. -/
  | auto
  | always
  | never
  deriving DecidableEq, Repr, Inhabited

namespace ColorChoice

/-- The choice of a word. -/
def ofWord? (s : String) : Option ColorChoice :=
  if s = "auto" then some .auto
  else if s = "always" then some .always
  else if s = "never" then some .never
  else none

/-- Whether to colour, given whether the output is a terminal. -/
def enabled (terminal : Bool) : ColorChoice → Bool
  | .auto => terminal
  | .always => true
  | .never => false

end ColorChoice

/-- What to do. -/
inductive Command where
  | dump (desc : String) (color : ColorChoice)
  | size (desc : String)
  | render (desc image : String) (level : Option Severity)
  | compare (desc first second : String) (relation : Relation)
  | assemble (json output : String)
  deriving DecidableEq, Repr, Inhabited

namespace Arguments

/-! ## Grammar of one command -/

/-- An option with a value. -/
structure OptionSpec where
  name : String
  short : Option Char
  accepts : String → Bool

/-- What a command takes: checks for its positional values in order, and its options. -/
structure CommandSpec where
  positionals : List (String → Bool)
  options : List OptionSpec

/-- An argument recognised but not checked. -/
inductive Pending where
  | positional (accepts : String → Bool) (value : String)
  /-- An option whose value may still be to come. -/
  | option (spec : OptionSpec) (value : Option String)

/-- The arguments so far. -/
structure State where
  /-- Positional values that were checked, newest first. -/
  values : List String
  /-- Options that were checked, newest first. -/
  options : List (String × String)
  pending : Option Pending
  /-- Positional values recognised. -/
  count : Nat
  /-- Whether every further word is a positional value. -/
  trailing : Bool

/-- Before the first word. -/
def State.start : State := ⟨[], [], none, 0, false⟩

/-- Takes an option with its value. -/
def State.setOption (st : State) (spec : OptionSpec) (value : String) :
    Except UsageError State :=
  if (st.options.lookup spec.name).isSome then .error .repeatedOption
  else if spec.accepts value
    then .ok { st with options := (spec.name, value) :: st.options }
  else .error .badValue

/-- Checks the argument that is pending. -/
def State.settle (st : State) : Except UsageError State :=
  match st.pending with
  | none => .ok st
  | some (.positional accepts value) =>
    if accepts value then .ok { st with values := value :: st.values, pending := none }
    else .error .badValue
  | some (.option _ none) => .error .badValue
  | some (.option spec (some value)) => { st with pending := none }.setOption spec value

/-- Takes an option: at once if its value is attached, and otherwise as the argument
that is pending. -/
def State.takeOption (st : State) (spec : OptionSpec) (attached : Option String) :
    Except UsageError State :=
  match st.settle with
  | .error e => .error e
  | .ok st =>
    match attached with
    | some value => st.setOption spec value
    | none => .ok { st with pending := some (.option spec none) }

/-- Refuses a request for help, once the argument that is pending is checked. -/
def State.help (st : State) : Except UsageError State :=
  match st.settle with
  | .error e => .error e
  | .ok _ => .error .helpAsked

/-- Takes a positional value. -/
def State.takePositional (spec : CommandSpec) (st : State) (value : String) :
    Except UsageError State :=
  match spec.positionals[st.count]? with
  | none => .error .unknownArgument
  | some accepts =>
    match st.settle with
    | .error e => .error e
    | .ok st =>
      .ok { st with pending := some (.positional accepts value), count := st.count + 1 }

/-- A word cut at its first equality sign. -/
def cutAtEquals : List Char → List Char × Option (List Char)
  | [] => ([], none)
  | c :: rest =>
    if c = '=' then ([], some rest)
    else
      match cutAtEquals rest with
      | (name, value) => (c :: name, value)

/-- Takes a long option, without its dashes. -/
def State.takeLong (spec : CommandSpec) (st : State) (body : List Char) :
    Except UsageError State :=
  match cutAtEquals body with
  | (name, value) =>
    let name := String.ofList name
    if name = "help" then
      match value with
      | some _ => .error .unneededValue
      | none => st.help
    else
      match spec.options.find? fun o => o.name == name with
      | none => .error .unknownArgument
      | some o => st.takeOption o (value.map String.ofList)

/-- The value attached to a short option, without an equality sign in front. -/
def attachedValue : List Char → Option String
  | [] => none
  | '=' :: rest => some (String.ofList rest)
  | cs => some (String.ofList cs)

/-- Takes a short option, without its dash. -/
def State.takeShort (spec : CommandSpec) (st : State) :
    List Char → Except UsageError State
  | [] => .error .unknownArgument
  | c :: rest =>
    if c = 'h' then st.help
    else
      match spec.options.find? fun o => o.short == some c with
      | none => .error .unknownArgument
      | some o => st.takeOption o (attachedValue rest)

/-- Takes a word that is no option: the value of an option that waits for one, or a
positional value. -/
def State.takePlain (spec : CommandSpec) (st : State) (word : String) :
    Except UsageError State :=
  match st.pending with
  | some (.option o none) => .ok { st with pending := some (.option o (some word)) }
  | _ => st.takePositional spec word

/-- Takes the next word. -/
def State.take (spec : CommandSpec) (st : State) (word : String) :
    Except UsageError State :=
  if st.trailing then st.takePositional spec word
  else
    match word.toList with
    | ['-', '-'] => .ok { st with trailing := true }
    | '-' :: '-' :: body => st.takeLong spec body
    | ['-'] => st.takePlain spec word
    | '-' :: body => st.takeShort spec body
    | _ => st.takePlain spec word

/-- Takes all words, and checks that no positional value and no option in
`required` is missing. -/
def takeAll (spec : CommandSpec) (required : List String) :
    State → List String → Except UsageError State
  | st, [] =>
    match st.settle with
    | .error e => .error e
    | .ok st =>
      if st.count < spec.positionals.length then .error .missingArgument
      else if required.all fun name => (st.options.lookup name).isSome then .ok st
      else .error .missingArgument
  | st, word :: rest =>
    match st.take spec word with
    | .error e => .error e
    | .ok st => takeAll spec required st rest

/-- The positional value at an index. -/
def State.value (st : State) (index : Nat) : String := st.values.reverse.getD index ""

/-- The value of an option, if it was given one that means something. -/
def State.option? {α : Type} (st : State) (name : String)
    (ofWord? : String → Option α) : Option α :=
  (st.options.lookup name).bind ofWord?

/-! ## Commands -/

/-- A path must not be empty. -/
def isPath (s : String) : Bool := !s.isEmpty

/-- Any text. -/
def isText (_ : String) : Bool := true

/-- The option that says when to colour. -/
def colorOption : OptionSpec := ⟨"color", none, fun s => (ColorChoice.ofWord? s).isSome⟩

/-- The option that says how loud to log. -/
def levelOption : OptionSpec := ⟨"level", none, fun s => (Severity.ofWord? s).isSome⟩

/-- The option that names the relation to test. -/
def modeOption : OptionSpec := ⟨"mode", some 'm', fun s => (Relation.ofWord? s).isSome⟩

/-- The option that names the file to write. -/
def outputOption : OptionSpec := ⟨"output", some 'o', isPath⟩

/-- Lists a descriptor. -/
def dump (words : List String) : Except UsageError Command :=
  match takeAll ⟨[isPath], [colorOption]⟩ [] .start words with
  | .error e => .error e
  | .ok st => .ok (.dump (st.value 0) ((st.option? "color" ColorChoice.ofWord?).getD .auto))

/-- Measures a type. -/
def size (words : List String) : Except UsageError Command :=
  match takeAll ⟨[isPath], []⟩ [] .start words with
  | .error e => .error e
  | .ok st => .ok (.size (st.value 0))

/-- Renders an image. -/
def render (words : List String) : Except UsageError Command :=
  match takeAll ⟨[isPath, isText], [levelOption]⟩ [] .start words with
  | .error e => .error e
  | .ok st => .ok (.render (st.value 0) (st.value 1) (st.option? "level" Severity.ofWord?))

/-- Compares two images. -/
def compare (words : List String) : Except UsageError Command :=
  match takeAll ⟨[isPath, isText, isText], [modeOption]⟩ [] .start words with
  | .error e => .error e
  | .ok st =>
    .ok (.compare (st.value 0) (st.value 1) (st.value 2)
      ((st.option? "mode" Relation.ofWord?).getD .equal))

/-- Encodes a JSON descriptor. -/
def assemble (words : List String) : Except UsageError Command :=
  match takeAll ⟨[isPath], [outputOption]⟩ ["output"] .start words with
  | .error e => .error e
  | .ok st => .ok (.assemble (st.value 0) ((st.option? "output" some).getD ""))

/-- The commands, by name. -/
def commands : List (String × (List String → Except UsageError Command)) :=
  [("dump", dump), ("size", size), ("render", render),
    ("compare", compare), ("assemble", assemble)]

/-- Whether a word is the name of a command, or asks for help on one. -/
def isCommand (word : String) : Bool := word == "help" || (commands.lookup word).isSome

/-- Help on the command that some words name. -/
def helpOn : List String → UsageError
  | [] => .helpAsked
  | [word] => if isCommand word then .helpAsked else .unknownCommand
  | _ :: _ :: _ => .unknownCommand

/-- What words that start with no command ask for; `trailing` says whether
`--` came before. -/
def noCommand (trailing : Bool) : List Char → UsageError
  | '-' :: '-' :: body =>
    if trailing then .unknownCommand
    else
      match cutAtEquals body with
      | (name, value) =>
        if String.ofList name = "help" then
          match value with
          | some _ => .unneededValue
          | none => .helpAsked
        else .unknownArgument
  | ['-'] => .unknownCommand
  | '-' :: c :: _ =>
    if trailing then .unknownCommand else if c = 'h' then .helpAsked else .unknownArgument
  | _ => .unknownCommand

/-- What the words behind the name of the program ask for. -/
def parseWords : List String → Except UsageError Command
  | [] => .error .nothingAsked
  | word :: rest =>
    if word = "help" then .error (helpOn rest)
    else
      match commands.lookup word with
      | some parse => parse rest
      | none =>
        if word = "--" then
          match rest with
          | [] => .error .nothingAsked
          | next :: _ =>
            if isCommand next then .error .unknownArgument
              else .error (noCommand true next.toList)
        else .error (noCommand false word.toList)

/-- What a command line asks for. -/
def parse (argv : List String) : Except UsageError Command := parseWords argv.tail

end Arguments

end ShapeCode
