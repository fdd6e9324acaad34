import Bistro.Session

/-!
# The command line

What the command writes, and the code it exits with, follow from its options, from what became of
reading the source file, and from its standard input.  Reports of what is wrong go to standard
error, all else to standard output.

## Main definitions

* `CommandLine.Options` — the options; `CommandLine.ofArguments` reads them.
* `CommandLine.ReadFault` — why a source file could not be read.
* `CommandLine.answers` — the answers in a standard input.
* `CommandLine.Transcript` — what a command wrote, and its exit code.
* `CommandLine.run` — carries out a command.
-/

namespace Bistro.CommandLine

/-! ### Options -/

/-- The options of a command. -/
structure Options where
  stage : Stage := .run
  /-- Whether the parse tree is shown. -/
  showTree : Bool := false
  /-- How often a loop may run its body, if not as often as usual. -/
  maxIterations : Option Nat := none
  /-- How deep calls may be nested, if not as deep as usual. -/
  maxCallDepth : Option Nat := none
  /-- Whether reports are coloured. -/
  coloured : Bool := true
  deriving DecidableEq, Repr, Inhabited

/-- The limits that the options ask for. -/
def Options.limits (o : Options) : Limits :=
  { Limits.standard with
    maxLoopIterations := o.maxIterations.getD Limits.standard.maxLoopIterations
    maxCallDepth := o.maxCallDepth.getD Limits.standard.maxCallDepth }

/-- The stage with a given name. -/
def stage? : String → Option Stage
  | "lex" => some .scan
  | "syntax" => some .parse
  | "run" => some .run
  | _ => none

/-- What is wrong with the arguments of a command. -/
inductive ArgumentError
  | noFile
  /-- An argument is not understood. -/
  | unexpected (argument : String)
  /-- An option lacks its value, or cannot take it. -/
  | badValue (option : String)
  deriving DecidableEq, Repr, Inhabited

/-- The text of an error. -/
def ArgumentError.render : ArgumentError → String
  | noFile => "Error: a source file is required"
  | unexpected argument => "Error: unexpected argument '" ++ argument ++ "'"
  | badValue option => "Error: '" ++ option ++ "' needs a valid value"

/-- A source file and options, as far as they were read. -/
structure Arguments where
  file : Option String := none
  options : Options := {}
  deriving DecidableEq, Repr, Inhabited

/-- Reads a value of an option. -/
def readValue {α : Type} (option : String) (value : Option α) : Except ArgumentError α :=
  match value with
  | some a => .ok a
  | none => .error (.badValue option)

/-- The options that take a value. -/
def valued : List String := ["--stage", "--max-iterations", "--max-call-depth"]

/-- Reads an argument that is complete in itself. -/
def readFlag (a : Arguments) (argument : String) : Except ArgumentError Arguments :=
  match argument with
  | "--tree" => .ok { a with options.showTree := true }
  | "--no-color" => .ok { a with options.coloured := false }
  | _ =>
    if argument ∈ valued then .error (.badValue argument)
    else if a.file.isSome || (argument.startsWith "-" && argument ≠ "-") then
      .error (.unexpected argument)
    else .ok { a with file := some argument }

/-- A number that an option is given: digits only. -/
def number? (text : String) : Option Nat := if text.all Char.isDigit then text.toNat? else none

/-- An argument with the value of an option behind an equals sign, as two arguments. -/
def expand (argument : String) : List String :=
  match valued.find? fun option => argument.startsWith (option ++ "=") with
  | some option => [option, String.ofList (argument.toList.drop (option.length + 1))]
  | none => [argument]

/-- Reads arguments. -/
def readArguments (a : Arguments) : List String → Except ArgumentError Arguments
  | [] => .ok a
  | "--stage" :: value :: rest => do
    let stage ← readValue "--stage" (stage? value)
    readArguments { a with options.stage := stage } rest
  | "--max-iterations" :: value :: rest => do
    let n ← readValue "--max-iterations" (number? value)
    readArguments { a with options.maxIterations := some n } rest
  | "--max-call-depth" :: value :: rest => do
    let n ← readValue "--max-call-depth" (number? value)
    readArguments { a with options.maxCallDepth := some n } rest
  | argument :: rest => do readArguments (← readFlag a argument) rest

/-- The source file and the options that arguments give. -/
def ofArguments (arguments : List String) : Except ArgumentError (String × Options) := do
  let a ← readArguments {} (arguments.flatMap expand)
  match a.file with
  | some file => return (file, a.options)
  | none => throw .noFile

/-! ### Source files -/

/-- Why a source file could not be read. -/
inductive ReadFault
  | missing
  /-- Its bytes are no text. -/
  | notText
  /-- For another reason. -/
  | other (reason : String)
  deriving DecidableEq, Repr, Inhabited

/-- The text of a fault. -/
def ReadFault.render : ReadFault → String
  | missing => "No such file or directory (os error 2)"
  | notText => "stream did not contain valid UTF-8"
  | other reason => reason

/-- The text that bytes encode. -/
def decode (bytes : ByteArray) : Except ReadFault String :=
  match String.fromUTF8? bytes with
  | some text => .ok text
  | none => .error .notText

/-! ### Input -/

/-- The lines of a text, without the line feeds that end them. -/
def splitLines : List Char → List (List Char)
  | [] => []
  | c :: rest =>
    if c = '\n' then [] :: splitLines rest
    else match splitLines rest with
      | [] => [[c]]
      | line :: lines => (c :: line) :: lines

/-- A line without the carriage returns at its end. -/
def chomp (line : List Char) : List Char := (line.reverse.dropWhile (· = '\r')).reverse

/-- The answers in a standard input: one on each line. -/
def answers (stdin : String) : List String :=
  (splitLines stdin.toList).map fun line => String.ofList (chomp line)

/-- What is shown before an answer is read. -/
def prompt (name : String) : String := "Enter a value for '" ++ name ++ "': "

/-! ### Reports -/

/-- What a command wrote, and the code it exits with. -/
structure Transcript where
  exit : Nat
  /-- What it wrote to standard output. -/
  stdout : String
  /-- What it wrote to standard error. -/
  stderr : String
  deriving DecidableEq, Repr, Inhabited

/-- A text as a line of its own. -/
def line (text : String) : String := text ++ "\n"

/-- Texts as lines. -/
def lines (texts : List String) : String := String.join (texts.map line)

/-- A text, filled up with blanks to a width. -/
def padTo (width : Nat) (text : String) : String :=
  text ++ String.ofList (List.replicate (width - text.length) ' ')

/-- A row of a listing. -/
def row (number kind lexeme : String) : String :=
  padTo 6 number ++ " " ++ padTo 16 kind ++ " " ++ lexeme

/-- The listing of tokens, with a heading. -/
def listing (tokens : List Token) : List String :=
  row "LINE" "TOKEN" "LEXEME" :: tokens.map fun t => row t.line.repr t.kind.spelling t.lexeme

/-- A text in the colour of its severity: red for errors, yellow for warnings. -/
def paint : Diagnostic.Severity → String → String
  | .error, text => "\x1b[38;5;9m" ++ text ++ "\x1b[39m"
  | .warning, text => "\x1b[38;5;11m" ++ text ++ "\x1b[39m"

/-- A report as the options want it. -/
def Options.style (o : Options) (severity : Diagnostic.Severity) (text : String) : String :=
  if o.coloured then paint severity text else text

/-- What standard error shows of a session. -/
def complaints (o : Options) (s : Session) : List String :=
  s.lexicalErrors.map (fun e => o.style .error e.render)
    ++ s.syntaxErrors.map (fun e => o.style .error e.render)
    ++ if o.stage = .run then s.diagnostics.map fun d => o.style d.kind.severity d.render else []

/-- What standard output shows of a session. -/
def display (o : Options) (s : Session) : String :=
  let tokens := if o.stage = .scan then lines (listing s.tokens) else ""
  let tree := if o.showTree then (s.tree.map (·.render)).getD "" else ""
  let verdict := match o.stage with
    | .scan => ""
    | .parse =>
      if s.lexicalErrors.isEmpty && s.syntaxErrors.isEmpty then line "No syntax errors found"
      else ""
    | .run => line s.result
  tokens ++ tree ++ verdict

/-- The transcript of a session, without the prompts. -/
def report (o : Options) (s : Session) : Transcript where
  exit := if s.hasErrors then 1 else 0
  stdout := display o s
  stderr := lines (complaints o s)

/-! ### Commands -/

/-- The transcript of a command that has nothing to report but an error. -/
def refusal (exit : Nat) (reason : String) : Transcript := ⟨exit, "", line ("Error: " ++ reason)⟩

/-- The transcript of a command whose source file cannot be read. -/
def unreadable (path : String) (fault : ReadFault) : Transcript :=
  refusal 2 ("cannot read '" ++ path ++ "': " ++ fault.render)

/-- A session with the given answers. -/
def converse (o : Options) (source : String) (answers : List String) :
    Except Session.Failure Session :=
  Session.ofSource o.limits o.stage source (.ofAnswers answers)

/-- The prompts of a session. -/
def prompts (s : Session) : List String := s.requests.map prompt

/-- Carries out a command. -/
def run (o : Options) (path : String) (source : Except ReadFault String) (stdin : String) :
    Transcript :=
  match source with
  | .error fault => unreadable path fault
  | .ok text =>
    match converse o text (answers stdin) with
    | .error failure => refusal 1 failure.render
    | .ok s =>
      let t := report o s
      { t with stderr := String.join (prompts s) ++ t.stderr }

end Bistro.CommandLine
