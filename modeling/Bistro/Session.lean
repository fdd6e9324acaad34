import Bistro.Exec.Run
import Bistro.Parse.Run
import Bistro.Program.OfTree
import Bistro.Token.Scan

/-!
# Sessions

A session takes a source text through the stages: it is scanned, parsed and run.  Each stage opens
the way for the next one, so a text with lexical errors is not parsed, and one with syntax errors is
not run.

## Main definitions

* `Stage` — the last stage of a session.
* `Session` — all that was learnt about a source text.
* `Session.Failure` — why a session has no outcome at all.
* `Session.ofSource` — takes a source text through the stages.
-/

namespace Bistro

/-- The last stage of a session. -/
inductive Stage
  /-- The text is scanned. -/
  | scan
  /-- It is parsed as well. -/
  | parse
  /-- It is run as well. -/
  | run
  deriving DecidableEq, Repr, Inhabited

/-- All that was learnt about a source text. -/
structure Session where
  tokens : List Token
  lexicalErrors : List LexicalError
  syntaxErrors : List SyntaxError
  /-- The tree, if the text was parsed without errors. -/
  tree : Option ParseTree
  /-- What was found while the program ran. -/
  diagnostics : List Diagnostic
  /-- The texts that the program served. -/
  output : List String
  /-- The text that shows how the session went. -/
  result : String
  /-- The names that the program asked values for. -/
  requests : List String
  deriving Inhabited

namespace Session

/-- Why a session has no outcome. -/
inductive Failure
  /-- The grammar does not determine the next production. -/
  | conflict (c : Grammar.Conflict Nonterminal Token.Kind)
  /-- The tree is not that of a program. -/
  | shape (e : ShapeError)

/-- The text of a failure. -/
def Failure.render : Failure → String
  | conflict c => c.render
  | shape e => e.render

/-- The session that ends with a scan. -/
def ofScan (scan : Scan) : Session where
  tokens := scan.tokens
  lexicalErrors := scan.errors
  syntaxErrors := []
  tree := none
  diagnostics := []
  output := []
  result := Machine.failureBanner
  requests := []

/-- Adds what parsing gave. -/
def withOutcome (s : Session) (outcome : Parse.Outcome) : Session :=
  { s with syntaxErrors := outcome.errors, tree := outcome.tree }

/-- Adds what a run gave. -/
def withRun (s : Session) (m : Machine) : Session :=
  { s with
    diagnostics := m.diagnostics.items
    output := m.output.texts
    result := m.result
    requests := m.input.requests }

/-- Takes a source text through the stages, up to the last one or to the first with errors. -/
def ofSource (limits : Limits) (stage : Stage) (source : String) (input : Input) :
    Except Failure Session := do
  let scanned := ofScan (Scan.ofSource source)
  if stage = .scan || !scanned.lexicalErrors.isEmpty then return scanned
  let tables ← Language.tables.mapError .conflict
  let outcome := Parse.ofTokens tables limits scanned.tokens
  let parsed := scanned.withOutcome outcome
  if stage = .parse || !outcome.success then return parsed
  match parsed.tree with
  | none => return parsed
  | some tree =>
    let program ← (Program.ofTree tree).mapError .shape
    return parsed.withRun (program.run limits input)

/-- Whether there was an error at any stage. -/
def hasErrors (s : Session) : Bool :=
  !s.lexicalErrors.isEmpty || !s.syntaxErrors.isEmpty || s.diagnostics.any Diagnostic.isError

/-- The warnings of the run. -/
def warnings (s : Session) : List Diagnostic := s.diagnostics.filter (!·.isError)

end Session

end Bistro
