import Bistro.Parse.Recovery

/-!
# Parsing

The machine takes one step at a time until it reaches the bottom of its stack or gives up.

## Main definitions

* `Parse.step` — one step.
* `Parse.iterate` — a number of steps.
* `Parse.Outcome`, `Parse.ofTokens` — the outcome of parsing a row of tokens.
-/

namespace Bistro.Parse

/-! ### Errors -/

/-- The error at the present state. -/
def errorAt (setting : Setting) (s : State) : SyntaxError :=
  let (names, context) := match s.stack with
    | .nonterminal n :: _ =>
      ((setting.tables.row n).map fun (a, _) => a.render, n)
    | .terminal kind :: _ => ([kind.spelling], s.context setting)
    | _ => ([], s.context setting)
  let names := SortedList.ofList names
  if 1 ≤ names.length && names.length ≤ 3 then
    .expected (s.line setting) names s.lexeme context
  else .unexpected (s.line setting) s.lexeme context

/-- The outcome of one or more steps. -/
inductive Step
  /-- The machine reached the bottom of its stack. -/
  | finished (s : State)
  /-- The machine gave up. -/
  | gaveUp (s : State)
  /-- The machine goes on. -/
  | running (s : State)
  deriving Repr, Inhabited

/-- Reports an error and tries to go on. -/
def stumble (setting : Setting) (s : State) : Step :=
  let line := s.line setting
  let s := { s with errors := s.errors ++ [errorAt setting s] }
  let fatal : Step := .gaveUp { s with errors := s.errors ++ [.unrecoverable line] }
  -- the error that was just reported counts
  if setting.limits.maxSyntaxErrors ≤ s.errors.length then fatal
  else match repair? setting s with
    | some r => .running (s.apply r)
    | none => (recover? setting setting.limits.maxRecoveryAttempts s).elim fatal .running

/-! ### Steps -/

/-- One step of the machine. -/
def step (setting : Setting) (s : State) : Step :=
  match s.stack with
  | [] => .finished s
  | .bottom :: _ => .finished s
  | .endOfProduction :: rest => .running { s with stack := rest }.closeNode
  | .terminal kind :: rest =>
    if s.lookahead = .token kind then .running (s.matchTerminal setting kind rest)
    else stumble setting s
  | .nonterminal n :: rest =>
    match setting.tables.select? n s.lookahead with
    | some alternative => .running (s.expand setting n alternative rest)
    | none => stumble setting s

/-- Takes at most a number of steps. -/
def iterate (setting : Setting) : Nat → State → Step
  | 0, s => .running s
  | steps + 1, s =>
    match step setting s with
    | .running s => iterate setting steps s
    | halted => halted

/-- More steps than the machine takes on a row of tokens of the given length.  On one token it
expands a bounded number of nonterminals and otherwise takes its stack down; a repair puts back at
most a stack that was there before and is paid for by the tokens matched after it. -/
def maxSteps (tokens : Nat) : Nat := 1000000 * ((tokens + 1) * (tokens + 1) * (tokens + 1))

/-! ### Outcomes -/

/-- The outcome of parsing. -/
structure Outcome where
  /-- Whether the tokens form a program. -/
  success : Bool
  /-- What is wrong with them, in order. -/
  errors : List SyntaxError
  /-- The parse tree, if they form a program. -/
  tree : Option ParseTree
  deriving Repr, Inhabited

/-- The outcome when the machine has come to rest. -/
def conclude (setting : Setting) : Step → Outcome
  | .finished s =>
    let errors := if s.ahead.isEmpty then s.errors else s.errors ++ [.incomplete (s.line setting)]
    -- nodes are left open only if there was an error, and then there is no tree
    let s := s.closeNodes s.opened.length
    ⟨errors.isEmpty, errors, if errors.isEmpty then s.root else none⟩
  | .gaveUp s | .running s => ⟨false, s.errors, none⟩

/-- The setting for a row of tokens. -/
def Setting.ofTokens (tables : Grammar.Tables Nonterminal Token.Kind) (limits : Limits)
    (tokens : List Token) : Setting :=
  ⟨tables, limits, tokens.getLast?.elim 1 (·.line)⟩

/-- Parses a row of tokens. -/
def ofTokens (tables : Grammar.Tables Nonterminal Token.Kind) (limits : Limits)
    (tokens : List Token) : Outcome :=
  let setting := Setting.ofTokens tables limits tokens
  conclude setting
    (iterate setting (maxSteps tokens.length) (State.initial tables.grammar.start tokens))

end Bistro.Parse
