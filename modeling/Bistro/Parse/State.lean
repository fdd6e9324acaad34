import Bistro.Limits
import Bistro.ParseTree
import Bistro.Language.Rules

/-!
# The state of the parser

The parser is a stack machine.  Its stack holds the symbols that are still to be found, the next one
on top; an expansion puts the symbols of a production there and an end mark below them.  A second
stack holds the nodes whose productions are not yet complete.

## Main definitions

* `SyntaxError` — what is wrong with a row of tokens.
* `Parse.Item`, `Parse.OpenNode`, `Parse.State` — the state of the machine.
* `Parse.Setting` — what stays the same while a row of tokens is parsed.
-/

namespace Bistro

/-- What is wrong with a row of tokens. -/
inductive SyntaxError
  /-- One of a few terminals was expected. -/
  | expected (line : Nat) (expected : List String) (found : String) (context : Nonterminal)
  /-- None of many terminals was found. -/
  | unexpected (line : Nat) (found : String) (context : Nonterminal)
  /-- Parsing was given up. -/
  | unrecoverable (line : Nat)
  /-- There are tokens behind the end of the program. -/
  | incomplete (line : Nat)
  deriving DecidableEq, Repr, Inhabited

namespace SyntaxError

/-- The line of an error. -/
def line : SyntaxError → Nat
  | expected line .. => line
  | unexpected line .. => line
  | unrecoverable line => line
  | incomplete line => line

/-- Whether an error ends parsing. -/
def isFatal : SyntaxError → Bool
  | unrecoverable _ => true
  | _ => false

/-- The expected terminals as a message shows them. -/
def choices (names : List String) : String :=
  " or ".intercalate (names.map fun name => "'" ++ name ++ "'")

/-- The text of an error. -/
def render : SyntaxError → String
  | expected line names found context =>
    "[SYNTAX_ERROR] at line " ++ line.repr ++ ": Expected " ++ choices names ++ ", but found '"
      ++ found ++ "' while parsing " ++ context.render
  | unexpected line found context =>
    "[SYNTAX_ERROR] at line " ++ line.repr ++ ": Unexpected '" ++ found ++ "' while parsing "
      ++ context.render
  | unrecoverable line =>
    "[FATAL_ERROR] at line " ++ line.repr ++ ": Unable to recover from syntax error"
  | incomplete _ => "Incomplete parsing"

end SyntaxError

namespace Parse

/-- A terminal, or the end of the input. -/
abbrev Lookahead := Grammar.Lookahead Token.Kind

/-- The lookahead at a terminal to be matched first, if there is one, and then the tokens ahead. -/
def look (inserted : Option Token.Kind) (ahead : List Token) : Lookahead :=
  match inserted, ahead with
  | some kind, _ => .token kind
  | none, t :: _ => .token t.kind
  | none, [] => .atEnd

/-- An item of the machine's stack. -/
inductive Item
  /-- A terminal to be matched. -/
  | terminal (kind : Token.Kind)
  /-- A nonterminal to be expanded. -/
  | nonterminal (n : Nonterminal)
  /-- The end of a production. -/
  | endOfProduction
  /-- The bottom of the stack. -/
  | bottom
  deriving DecidableEq, Repr, Inhabited

/-- The item for a symbol of a production. -/
def Item.ofSymbol : Grammar.Symbol Nonterminal Token.Kind → Item
  | .terminal kind => terminal kind
  | .nonterminal n => nonterminal n

/-- A node whose production is not yet complete. -/
structure OpenNode where
  head : Nonterminal
  line : Nat
  /-- The children found so far, the latest first. -/
  children : List ParseTree
  deriving Repr, Inhabited

/-- The node with the children found so far. -/
def OpenNode.close (node : OpenNode) : ParseTree :=
  .interior node.head node.line node.children.reverse

/-- What stays the same while a row of tokens is parsed. -/
structure Setting where
  /-- The grammar and its tables. -/
  tables : Grammar.Tables Nonterminal Token.Kind
  limits : Limits
  /-- The line that counts once all tokens are consumed: that of the last token. -/
  endLine : Nat

/-- The state of the machine. -/
structure State where
  /-- The tokens that are not yet consumed. -/
  ahead : List Token
  /-- The symbols to be found, the next one first. -/
  stack : List Item
  /-- The stack as it was after the last match. -/
  checkpoint : List Item
  /-- A terminal supplied by a repair, to be matched before the tokens ahead. -/
  inserted : Option Token.Kind
  /-- The nodes that are not yet complete, the innermost first. -/
  opened : List OpenNode
  /-- The complete tree. -/
  root : Option ParseTree
  /-- The errors so far, in order. -/
  errors : List SyntaxError
  deriving Repr, Inhabited

namespace State

/-- The state before anything was read. -/
def initial (start : Nonterminal) (tokens : List Token) : State where
  ahead := tokens
  stack := [.nonterminal start, .bottom]
  checkpoint := [.nonterminal start, .bottom]
  inserted := none
  opened := []
  root := none
  errors := []

/-- What the machine sees next. -/
def lookahead (s : State) : Lookahead := look s.inserted s.ahead

/-- How the next token is written. -/
def lexeme (s : State) : String :=
  match s.inserted, s.ahead with
  | some kind, _ => kind.spelling
  | none, t :: _ => t.lexeme
  | none, [] => "$"

/-- The line the machine is on. -/
def line (setting : Setting) (s : State) : Nat :=
  match s.ahead with
  | t :: _ => t.line
  | [] => setting.endLine

/-- The nonterminal whose production the machine is in. -/
def context (setting : Setting) (s : State) : Nonterminal :=
  match s.opened with
  | node :: _ => node.head
  | [] => setting.tables.grammar.start

/-! ### Building the tree -/

/-- Puts a complete node under the innermost open one, or makes it the root. -/
def attach (node : ParseTree) (s : State) : State :=
  match s.opened with
  | parent :: outer =>
    { s with opened := { parent with children := node :: parent.children } :: outer }
  | [] => { s with root := some node }

/-- Completes the innermost open node. -/
def closeNode (s : State) : State :=
  match s.opened with
  | node :: outer => { s with opened := outer }.attach node.close
  | [] => s

/-- Completes a number of open nodes, the innermost first. -/
def closeNodes : Nat → State → State
  | 0, s => s
  | n + 1, s => closeNodes n s.closeNode

/-! ### Moves -/

/-- Matches the terminal on top of the stack, which is the next one seen. -/
def matchTerminal (setting : Setting) (kind : Token.Kind) (rest : List Item) (s : State) : State :=
  let matched := match s.inserted, s.ahead with
    -- a supplied terminal uses up no token
    | some _, _ => { s with inserted := none }.attach (.leaf kind kind.spelling (s.line setting))
    | none, t :: ahead => { s with ahead }.attach (.leaf kind t.lexeme t.line)
    | none, [] => s.attach (.leaf kind "" (s.line setting))
  { matched with stack := rest, checkpoint := rest }

/-- The production at a place among the alternatives of a nonterminal. -/
def production (setting : Setting) (n : Nonterminal) (alternative : Nat) :
    Grammar.Production Nonterminal Token.Kind :=
  (setting.tables.grammar.alternatives n)[alternative]?.getD []

/-- Expands the nonterminal on top of the stack by one of its alternatives. -/
def expand (setting : Setting) (n : Nonterminal) (alternative : Nat) (rest : List Item)
    (s : State) : State :=
  let line := s.line setting
  match production setting n alternative with
  | [] => { s with stack := rest }.attach (.interior n line [.lambda line])
  | symbols =>
    { s with
      stack := symbols.map Item.ofSymbol ++ .endOfProduction :: rest
      opened := ⟨n, line, []⟩ :: s.opened }

end State

end Parse

end Bistro
