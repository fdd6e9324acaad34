import Bistro.Dictionary

/-!
# Context-free grammars

A grammar maps each of its nonterminals to an ordered list of alternatives.  An alternative is a
sequence of symbols, and the empty sequence is written `λ`.  Terminals and nonterminals may be of
any type, so the analyses apply to small grammars as well as to the grammar of the language.

## Main definitions

* `Grammar.Symbol`, `Grammar.Production`, `Grammar` — the grammar itself.
* `Grammar.rule` — adds alternatives to a nonterminal.
* `Grammar.productions` — all productions, in order.
* `Grammar.stabilize` — repeats a round of computation until it changes nothing.
-/

namespace Bistro

/-- A symbol on the right-hand side of a production. -/
inductive Grammar.Symbol (N T : Type)
  | terminal (t : T)
  | nonterminal (n : N)
  deriving DecidableEq, Repr, Inhabited

/-- The right-hand side of a rule; without symbols it is `λ`. -/
abbrev Grammar.Production (N T : Type) := List (Grammar.Symbol N T)

/-- A context-free grammar. -/
structure Grammar (N T : Type) where
  /-- The symbol that derives the whole language. -/
  start : N
  /-- The alternatives of each nonterminal, in order of declaration. -/
  rules : Dictionary N (List (Grammar.Production N T))
  deriving DecidableEq, Repr, Inhabited

namespace Grammar

variable {N T : Type}

/-- How a symbol is written. -/
def Symbol.render [ToString N] [ToString T] : Symbol N T → String
  | terminal t => toString t
  | nonterminal n => toString n

/-- How a production is written. -/
def renderProduction [ToString N] [ToString T] : Production N T → String
  | [] => "λ"
  | symbols => " ".intercalate (symbols.map Symbol.render)

variable [DecidableEq N]

/-- The grammar without rules. -/
def ofStart (start : N) : Grammar N T := ⟨start, Dictionary.empty⟩

/-- The alternatives of a nonterminal; one without rules has none. -/
def alternatives (g : Grammar N T) (head : N) : List (Production N T) := g.rules.getD head []

/-- Adds alternatives to a nonterminal, behind those it has. -/
def rule (g : Grammar N T) (head : N) (alternatives : List (Production N T)) : Grammar N T :=
  { g with rules := g.rules.set head (g.alternatives head ++ alternatives) }

/-- The nonterminals that have rules, in order of declaration. -/
def heads (g : Grammar N T) : List N := g.rules.keys

/-- Whether a nonterminal has rules. -/
def declares (g : Grammar N T) (n : N) : Bool := g.rules.contains n

/-- All productions with their heads and their places among the alternatives of the head. -/
def productions (g : Grammar N T) : List (N × Nat × Production N T) :=
  g.rules.entries.flatMap fun (head, alternatives) =>
    alternatives.zipIdx.map fun (production, index) => (head, index, production)

/-- The terminals in the productions, one for each occurrence. -/
def terminals (g : Grammar N T) : List T :=
  g.productions.flatMap fun (_, _, production) =>
    production.filterMap fun
      | .terminal t => some t
      | .nonterminal _ => none

/-- The nonterminals in the productions, one for each occurrence. -/
def occurrences (g : Grammar N T) : List N :=
  g.productions.flatMap fun (_, _, production) =>
    production.filterMap fun
      | .terminal _ => none
      | .nonterminal n => some n

/-- Repeats a round until it changes nothing, for at most `rounds` rounds. -/
def stabilize {α : Type} [DecidableEq α] (round : α → α) : Nat → α → α
  | 0, a => a
  | rounds + 1, a => if round a = a then a else stabilize round rounds (round a)

end Grammar

end Bistro
