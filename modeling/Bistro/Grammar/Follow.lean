import Bistro.Grammar.First

/-!
# FOLLOW and PREDICT sets

The FOLLOW set of a nonterminal holds the lookaheads that can stand right behind it in a derivation
from the start symbol, the end of the input among them.  The PREDICT set of a production holds the
lookaheads that select it: its FIRST set, and the FOLLOW set of its head if it can vanish.

## Main definitions

* `Grammar.Lookahead` — a terminal, or the end of the input.
* `Grammar.followSets` — the FOLLOW sets of a grammar.
* `Grammar.Prediction`, `Grammar.predictions` — the PREDICT sets, one for each production.
-/

namespace Bistro.Grammar

/-- What a parser sees next: a terminal, or the end of the input, which comes last in order. -/
inductive Lookahead (T : Type)
  | token (t : T)
  | atEnd
  deriving DecidableEq, Ord, Repr, Inhabited

instance {T : Type} [DecidableEq T] : LawfulBEq (Lookahead T) := inferInstance

/-- How a lookahead is written. -/
def Lookahead.render {T : Type} [ToString T] : Lookahead T → String
  | token t => toString t
  | atEnd => "$"

variable {N T : Type} [DecidableEq N] [DecidableEq T] [Ord T]

/-- The lookaheads that can come first in a sequence whose FIRST set is `first`, if `behind` can
stand behind it. -/
def First.lookaheads (first : First T) (behind : List (Lookahead T)) : List (Lookahead T) :=
  SortedList.union (if first.nullable then behind else []) (first.terminals.map .token)

/-- The FOLLOW sets of nonterminals, in the order in which they were met. -/
abbrev FollowSets (N T : Type) := Dictionary N (List (Lookahead T))

/-- Goes through one production of `head` and adds to the FOLLOW set of each nonterminal in it what
can stand behind that occurrence. -/
def followProduction (first : FirstSets N T) (head : N) :
    Production N T → FollowSets N T → FollowSets N T
  | [], sets => sets
  | .terminal _ :: rest, sets => followProduction first head rest sets
  | .nonterminal n :: rest, sets =>
    let behind := (firstOf first rest).lookaheads (sets.getD head [])
    followProduction first head rest (sets.set n (SortedList.union behind (sets.getD n [])))

/-- One round over all productions. -/
def followRound (g : Grammar N T) (first : FirstSets N T) (sets : FollowSets N T) :
    FollowSets N T :=
  g.productions.foldl
    (fun sets (head, _, production) => followProduction first head production sets)
    sets

/-- How many rounds are needed at most: every round but the last two adds a lookahead. -/
def followRounds (g : Grammar N T) : Nat :=
  (g.heads.length + g.occurrences.length + 1) * (g.terminals.length + 1) + 2

/-- The FOLLOW sets of a grammar whose derivations begin with `start`: of the nonterminals that have
rules in order of declaration, then of `start` and the others in the order in which they were
met. -/
def followSets (g : Grammar N T) (start : N) (first : FirstSets N T) : FollowSets N T :=
  let seeds : FollowSets N T := ⟨g.heads.map (·, [])⟩
  stabilize (g.followRound first) g.followRounds
    (seeds.set start (SortedList.insert .atEnd (seeds.getD start [])))

/-- The lookaheads that select one production. -/
structure Prediction (N T : Type) where
  head : N
  /-- Its place among the alternatives of the head. -/
  alternative : Nat
  production : Production N T
  /-- The lookaheads, in increasing order. -/
  lookaheads : List (Lookahead T)
  deriving DecidableEq, Repr, Inhabited

/-- The PREDICT sets of all productions, in order. -/
def predictions (g : Grammar N T) (first : FirstSets N T) (follow : FollowSets N T) :
    List (Prediction N T) :=
  g.productions.map fun (head, alternative, production) =>
    ⟨head, alternative, production, (firstOf first production).lookaheads (follow.getD head [])⟩

end Bistro.Grammar
