import Bistro.Grammar.Basic
import Bistro.SortedList

/-!
# FIRST sets

The FIRST set of a nonterminal holds the terminals with which its derivations can begin, and tells
whether the nonterminal can vanish.

One round visits every nonterminal once, depth first, in the order of declaration.  A nonterminal
that is met again in the same round, finished or not, counts with what is known of it so far.
Rounds are repeated until one changes nothing, so what was read too early is corrected later.  A
nonterminal without rules gets an empty entry when it is first met; entries keep that order.

## Main definitions

* `Grammar.First` — terminals, and whether the empty sequence is derivable.
* `Grammar.visit`, `Grammar.firstRound` — one visit and one round.
* `Grammar.firstSets` — the FIRST sets of a grammar.
* `Grammar.firstOf` — the FIRST set of a sequence of symbols.
-/

namespace Bistro.Grammar

variable {N T : Type} [DecidableEq N] [DecidableEq T] [Ord T]

/-- The FIRST set of a nonterminal or of a sequence. -/
structure First (T : Type) where
  /-- The terminals that can come first, in increasing order. -/
  terminals : List T
  /-- Whether the empty sequence is derivable. -/
  nullable : Bool
  deriving DecidableEq, Repr, Inhabited

/-- Nothing is known to come first. -/
def First.none : First T := ⟨[], false⟩

/-- What either of two sets holds. -/
def First.union (a b : First T) : First T :=
  ⟨SortedList.union a.terminals b.terminals, a.nullable || b.nullable⟩

/-- The FIRST sets of nonterminals, in the order in which they were met. -/
abbrev FirstSets (N T : Type) := Dictionary N (First T)

/-- The state of a round: what is known, and the nonterminals met in this round. -/
structure Survey (N T : Type) where
  /-- What is known of each nonterminal. -/
  sets : FirstSets N T
  /-- The nonterminals met in this round. -/
  met : List N

/-- What a survey knows of a nonterminal. -/
def Survey.known (s : Survey N T) (n : N) : First T := s.sets.getD n First.none

/-- Reads one production: what its first symbols contribute, whether all of it can vanish, and the
survey after the nonterminals on the way were visited. -/
def readProduction (visit : N → Survey N T → First T × Survey N T) :
    Production N T → Survey N T → First T × Survey N T
  | [], s => (⟨[], true⟩, s)
  | .terminal t :: _, s => (⟨[t], false⟩, s)
  | .nonterminal n :: rest, s =>
    let (first, s) := visit n s
    if first.nullable then
      let (behind, s) := readProduction visit rest s
      (⟨SortedList.union first.terminals behind.terminals, behind.nullable⟩, s)
    else (first, s)

/-- Reads the alternatives of a nonterminal, one after the other. -/
def readAlternatives (visit : N → Survey N T → First T × Survey N T) :
    List (Production N T) → Survey N T → First T × Survey N T
  | [], s => (First.none, s)
  | production :: rest, s =>
    let (here, s) := readProduction visit production s
    let (there, s) := readAlternatives visit rest s
    (here.union there, s)

/-- Visits a nonterminal: if it was not met before, its alternatives are read and its entry grows.
`depth` bounds how deep visits are nested. -/
def visit (g : Grammar N T) : Nat → N → Survey N T → First T × Survey N T
  | 0, n, s => (s.known n, s)
  | depth + 1, n, s =>
    if n ∈ s.met then (s.known n, s)
    else
      -- met before its alternatives are read: a recursive one then finds what is known so far
      let s := { s with met := n :: s.met }
      let (found, s) := readAlternatives (visit g depth) (g.alternatives n) s
      let grown := (s.known n).union found
      (grown, { s with sets := s.sets.set n grown })

/-- One round over all nonterminals that have rules.  Visits nest at most as deep as there are such
nonterminals, and one level more for one without rules. -/
def firstRound (g : Grammar N T) (sets : FirstSets N T) : FirstSets N T :=
  (g.heads.foldl (fun s n => (visit g (g.heads.length + 1) n s).2) ⟨sets, []⟩).sets

/-- How many rounds are needed at most: every round but the last two adds a terminal to an entry, or
makes an entry nullable. -/
def firstRounds (g : Grammar N T) : Nat := g.heads.length * (g.terminals.length + 1) + 2

/-- The FIRST sets of a grammar: of the nonterminals that have rules in order of declaration, then
of the others in the order in which they were met. -/
def firstSets (g : Grammar N T) : FirstSets N T :=
  stabilize g.firstRound g.firstRounds ⟨g.heads.map (·, First.none)⟩

/-- The FIRST set of a sequence.  A nonterminal without an entry derives nothing. -/
def firstOf (sets : FirstSets N T) : Production N T → First T
  | [] => ⟨[], true⟩
  | .terminal t :: _ => ⟨[t], false⟩
  | .nonterminal n :: rest =>
    match sets.get? n with
    | none => First.none
    | some first =>
      if first.nullable then
        let behind := firstOf sets rest
        ⟨SortedList.union first.terminals behind.terminals, behind.nullable⟩
      else first

end Bistro.Grammar
