import Bistro.Grammar.Follow

/-!
# LL(1) parse tables

A parse table tells which alternative of a nonterminal a lookahead selects.  It exists if no
lookahead selects two alternatives of one nonterminal; otherwise the first clash in the order of the
productions is reported.

## Main definitions

* `Grammar.Row`, `Grammar.Table` — the table and its rows.
* `Grammar.Conflict` — two alternatives for one lookahead.
* `Grammar.Table.ofPredictions` — the table, or the first conflict.
* `Grammar.Tables` — a grammar with its sets and its table.
-/

namespace Bistro.Grammar

variable {N T : Type} [DecidableEq N] [DecidableEq T] [Ord T]

/-- A row of a table: the alternative that each lookahead selects, in increasing order. -/
abbrev Row (T : Type) := List (Lookahead T × Nat)

/-- The alternative that a lookahead selects in a row. -/
def Row.get? (row : Row T) (a : Lookahead T) : Option Nat := Dictionary.find a row

/-- Adds a cell to a row that has none for this lookahead. -/
def Row.insert (a : Lookahead T) (alternative : Nat) : Row T → Row T
  | [] => [(a, alternative)]
  | (b, other) :: rest =>
    if compare a b = .lt then (a, alternative) :: (b, other) :: rest
    else (b, other) :: Row.insert a alternative rest

/-- A parse table: the rows of the nonterminals that have productions. -/
abbrev Table (N T : Type) := Dictionary N (Row T)

/-- The row of a nonterminal. -/
def Table.row? (table : Table N T) (head : N) : Option (Row T) := Dictionary.get? table head

/-- The alternative of `head` that a lookahead selects. -/
def Table.select? (table : Table N T) (head : N) (a : Lookahead T) : Option Nat :=
  (Table.row? table head).bind (Row.get? · a)

/-- How many cells are filled. -/
def Table.cells (table : Table N T) : Nat :=
  (Dictionary.values table).foldl (fun count row => count + row.length) 0

/-- Two alternatives of one nonterminal that the same lookahead selects. -/
structure Conflict (N T : Type) where
  head : N
  lookahead : Lookahead T
  /-- The earlier alternative. -/
  first : Production N T
  /-- The later alternative. -/
  second : Production N T
  deriving DecidableEq, Repr, Inhabited

/-- The text of a conflict. -/
def Conflict.render [ToString N] [ToString T] (c : Conflict N T) : String :=
  "grammar is not LL(1): " ++ toString c.head ++ " on '" ++ c.lookahead.render ++ "' selects both `"
    ++ renderProduction c.first ++ "` and `" ++ renderProduction c.second ++ "`"

/-- Fills the cells of one production in the row of its head.  `earlier` finds an alternative by its
place. -/
def fillRow (p : Prediction N T) (earlier : Nat → Production N T) :
    List (Lookahead T) → Row T → Except (Conflict N T) (Row T)
  | [], row => .ok row
  | a :: rest, row =>
    match Row.get? row a with
    | some other => .error ⟨p.head, a, earlier other, p.production⟩
    | none => fillRow p earlier rest (Row.insert a p.alternative row)

/-- The production at a place among the alternatives of a nonterminal. -/
def productionAt (predictions : List (Prediction N T)) (head : N) (alternative : Nat) :
    Production N T :=
  (predictions.find? fun p => p.head = head && p.alternative = alternative).elim [] (·.production)

/-- The parse table that PREDICT sets give, or the first conflict in them. -/
def Table.ofPredictions (predictions : List (Prediction N T)) : Except (Conflict N T) (Table N T) :=
  predictions.foldlM (fun table p => do
      let earlier := productionAt predictions p.head
      let row ← fillRow p earlier p.lookaheads (Dictionary.getD table p.head [])
      return Dictionary.set table p.head row)
    Dictionary.empty

/-- A grammar with all that is derived from it. -/
structure Tables (N T : Type) where
  grammar : Grammar N T
  first : FirstSets N T
  follow : FollowSets N T
  predictions : List (Prediction N T)
  table : Table N T
  deriving Repr

/-- The row of a nonterminal, empty if it has none. -/
def Tables.row (tables : Tables N T) (head : N) : Row T :=
  (Table.row? tables.table head).getD []

/-- The alternative of `head` that a lookahead selects. -/
def Tables.select? (tables : Tables N T) (head : N) (a : Lookahead T) : Option Nat :=
  Table.select? tables.table head a

/-- Whether a lookahead can stand behind a nonterminal. -/
def Tables.follows (tables : Tables N T) (a : Lookahead T) (n : N) : Bool :=
  a ∈ tables.follow.getD n []

/-- Derives the sets and the parse table of a grammar. -/
def Tables.ofGrammar (g : Grammar N T) : Except (Conflict N T) (Tables N T) := do
  let first := g.firstSets
  let follow := g.followSets g.start first
  let predictions := g.predictions first follow
  let table ← Table.ofPredictions predictions
  return ⟨g, first, follow, predictions, table⟩

end Bistro.Grammar
