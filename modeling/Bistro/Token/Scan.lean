import Bistro.Token.Segment

/-!
# Scanning

The tokens of a source text and its lexical errors are read off its segments, each with the place
at which its segment begins.  Scanning never stops at a fault: every malformed stretch is one
segment and gives one error.

## Main definitions

* `Position` — a line and a column, counted from one.
* `Segment.locate` — segments with the places they begin at.
* `Scan`, `Scan.ofSource` — the tokens and errors of a source text.
-/

namespace Bistro

/-- A place in a text: line and column, both counted from one; a column is one character. -/
structure Position where
  line : Nat
  column : Nat
  deriving DecidableEq, Repr, Inhabited

namespace Position

/-- The place at which a text begins. -/
def start : Position := ⟨1, 1⟩

/-- The place behind a character. -/
def next (p : Position) (c : Char) : Position :=
  if c = '\n' then ⟨p.line + 1, 1⟩ else ⟨p.line, p.column + 1⟩

/-- The place behind a stretch of text. -/
def advance (p : Position) (text : List Char) : Position := text.foldl next p

end Position

/-- Segments with the places they begin at; the first begins at `p`. -/
def Segment.locate (p : Position) : List Segment → List (Position × Segment)
  | [] => []
  | s :: rest => (p, s) :: locate (p.advance s.text) rest

/-- A lexical error: what is wrong, and where the malformed stretch begins. -/
structure LexicalError where
  fault : Segment.Fault
  /-- Where the stretch begins. -/
  position : Position
  deriving DecidableEq, Repr, Inhabited

/-- The text of an error. -/
def LexicalError.render (e : LexicalError) : String :=
  "Lexical Error: " ++ e.fault.message ++ " at line " ++ e.position.line.repr ++ ", column "
    ++ e.position.column.repr

/-- The token that a segment spells. -/
def Segment.token? : Position × Segment → Option Token
  | (p, ⟨.token kind lexeme, _⟩) => some ⟨lexeme, kind, p.line⟩
  | _ => none

/-- The error in a segment. -/
def Segment.error? : Position × Segment → Option LexicalError
  | (p, ⟨.fault fault, _⟩) => some ⟨fault, p⟩
  | _ => none

/-- What scanning a text gives. -/
structure Scan where
  /-- The tokens, in order. -/
  tokens : List Token
  /-- The errors, in order. -/
  errors : List LexicalError
  deriving DecidableEq, Repr, Inhabited

/-- Scans a source text. -/
def Scan.ofSource (source : String) : Scan :=
  let placed := Segment.locate Position.start (Segment.split source.toList)
  ⟨placed.filterMap Segment.token?, placed.filterMap Segment.error?⟩

end Bistro
