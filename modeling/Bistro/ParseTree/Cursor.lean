import Bistro.ParseTree

/-!
# Reading the children of a node

A cursor goes through the children of a node from left to right and checks what it finds.  It gives
each child with the proof that it is one, so that what is done with it can go down the tree.

## Main definitions

* `ShapeError` — a tree is not of the expected shape, or a literal in it spells no value.
* `ParseTree.Cursor` — the children that were not yet read.
* `ParseTree.Cursor.token`, `ParseTree.Cursor.node`, `ParseTree.Cursor.skip` — the next child.
-/

namespace Bistro

/-- What was expected in a tree. -/
inductive ShapeError.Wanted
  | token (kind : Token.Kind)
  /-- An expanded nonterminal. -/
  | node (n : Nonterminal)
  /-- What a phrase describes. -/
  | phrase (text : String)
  deriving DecidableEq, Repr, Inhabited

/-- How an expectation is written. -/
def ShapeError.Wanted.render : ShapeError.Wanted → String
  | token kind => kind.spelling
  | node n => n.render
  | phrase text => text

/-- What keeps a tree from being a program. -/
inductive ShapeError
  /-- Something else stands where `wanted` was expected; nothing is the end of the children. -/
  | malformed (wanted : ShapeError.Wanted) (found : Option ParseTree.Tag) (line : Nat)
  /-- A literal spells no value. -/
  | invalidLiteral (lexeme : String) (line : Nat)
  deriving DecidableEq, Repr, Inhabited

/-- The text of an error. -/
def ShapeError.render : ShapeError → String
  | malformed wanted found line =>
    "malformed parse tree at line " ++ line.repr ++ ": expected " ++ wanted.render ++ ", found "
      ++ found.elim "end of production" ParseTree.Tag.render
  | invalidLiteral lexeme line => "invalid literal '" ++ lexeme ++ "' at line " ++ line.repr

namespace ParseTree

/-- The error that a node is not what was expected. -/
def mismatch (wanted : ShapeError.Wanted) (t : ParseTree) : ShapeError :=
  .malformed wanted (some t.tag) t.line

/-- A child of a node. -/
abbrev Child (parent : ParseTree) := { t : ParseTree // t ∈ parent.children }

/-- The children of a node that were not yet read. -/
structure Cursor (parent : ParseTree) where
  rest : List ParseTree
  /-- They are children of the node. -/
  sub : ∀ t ∈ rest, t ∈ parent.children

/-- All children of a node. -/
def cursor (parent : ParseTree) : Cursor parent := ⟨parent.children, fun _ h => h⟩

namespace Cursor

variable {parent : ParseTree}

/-- What the next child is. -/
def peek? (c : Cursor parent) : Option Tag := c.rest.head?.map (·.tag)

/-- The next child, whatever it is. -/
def next (wanted : ShapeError.Wanted) (c : Cursor parent) :
    Except ShapeError (Child parent × Cursor parent) :=
  match c with
  | ⟨[], _⟩ => .error (.malformed wanted none parent.line)
  | ⟨t :: rest, sub⟩ =>
    .ok (⟨t, sub t List.mem_cons_self⟩, ⟨rest, fun u h => sub u (List.mem_cons_of_mem t h)⟩)

/-- The next child, which must be of the given tag. -/
def expect (wanted : ShapeError.Wanted) (tag : Tag) (c : Cursor parent) :
    Except ShapeError (Child parent × Cursor parent) := do
  let (t, c) ← c.next wanted
  if t.1.tag = tag then return (t, c) else throw (t.1.mismatch wanted)

/-- The next child, which must be a token of the given kind. -/
def token (kind : Token.Kind) (c : Cursor parent) :
    Except ShapeError (Child parent × Cursor parent) :=
  c.expect (.token kind) (.token kind)

/-- Passes over tokens of the given kinds. -/
def tokens (kinds : List Token.Kind) (c : Cursor parent) : Except ShapeError (Cursor parent) :=
  kinds.foldlM (fun c kind => do return (← c.token kind).2) c

/-- The next child, which must be an expansion of the given nonterminal. -/
def node (n : Nonterminal) (c : Cursor parent) : Except ShapeError (Child parent × Cursor parent) :=
  c.expect (.node n) (.nonterminal n)

/-- The next child. -/
def skip (c : Cursor parent) : Except ShapeError (Child parent × Cursor parent) :=
  c.next (.phrase "a symbol")

end Cursor

/-- The first child of a node. -/
def firstChild (t : ParseTree) : Except ShapeError (Child t) := do
  return (← t.cursor.skip).1

end ParseTree

end Bistro
