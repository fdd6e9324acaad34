import Bistro.Language.Nonterminal

/-!
# Parse trees

A node of a parse tree is an expanded nonterminal, a token, or the mark `λ` that stands under a
nonterminal which vanished.

## Main definitions

* `ParseTree.Tag`, `ParseTree` — the trees.
* `ParseTree.vanishes` — whether a node is a nonterminal that vanished.
* `ParseTree.leaves` — the tokens of a tree, in order.
* `ParseTree.size` — the number of nodes.
* `ParseTree.render` — a tree as text, a line for each node.
* `ParseTree.descend?`, `ParseTree.alter?` — the node at a path, and its replacement.
-/

namespace Bistro

/-- What a node is. -/
inductive ParseTree.Tag
  /-- An expanded nonterminal. -/
  | nonterminal (n : Nonterminal)
  /-- A token. -/
  | token (kind : Token.Kind)
  /-- The mark of a nonterminal that vanished. -/
  | empty
  deriving DecidableEq, Repr, Inhabited

/-- How a tag is written. -/
def ParseTree.Tag.render : ParseTree.Tag → String
  | nonterminal n => n.render
  | token kind => kind.spelling
  | empty => "λ"

/-- A parse tree. -/
structure ParseTree where
  /-- What the root is. -/
  tag : ParseTree.Tag
  /-- How the token at the root is written. -/
  value : Option String
  line : Nat
  /-- The subtrees, in order. -/
  children : List ParseTree
  deriving Repr, Inhabited

namespace ParseTree

/-! ### Nodes -/

/-- An expanded nonterminal. -/
def interior (n : Nonterminal) (line : Nat) (children : List ParseTree) : ParseTree :=
  ⟨.nonterminal n, none, line, children⟩

/-- A token. -/
def leaf (kind : Token.Kind) (lexeme : String) (line : Nat) : ParseTree :=
  ⟨.token kind, some lexeme, line, []⟩

/-- The mark of a nonterminal that vanished. -/
def lambda (line : Nat) : ParseTree := ⟨.empty, none, line, []⟩

/-- The nonterminal at the root. -/
def nonterminal? (t : ParseTree) : Option Nonterminal :=
  match t.tag with
  | .nonterminal n => some n
  | _ => none

/-- The kind of the token at the root. -/
def token? (t : ParseTree) : Option Token.Kind :=
  match t.tag with
  | .token kind => some kind
  | _ => none

/-- How the root is written; nothing if it is no token. -/
def lexeme (t : ParseTree) : String := t.value.getD ""

/-- Whether the root is a nonterminal that vanished: its only child is the mark `λ`. -/
def vanishes (t : ParseTree) : Bool :=
  match t.children with
  | [only] => only.tag = .empty
  | _ => false

/-! ### Measures and views -/

mutual
/-- The number of nodes. -/
def size : ParseTree → Nat
  | ⟨_, _, _, children⟩ => 1 + sizeAll children

/-- The number of nodes in a row of trees. -/
def sizeAll : List ParseTree → Nat
  | [] => 0
  | t :: rest => t.size + sizeAll rest
end

theorem size_eq (t : ParseTree) : t.size = 1 + sizeAll t.children := by
  cases t; rfl

theorem size_le_sizeAll {t : ParseTree} {ts : List ParseTree} (h : t ∈ ts) :
    t.size ≤ sizeAll ts := by
  induction ts with
  | nil => cases h
  | cons a rest ih =>
    rw [sizeAll]
    rcases List.mem_cons.1 h with rfl | h
    · omega
    · have := ih h
      omega

/-- A child is smaller than its parent. -/
theorem size_lt_of_mem {t parent : ParseTree} (h : t ∈ parent.children) : t.size < parent.size := by
  have := size_le_sizeAll h
  rw [size_eq parent]
  omega

mutual
/-- The tokens of a tree, in order. -/
def leaves : ParseTree → List ParseTree
  | ⟨.token kind, value, line, children⟩ => [⟨.token kind, value, line, children⟩]
  | ⟨.empty, _, _, _⟩ => []
  | ⟨.nonterminal _, _, _, children⟩ => leavesAll children

/-- The tokens of a row of trees, in order. -/
def leavesAll : List ParseTree → List ParseTree
  | [] => []
  | t :: rest => t.leaves ++ leavesAll rest
end

/-! ### Text -/

/-- A number of double spaces. -/
def indent : Nat → String
  | 0 => ""
  | level + 1 => "  " ++ indent level

mutual
/-- Adds the text of a tree behind `text`, indented by `level`. -/
def renderOnto (level : Nat) (text : String) : ParseTree → String
  | ⟨tag, value, line, children⟩ =>
    let text := text ++ indent level ++ tag.render
    let text := match value with
      | some lexeme => text ++ ":" ++ lexeme
      | none => text
    renderAllOnto (level + 1) (text ++ " (Line " ++ line.repr ++ ")\n") children

/-- Adds the text of a row of trees behind `text`, indented by `level`. -/
def renderAllOnto (level : Nat) (text : String) : List ParseTree → String
  | [] => text
  | t :: rest => renderAllOnto level (t.renderOnto level text) rest
end

/-- A tree as text: a line for each node, indented by its depth. -/
def render (t : ParseTree) : String := t.renderOnto 0 ""

/-! ### Paths -/

/-- The node that a path of child indices leads to. -/
def descend? (t : ParseTree) : List Nat → Option ParseTree
  | [] => some t
  | i :: path => t.children[i]? >>= (·.descend? path)

/-- The tree with the node at a path changed by `f`, if the path leads to one and `f` succeeds. -/
def alter? (f : ParseTree → Option ParseTree) (t : ParseTree) : List Nat → Option ParseTree
  | [] => f t
  | i :: path => do
    let child ← t.children[i]?
    let child ← alter? f child path
    return { t with children := t.children.set i child }

end ParseTree

end Bistro
