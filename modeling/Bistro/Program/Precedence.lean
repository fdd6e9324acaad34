import Bistro.Program

/-!
# Operator precedence

A flat chain of operands and operators becomes a tree by the precedence of the operators.  The chain
is read from left to right; operators whose right operand is not yet complete wait, each with its
left operand, the innermost first.  An operator completes the waiting ones that bind at least as
tight.

## Main definitions

* `Expr.join` — two operands under an operator.
* `Expr.settle` — completes waiting operators.
* `Expr.ofChain` — the tree of a chain.
-/

namespace Bistro.Expr

/-- Two operands under an operator, on the line of the left one. -/
def join (op : BinaryOp) (left right : Expr) : Expr := binary op left right left.line

/-- An operator that waits for its right operand, with its left operand. -/
abbrev Waiting := Expr × BinaryOp

/-- Completes the waiting operators that bind at least as tight as `precedence`; `last` is the
operand read last. -/
def settle (precedence : Nat) : List Waiting → Expr → List Waiting × Expr
  | [], last => ([], last)
  | (left, op) :: rest, last =>
    if op.precedence < precedence then ((left, op) :: rest, last)
    else settle precedence rest (join op left last)

/-- Reads the rest of a chain. -/
def readChain (waiting : List Waiting) (last : Expr) : List (BinaryOp × Expr) → Expr
  | [] => (settle 0 waiting last).2
  | (op, next) :: rest =>
    let (waiting, left) := settle op.precedence waiting last
    readChain ((left, op) :: waiting) next rest

/-- The tree of a chain that begins with an operand and goes on with operators and operands. -/
def ofChain (first : Expr) (rest : List (BinaryOp × Expr)) : Expr := readChain [] first rest

end Bistro.Expr
