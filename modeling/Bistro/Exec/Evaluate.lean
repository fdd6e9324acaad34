import Bistro.Exec.Operators

/-!
# Evaluating expressions

An expression has a value, or it has none and a finding says why.  Both operands of an operator are
evaluated before either is looked at, so there is no short cut for `&&` and `??`.

How a call is carried out is a parameter: `Call` takes a function, the line of the call and the
values of the arguments.

## Main definitions

* `Exec.Call` — how calls are carried out.
* `Exec.evaluate`, `Exec.evaluateAll` — the values of expressions.
* `Exec.test` — whether a condition holds.
-/

namespace Bistro.Exec

/-- How a function is called: with the line of the call and the values of its arguments, of which
some may be missing. -/
abbrev Call := Function → Nat → List (Option Value) → Exec (Option Value)

/-- The function that a name stands for. -/
def resolveFunction (name : String) (line : Nat) : Exec (Option Function) := do
  match ← lookup name with
  | none => reject (.undeclaredFunction name) line
  | some b =>
    match b.kind with
    | .function f => return some f
    | _ => reject (.notCallable name) line

mutual
/-- The value of an expression. -/
def evaluate (limits : Limits) (call : Call) : Expr → Exec (Option Value)
  | .literal v _ => return some v.toValue
  | .var name line => readVariable name line
  | .element name index line => readElement name index line
  | .call name args line => do
    match ← resolveFunction name line with
    | none => return none
    | some f =>
      if f.returns.isNone then reject (.voidFunction name) line
      else
        let values ← evaluateAll limits call args
        call f line values
  | .binary op left right line => do
    let left ← evaluate limits call left
    let right ← evaluate limits call right
    applyBinary? limits op left right line
  | .not operand line => do
    let v ← evaluate limits call operand
    applyNegation "!" (!·) v line
  | .doubleNot operand line => do
    let v ← evaluate limits call operand
    applyNegation "!!" id v line

/-- The values of a row of expressions. -/
def evaluateAll (limits : Limits) (call : Call) : List Expr → Exec (List (Option Value))
  | [] => return []
  | e :: rest => do
    let v ← evaluate limits call e
    let vs ← evaluateAll limits call rest
    return v :: vs
end

/-- Whether a condition holds.  What is no truth value does not. -/
def test (limits : Limits) (call : Call) (condition : Expr) : Exec Bool := do
  match ← evaluate limits call condition with
  | some (.bool b) => return b
  | some other =>
    report (.invalidCondition other.type) condition.line
    return false
  | none => return false

/-- All values of a row, if none is missing. -/
def allValues : List (Option Value) → Option (List Value)
  | [] => some []
  | none :: _ => none
  | some v :: rest => (allValues rest).map (v :: ·)

end Bistro.Exec
