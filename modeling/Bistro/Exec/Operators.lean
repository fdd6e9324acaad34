import Bistro.Exec.Machine

/-!
# Operators

Operators are applied to values that are already computed.  Integers are exact or out of range;
an integer beside a fractional number is converted.

## Main definitions

* `Exec.integerArithmetic`, `Exec.fractionArithmetic` — arithmetic.
* `Exec.equality`, `Exec.order` — comparison.
* `Exec.applyBinary`, `Exec.applyNegation` — any operator.
-/

namespace Bistro.Exec

/-! ### Arithmetic -/

/-- The exact result of an operation on integers, if it fits a word. -/
def integerResult (op : BinaryOp) (a b : Int) : Option Int :=
  match op with
  | .add => Number.checked (a + b)
  | .sub => Number.checked (a - b)
  | .mul => Number.checked (a * b)
  | .div => Number.checkedDiv a b
  | _ => Number.checkedMod a b

/-- Whether an operator divides. -/
def divides (op : BinaryOp) : Bool := op = .div || op = .mod

/-- Arithmetic of integers: the divisor is not zero, and the exact result fits a word and is in the
permitted range. -/
def integerArithmetic (limits : Limits) (op : BinaryOp) (a b : Int) (line : Nat) :
    Exec (Option Value) :=
  if divides op && b = 0 then reject (.divisionByZero op) line
  else match integerResult op a b with
    | none => reject (.overflow a.repr op b.repr) line
    | some n =>
      if limits.integerRange.contains n then return some (.pinch n)
      else reject (.outOfRange n limits.integerRange) line

/-- The rounded result of an operation on fractional numbers. -/
def fractionResult (op : BinaryOp) (x y : Binary64) : Binary64 :=
  match op with
  | .add => x.add y
  | .sub => x.sub y
  | .mul => x.mul y
  | .div => x.div y
  | _ => x.rem y

/-- Arithmetic of fractional numbers: the divisor is not zero, and the result is finite. -/
def fractionArithmetic (op : BinaryOp) (x y : Binary64) (line : Nat) : Exec (Option Value) :=
  if divides op && y.isZero then reject (.divisionByZero op) line
  else if (fractionResult op x y).isFinite then return some (.skim (fractionResult op x y))
  else reject (.overflow (Decimal.render x) op (Decimal.render y)) line

/-- The operator does not apply to the operands. -/
def refuse {α : Type} (op : BinaryOp) (left right : Value) (line : Nat) : Exec (Option α) :=
  reject (.invalidOperands op left.type right.type) line

/-- Arithmetic of any operands; a sum of texts puts them together. -/
def arithmetic (limits : Limits) (op : BinaryOp) (left right : Value) (line : Nat) :
    Exec (Option Value) :=
  match left, right with
  | .pasta s, .pasta t =>
    if op = .add then return some (.pasta (s ++ t)) else refuse op left right line
  | .pinch a, .pinch b => integerArithmetic limits op a b line
  | _, _ =>
    match left.number?, right.number? with
    | some x, some y => fractionArithmetic op x y line
    | _, _ => refuse op left right line

/-! ### Comparison -/

/-- Whether two values are equal: numbers by their order, all else if the types are the same. -/
def equality (op : BinaryOp) (left right : Value) (line : Nat) : Exec (Option Bool) :=
  match left, right with
  | .pinch a, .pinch b => return some (a = b)
  | _, _ =>
    match left.number?, right.number? with
    | some x, some y => return some (x.equals y)
    | _, _ =>
      if left.type = right.type then return some (left.equals right)
      else refuse op left right line

/-- The order of two values.  What is not a number has none, and no finding says so. -/
def order (op : BinaryOp) (left right : Value) (line : Nat) : Exec (Option Ordering) :=
  match left, right with
  | .pinch a, .pinch b => return some (compare a b)
  | .pasta s, .pasta t => return some (compare s t)
  | _, _ =>
    match left.number?, right.number? with
    | some x, some y => return x.compare? y
    | _, _ => refuse op left right line

/-- Whether an operator holds of two values in the given order. -/
def holds (op : BinaryOp) (o : Ordering) : Bool :=
  match op with
  | .less => o = .lt
  | .greater => o = .gt
  | .lessEqual => o ≠ .gt
  | _ => o ≠ .lt

/-! ### Any operator -/

/-- Applies an operator to two values. -/
def applyBinary (limits : Limits) (op : BinaryOp) (left right : Value) (line : Nat) :
    Exec (Option Value) :=
  match op with
  | .add | .sub | .mul | .div | .mod => arithmetic limits op left right line
  | .equal => do return (← equality op left right line).map .bool
  | .notEqual => do return (← equality op left right line).map fun b => .bool !b
  | .less | .greater | .lessEqual | .greaterEqual => do
    return (← order op left right line).map fun o => .bool (holds op o)
  | .both =>
    match left, right with
    | .bool a, .bool b => return some (.bool (a && b))
    | _, _ => refuse op left right line
  | .either =>
    match left, right with
    | .bool a, .bool b => return some (.bool (a || b))
    | _, _ => refuse op left right line

/-- Applies an operator if both operands have a value. -/
def applyBinary? (limits : Limits) (op : BinaryOp) (left right : Option Value) (line : Nat) :
    Exec (Option Value) :=
  match left, right with
  | some left, some right => applyBinary limits op left right line
  | _, _ => return none

/-- Applies a negation, which is written `symbol`. -/
def applyNegation (symbol : String) (f : Bool → Bool) (v : Option Value) (line : Nat) :
    Exec (Option Value) :=
  match v with
  | none => return none
  | some (.bool b) => return some (.bool (f b))
  | some other => reject (.invalidNegation symbol other.type) line

end Bistro.Exec
