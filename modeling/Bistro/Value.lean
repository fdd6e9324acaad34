import Bistro.Number.Decimal

/-!
# Values

What programs compute with: integers (`pinch`), fractional numbers (`skim`), texts (`pasta`), truth
values (`bool`) and arrays (`recipe`).

## Main definitions

* `ValueType`, `Value` — types and values.
* `Value.render` — the text of a value.
* `Value.equals` — equality of values.
* `Value.fitsType` — whether a value may be stored where a type is declared: only if it has that
  very type.
-/

namespace Bistro

/-- The type of a value. -/
inductive ValueType
  /-- Integers. -/
  | pinch
  /-- Fractional numbers. -/
  | skim
  /-- Texts. -/
  | pasta
  /-- Truth values. -/
  | bool
  /-- Arrays. -/
  | recipe
  deriving DecidableEq, Repr, Inhabited

/-- The name of a type. -/
def ValueType.name : ValueType → String
  | pinch => "pinch"
  | skim => "skim"
  | pasta => "pasta"
  | bool => "bool"
  | recipe => "recipe"

/-- A value. -/
inductive Value
  | pinch (n : Int)
  | skim (x : Binary64)
  | pasta (s : String)
  | bool (b : Bool)
  | recipe (items : List Value)
  deriving Repr, Inhabited

namespace Value

/-- The type of a value. -/
def type : Value → ValueType
  | pinch _ => .pinch
  | skim _ => .skim
  | pasta _ => .pasta
  | bool _ => .bool
  | recipe _ => .recipe

/-- The value that elements of an array have before they are set. -/
def default : ValueType → Value
  | .pinch => pinch 0
  | .skim => skim .zero
  | .pasta => pasta ""
  | .bool => bool false
  | .recipe => recipe []

/-- The integer that a value is. -/
def integer? : Value → Option Int
  | pinch n => some n
  | _ => none

/-- The truth value that a value is. -/
def bool? : Value → Option Bool
  | bool b => some b
  | _ => none

/-- A value as a fractional number; an integer is converted. -/
def number? : Value → Option Binary64
  | pinch n => some (.ofInt n)
  | skim x => some x
  | _ => none

/-- Whether a value is a number. -/
def isNumeric : Value → Bool
  | pinch _ => true
  | skim _ => true
  | _ => false

mutual
/-- Equality of values: of the same type and alike, numbers by their order. -/
def equals : Value → Value → Bool
  | pinch a, pinch b => a = b
  | skim x, skim y => x.equals y
  | pasta s, pasta t => s = t
  | bool a, bool b => a = b
  | recipe xs, recipe ys => equalsAll xs ys
  | _, _ => false

/-- Equality of arrays: of the same length, and element by element. -/
def equalsAll : List Value → List Value → Bool
  | [], [] => true
  | x :: xs, y :: ys => equals x y && equalsAll xs ys
  | _, _ => false
end

mutual
/-- The text of a value. -/
def render : Value → String
  | pinch n => n.repr
  | skim x => Decimal.renderPointed x
  | pasta s => s
  | bool true => "yum"
  | bool false => "bleh"
  | recipe items => "[" ++ ", ".intercalate (renderAll items) ++ "]"

/-- The texts of a row of values. -/
def renderAll : List Value → List String
  | [] => []
  | v :: rest => v.render :: renderAll rest
end

/-- Whether a value may be stored where a type is declared. -/
def fitsType (target : ValueType) (v : Value) : Bool := v.type = target

end Value

end Bistro
