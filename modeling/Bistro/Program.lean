import Bistro.Value

/-!
# Programs

A program as it is run: every construct has its parts by name, and the operators of an expression
form a tree.  Each construct knows the line it stands on.

## Main definitions

* `DataType`, `Literal` — declared types and literals.
* `Expr`, `BinaryOp` — expressions; `BinaryOp.precedence` tells how tight an operator binds.
* `Statement`, `Branch`, `Case` — statements.
* `Declaration`, `Function`, `Program`.
-/

namespace Bistro

/-! ### Types and literals -/

/-- The declared type of a variable, of an element or of a result. -/
inductive DataType
  /-- Integers. -/
  | pinch
  /-- Fractional numbers. -/
  | skim
  /-- Texts. -/
  | pasta
  /-- Truth values. -/
  | bool
  deriving DecidableEq, Repr, Inhabited

/-- The type of the values of a declared type. -/
def DataType.valueType : DataType → ValueType
  | pinch => .pinch
  | skim => .skim
  | pasta => .pasta
  | bool => .bool

/-- A literal. -/
inductive Literal
  | pinch (n : Int)
  | skim (x : Binary64)
  | pasta (s : String)
  | bool (b : Bool)
  deriving DecidableEq, Repr, Inhabited

/-- The value of a literal. -/
def Literal.toValue : Literal → Value
  | pinch n => .pinch n
  | skim x => .skim x
  | pasta s => .pasta s
  | bool b => .bool b

/-! ### Expressions -/

/-- An operator with two operands. -/
inductive BinaryOp
  /-- Sum, and concatenation of texts. -/
  | add
  | sub
  | mul
  | div
  | mod
  | equal
  | notEqual
  | less
  | greater
  | lessEqual
  | greaterEqual
  | both
  | either
  deriving DecidableEq, Repr, Inhabited

namespace BinaryOp

/-- How tight an operator binds.  Operators of one level group to the left. -/
def precedence : BinaryOp → Nat
  | either => 1
  | both => 2
  | equal | notEqual => 3
  | less | greater | lessEqual | greaterEqual => 4
  | add | sub => 5
  | mul | div | mod => 6

/-- How an operator is written. -/
def symbol : BinaryOp → String
  | add => "+"
  | sub => "-"
  | mul => "*"
  | div => "/"
  | mod => "%"
  | equal => "=="
  | notEqual => "!="
  | less => "<"
  | greater => ">"
  | lessEqual => "<="
  | greaterEqual => ">="
  | both => "&&"
  | either => "??"

end BinaryOp

/-- An expression. -/
inductive Expr
  | literal (value : Literal) (line : Nat)
  /-- The value of a variable. -/
  | var (name : String) (line : Nat)
  /-- An element of an array. -/
  | element (name : String) (index : Int) (line : Nat)
  /-- The result of a call. -/
  | call (name : String) (args : List Expr) (line : Nat)
  | binary (op : BinaryOp) (left right : Expr) (line : Nat)
  | not (operand : Expr) (line : Nat)
  | doubleNot (operand : Expr) (line : Nat)
  deriving Repr, Inhabited

/-- The line of an expression. -/
def Expr.line : Expr → Nat
  | literal _ line => line
  | var _ line => line
  | element _ _ line => line
  | call _ _ line => line
  | binary _ _ _ line => line
  | not _ line => line
  | doubleNot _ line => line

/-! ### Statements -/

/-- What an assignment stores into. -/
inductive Place
  | var (name : String)
  | element (name : String) (index : Int)
  deriving DecidableEq, Repr, Inhabited

/-- The name in a place. -/
def Place.name : Place → String
  | var name => name
  | element name _ => name

/-- An assignment operator. -/
inductive AssignOp
  | assign
  | add
  | sub
  | mul
  | div
  | mod
  deriving DecidableEq, Repr, Inhabited

/-- The operator that an assignment applies to the former value first. -/
def AssignOp.binary? : AssignOp → Option BinaryOp
  | assign => none
  | add => some .add
  | sub => some .sub
  | mul => some .mul
  | div => some .div
  | mod => some .mod

/-- A step by one. -/
inductive StepOp
  | increment
  | decrement
  deriving DecidableEq, Repr, Inhabited

namespace StepOp

/-- How a step is written. -/
def symbol : StepOp → String
  | increment => "++"
  | decrement => "--"

/-- The operator that takes a step. -/
def binary : StepOp → BinaryOp
  | increment => .add
  | decrement => .sub

end StepOp

mutual
/-- A statement. -/
inductive Statement
  /-- A call whose result is not used. -/
  | call (name : String) (args : List Expr) (line : Nat)
  | assign (target : Place) (op : AssignOp) (value : Expr) (line : Nat)
  /-- A step of a variable. -/
  | step (name : String) (op : StepOp) (line : Nat)
  /-- A choice by conditions. -/
  | taste (branches : List Branch) (otherwise : Option (List Statement)) (line : Nat)
  /-- A choice by the value of a variable. -/
  | flip (subject : String) (cases : List Case) (otherwise : Option (List Statement)) (line : Nat)
  /-- A counting loop; `declares` tells whether it declares its variable. -/
  | forLoop (declares : Bool) (var : String) (init condition : Expr) (stepVar : String)
      (step : StepOp) (body : List Statement) (line : Nat)
  /-- A loop that tests before its body. -/
  | simmer (condition : Expr) (body : List Statement) (line : Nat)
  /-- A loop that tests after its body. -/
  | keepmix (body : List Statement) (condition : Expr) (line : Nat)
  /-- Output of the parts put together. -/
  | serve (parts : List Expr) (line : Nat)
  /-- Input into a variable. -/
  | make (target : String) (line : Nat)

/-- A branch of a choice by conditions. -/
structure Branch where
  condition : Expr
  /-- What is done if it holds. -/
  body : List Statement
  line : Nat

/-- An arm of a choice by value. -/
structure Case where
  value : Literal
  /-- What is done if the variable has it. -/
  body : List Statement
  line : Nat
end

instance : Inhabited Statement := ⟨.make "" 0⟩

/-- The line of a statement. -/
def Statement.line : Statement → Nat
  | call _ _ line => line
  | assign _ _ _ line => line
  | step _ _ line => line
  | taste _ _ line => line
  | flip _ _ _ line => line
  | forLoop _ _ _ _ _ _ _ line => line
  | simmer _ _ line => line
  | keepmix _ _ line => line
  | serve _ line => line
  | make _ line => line

/-! ### Declarations, functions, programs -/

/-- A declared variable. -/
structure Declarator where
  name : String
  /-- Its first value. -/
  init : Option Literal
  /-- The line of its name. -/
  line : Nat
  deriving DecidableEq, Repr, Inhabited

/-- A declared array. -/
structure ArrayDeclaration where
  element : DataType
  name : String
  /-- Its length as it is written. -/
  dimension : String
  /-- Its first elements. -/
  elements : Option (List Literal)
  line : Nat
  deriving DecidableEq, Repr, Inhabited

/-- A declaration. -/
inductive Declaration
  /-- Variables of one type. -/
  | variables (type : DataType) (declarators : List Declarator)
  | array (array : ArrayDeclaration)
  deriving DecidableEq, Repr, Inhabited

/-- A parameter of a function. -/
structure Parameter where
  type : DataType
  name : String
  line : Nat
  deriving DecidableEq, Repr, Inhabited

/-- A function. -/
structure Function where
  name : String
  /-- The type of its result; nothing for a function without one. -/
  returns : Option DataType
  parameters : List Parameter
  locals : List Declaration
  body : List Statement
  /-- The expression that gives its result. -/
  result : Option Expr
  line : Nat
  deriving Inhabited

/-- A program. -/
structure Program where
  globals : List Declaration
  functions : List Function
  /-- The local declarations of the entry point. -/
  locals : List Declaration
  /-- The statements of the entry point. -/
  body : List Statement
  /-- The result of the entry point. -/
  exitCode : Int
  /-- The line of that result. -/
  exitLine : Nat
  deriving Inhabited

end Bistro
