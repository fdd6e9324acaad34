import Bistro.Diagnostic
import Bistro.Limits
import Bistro.Program

/-!
# Findings of a run

The causes of diagnostics, and their wording.

## Main definitions

* `Finding.Use` — what a value of the wrong type was meant for.
* `Finding` — a cause.
* `Finding.kind`, `Finding.message`, `Finding.identifier?` — how it is reported.
* `Finding.onLine` — the diagnostic on a line.
-/

namespace Bistro

/-- What a value was meant for. -/
inductive Finding.Use
  /-- The first value of a variable. -/
  | initialization (name : String)
  /-- An element of an array at its declaration. -/
  | arrayInitialization (name : String)
  /-- An argument of a call: its place, the function and the parameter. -/
  | argument (place : Nat) (function parameter : String)
  | result (function : String)
  | assignment (name : String)
  | elementAssignment (name : String) (index : Nat)
  /-- The value of a variable after a step. -/
  | update (name : String)
  deriving DecidableEq, Repr, Inhabited

namespace Finding.Use

/-- The wording of a use. -/
def describe : Use → String
  | initialization name => "initialization of '" ++ name ++ "'"
  | arrayInitialization name => "array initialization of '" ++ name ++ "'"
  | argument place function _ => "argument " ++ place.repr ++ " of '" ++ function ++ "'"
  | result function => "return value of '" ++ function ++ "'"
  | assignment name => "assignment to '" ++ name ++ "'"
  | elementAssignment name index => "assignment to '" ++ name ++ "[" ++ index.repr ++ "]'"
  | update name => "update of '" ++ name ++ "'"

/-- The name that a use is about. -/
def name : Use → String
  | initialization name => name
  | arrayInitialization name => name
  | argument _ _ parameter => parameter
  | result function => function
  | assignment name => name
  | elementAssignment name _ => name
  | update name => name

end Finding.Use

/-- A cause of a diagnostic. -/
inductive Finding
  /-- A variable is declared under the name of a function. -/
  | duplicateName (name : String)
  /-- A function is declared under a name that is taken. -/
  | duplicateFunction (name : String)
  | undeclared (name : String)
  /-- A name that is assigned to is not declared. -/
  | assignUndeclared (name : String)
  | undeclaredFunction (name : String)
  | unset (name : String)
  | mismatch (use : Finding.Use) (found : ValueType) (target : String)
  /-- A function is used as a value. -/
  | functionAsValue (name : String)
  /-- A function is assigned to. -/
  | assignFunction (name : String)
  /-- The variable of a loop is no scalar. -/
  | loopVariable (name : String)
  /-- The value of an arm has another type than the variable. -/
  | caseMismatch (case : String) (type : ValueType) (subject : String)
  | invalidOperands (op : BinaryOp) (left right : ValueType)
  /-- A negation is applied to what is no truth value. -/
  | invalidNegation (symbol : String) (operand : ValueType)
  /-- A step is taken with what is no scalar. -/
  | stepOfKind (op : StepOp) (name : String) (kind : String)
  /-- A step is taken with what is no number. -/
  | stepOfType (op : StepOp) (name : String) (type : ValueType)
  | overflow (left : String) (op : BinaryOp) (right : String)
  /-- The integer result of an operation is out of the permitted range. -/
  | outOfRange (n : Int) (range : IntegerRange)
  | divisionByZero (op : BinaryOp)
  | invalidCondition (found : ValueType)
  | missingElements (name : String) (dimension given : Nat)
  | tooManyElements (name : String) (dimension given : Nat)
  | invalidArraySize (dimension : String) (name : String)
  | outOfBounds (name : String) (index : Int) (dimension : Nat)
  | notAnArray (name : String)
  | notCallable (name : String)
  /-- A call has the wrong number of arguments. -/
  | argumentCount (name : String) (expected given : Nat)
  | voidFunction (name : String)
  /-- A loop was stopped. -/
  | loopStopped (keyword : String) (limit : Nat)
  /-- A call was refused. -/
  | callRefused (name : String) (limit : Nat)
  /-- Input is asked for what is no scalar. -/
  | inputOfKind (name : String) (kind : String)
  /-- Input was cancelled. -/
  | inputCancelled (name : String)
  /-- Input spells no value of the type. -/
  | invalidInput (name : String) (type : ValueType) (text : String)
  /-- The result of the entry point is not acceptable. -/
  | exitCode (accepted : List Int)
  | unusedVariable (name : String)
  deriving DecidableEq, Repr, Inhabited

namespace Finding

/-- The kind of diagnostic that a cause has. -/
def kind : Finding → Diagnostic.Kind
  | duplicateName _ | duplicateFunction _ => .duplicateDeclaration
  | undeclared _ | assignUndeclared _ => .undeclaredIdentifier
  | undeclaredFunction _ => .undeclaredFunction
  | unset _ => .unsetValue
  | mismatch .. | functionAsValue _ | assignFunction _ | loopVariable _ | caseMismatch .. =>
    .typeMismatch
  | invalidOperands .. | invalidNegation .. | stepOfKind .. | stepOfType .. => .invalidOperands
  | overflow .. | outOfRange .. => .arithmeticOverflow
  | divisionByZero _ => .divisionByZero
  | invalidCondition _ => .invalidCondition
  | missingElements .. => .missingElements
  | tooManyElements .. => .tooManyElements
  | invalidArraySize .. => .invalidArraySize
  | outOfBounds .. => .arrayOutOfBounds
  | notAnArray _ => .notAnArray
  | notCallable _ => .notCallable
  | argumentCount _ expected given =>
    if given < expected then .missingArguments else .tooManyArguments
  | voidFunction _ => .voidFunction
  | loopStopped .. => .infiniteLoopRisk
  | callRefused .. => .callDepthExceeded
  | inputOfKind .. | inputCancelled _ | invalidInput .. => .invalidValue
  | exitCode _ => .invalidTerminationCode
  | unusedVariable _ => .unusedVariable

/-- The wording of a cause. -/
def message : Finding → String
  | duplicateName name =>
    "Duplicate declaration of '" ++ name ++ "': the name is already used by a function"
  | duplicateFunction name => "Duplicate declaration of function '" ++ name ++ "'"
  | undeclared name => "Undeclared identifier '" ++ name ++ "'"
  | assignUndeclared name => "Assignment to undeclared identifier '" ++ name ++ "'"
  | undeclaredFunction name => "Function '" ++ name ++ "' is not declared"
  | unset name => "Variable '" ++ name ++ "' is used before it is assigned a value"
  | mismatch use found target =>
    "Type mismatch in " ++ use.describe ++ ": cannot assign '" ++ found.name ++ "' to '" ++ target
      ++ "'"
  | functionAsValue name =>
    "Function '" ++ name ++ "' cannot be used as a value without calling it"
  | assignFunction name => "Cannot assign to function '" ++ name ++ "'"
  | loopVariable name => "Loop variable '" ++ name ++ "' must be a scalar"
  | caseMismatch case type subject =>
    "Case value " ++ case ++ " does not match the type '" ++ type.name ++ "' of '" ++ subject ++ "'"
  | invalidOperands op left right =>
    "Operator '" ++ op.symbol ++ "' cannot be applied to '" ++ left.name ++ "' and '" ++ right.name
      ++ "'"
  | invalidNegation symbol operand =>
    "Operator '" ++ symbol ++ "' requires a 'bool' operand, got '" ++ operand.name ++ "'"
  | stepOfKind op name kind =>
    "Operator '" ++ op.symbol ++ "' cannot be applied to '" ++ name ++ "' of type '" ++ kind ++ "'"
  | stepOfType op _ type =>
    "Operator '" ++ op.symbol ++ "' requires a numeric operand, got '" ++ type.name ++ "'"
  | overflow left op right =>
    "Arithmetic overflow in " ++ left ++ " " ++ op.symbol ++ " " ++ right
  | outOfRange n range =>
    "Integer result " ++ n.repr ++ " is outside the range " ++ range.low.repr ++ "..="
      ++ range.high.repr
  | divisionByZero op => "Division by zero in '" ++ op.symbol ++ "'"
  | invalidCondition found => "Condition must evaluate to a 'bool', got '" ++ found.name ++ "'"
  | missingElements name dimension given =>
    "Array '" ++ name ++ "' expects " ++ dimension.repr ++ " elements but " ++ given.repr
      ++ " were given"
  | tooManyElements name dimension given =>
    "Array '" ++ name ++ "' holds " ++ dimension.repr ++ " elements but " ++ given.repr
      ++ " were given"
  | invalidArraySize dimension name =>
    "Invalid array size '" ++ dimension ++ "' for '" ++ name ++ "'"
  | outOfBounds name index dimension =>
    "Index " ++ index.repr ++ " is out of bounds for array '" ++ name ++ "' of size "
      ++ dimension.repr
  | notAnArray name => "'" ++ name ++ "' is not an array"
  | notCallable name => "'" ++ name ++ "' is not a function"
  | argumentCount name expected given =>
    "Function '" ++ name ++ "' expects " ++ expected.repr ++ " argument(s) but " ++ given.repr
      ++ " were given"
  | voidFunction name => "Function '" ++ name ++ "' does not return a value"
  | loopStopped keyword limit =>
    "'" ++ keyword ++ "' loop exceeded " ++ limit.repr ++ " iterations and was stopped"
  | callRefused name limit =>
    "Call to '" ++ name ++ "' exceeds the maximum call depth of " ++ limit.repr
  | inputOfKind name kind => "Cannot read input into '" ++ name ++ "' of type '" ++ kind ++ "'"
  | inputCancelled name => "Input for '" ++ name ++ "' was cancelled"
  | invalidInput name type text =>
    "Invalid " ++ type.name ++ " value '" ++ text ++ "' for '" ++ name ++ "'"
  | exitCode accepted =>
    "Program must terminate with "
      ++ " or ".intercalate (accepted.map fun code => "'spit " ++ code.repr ++ ";'")
  | unusedVariable name => "Unused local variable '" ++ name ++ "'"

/-- The name that a cause is about. -/
def identifier? : Finding → Option String
  | duplicateName name | duplicateFunction name | undeclared name | assignUndeclared name
  | undeclaredFunction name | unset name | functionAsValue name | assignFunction name
  | loopVariable name | stepOfKind _ name _ | stepOfType _ name _ | missingElements name _ _
  | tooManyElements name _ _ | invalidArraySize _ name | outOfBounds name _ _ | notAnArray name
  | notCallable name | argumentCount name _ _ | voidFunction name | callRefused name _
  | inputOfKind name _ | inputCancelled name | invalidInput name _ _ | unusedVariable name =>
    some name
  | mismatch use _ _ => some use.name
  | caseMismatch _ _ subject => some subject
  | invalidOperands .. | invalidNegation .. | overflow .. | outOfRange .. | divisionByZero _
  | invalidCondition _ | loopStopped .. | exitCode _ => none

/-- The diagnostic of a cause on a line. -/
def onLine (f : Finding) (line : Nat) : Diagnostic := ⟨f.kind, f.message, some line, f.identifier?⟩

end Finding

end Bistro
