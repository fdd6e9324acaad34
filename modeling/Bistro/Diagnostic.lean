/-!
# Diagnostics

What is found while a program runs is not an error of the run: it is recorded, and the run goes on.
A diagnostic belongs to the site that raised it.  The same diagnostic is recorded once for each
site, so a loop or a function that is called twice repeats nothing, while two statements on one line
each have their own.

## Main definitions

* `Diagnostic.Kind`, `Diagnostic.Severity`, `Diagnostic` — one finding.
* `Diagnostics` — what was recorded, and the present site.
* `Diagnostics.push`, `Diagnostics.pushOnce` — records a finding for the present site, or for the
  run.

## Main results

* `Diagnostics.items_push` — a finding is recorded last, or was recorded before.
-/

namespace Bistro

/-- How grave a finding is. -/
inductive Diagnostic.Severity
  /-- The program is wrong. -/
  | error
  /-- The program may be wrong. -/
  | warning
  deriving DecidableEq, Repr, Inhabited

/-- What was found. -/
inductive Diagnostic.Kind
  /-- A name is declared that is taken by a function. -/
  | duplicateDeclaration
  | undeclaredIdentifier
  | undeclaredFunction
  | unsetValue
  | typeMismatch
  | invalidOperands
  | arithmeticOverflow
  | divisionByZero
  | invalidCondition
  | missingElements
  | tooManyElements
  | invalidArraySize
  | arrayOutOfBounds
  | notAnArray
  | notCallable
  | missingArguments
  | tooManyArguments
  | voidFunction
  | infiniteLoopRisk
  | callDepthExceeded
  | invalidValue
  | invalidTerminationCode
  | unusedVariable
  deriving DecidableEq, Repr, Inhabited

namespace Diagnostic.Kind

/-- The code of a kind. -/
def code : Kind → String
  | duplicateDeclaration => "DUPLICATE_DECLARATION"
  | undeclaredIdentifier => "UNDECLARED_IDENTIFIER"
  | undeclaredFunction => "UNDECLARED_FUNCTION"
  | unsetValue => "UNSET_VALUE"
  | typeMismatch => "TYPE_MISMATCH"
  | invalidOperands => "INVALID_OPERANDS"
  | arithmeticOverflow => "ARITHMETIC_OVERFLOW"
  | divisionByZero => "DIVISION_BY_ZERO"
  | invalidCondition => "INVALID_CONDITION"
  | missingElements => "MISSING_ELEMENTS"
  | tooManyElements => "TOO_MANY_ELEMENTS"
  | invalidArraySize => "INVALID_ARRAY_SIZE"
  | arrayOutOfBounds => "ARRAY_OUT_OF_BOUNDS"
  | notAnArray => "NOT_AN_ARRAY"
  | notCallable => "NOT_CALLABLE"
  | missingArguments => "MISSING_ARGUMENTS"
  | tooManyArguments => "TOO_MANY_ARGUMENTS"
  | voidFunction => "VOID_FUNCTION"
  | infiniteLoopRisk => "INFINITE_LOOP_RISK"
  | callDepthExceeded => "CALL_DEPTH_EXCEEDED"
  | invalidValue => "INVALID_VALUE"
  | invalidTerminationCode => "INVALID_TERMINATION_CODE"
  | unusedVariable => "UNUSED_VARIABLE"

/-- All kinds. -/
def all : List Kind :=
  [duplicateDeclaration, undeclaredIdentifier, undeclaredFunction, unsetValue, typeMismatch,
    invalidOperands, arithmeticOverflow, divisionByZero, invalidCondition, missingElements,
    tooManyElements, invalidArraySize, arrayOutOfBounds, notAnArray, notCallable, missingArguments,
    tooManyArguments, voidFunction, infiniteLoopRisk, callDepthExceeded, invalidValue,
    invalidTerminationCode, unusedVariable]

/-- The kind with a given code. -/
def ofCode? (code : String) : Option Kind := all.find? (·.code = code)

/-- How grave a kind is: only an unused variable is no error. -/
def severity : Kind → Severity
  | unusedVariable => .warning
  | _ => .error

end Diagnostic.Kind

/-- One finding. -/
structure Diagnostic where
  kind : Diagnostic.Kind
  message : String
  /-- The line it belongs to. -/
  line : Option Nat
  /-- The name it is about. -/
  identifier : Option String
  deriving DecidableEq, Repr, Inhabited

namespace Diagnostic

/-- Whether a finding is an error. -/
def isError (d : Diagnostic) : Bool := d.kind.severity = .error

/-- The text of a finding. -/
def render (d : Diagnostic) : String :=
  "[" ++ d.kind.code ++ "] " ++ d.message
    ++ match d.line with
      | some line => " on line " ++ line.repr
      | none => ""

end Diagnostic

/-- The findings of a run; `σ` is the type of sites. -/
structure Diagnostics (σ : Type) where
  /-- What was recorded, the latest first, with the site or with none if it belongs to the run. -/
  records : List (Diagnostic × Option σ)
  /-- The present site. -/
  site : σ
  deriving DecidableEq, Repr, Inhabited

namespace Diagnostics

variable {σ : Type} [DecidableEq σ]

/-- Nothing is recorded yet. -/
def initial (site : σ) : Diagnostics σ := ⟨[], site⟩

/-- What was recorded, in order. -/
def items (ds : Diagnostics σ) : List Diagnostic := (ds.records.map Prod.fst).reverse

/-- Goes to another site. -/
def enter (site : σ) (ds : Diagnostics σ) : Diagnostics σ := { ds with site }

/-- Records a finding, unless it was recorded under the same key. -/
def record (key : Option σ) (d : Diagnostic) (ds : Diagnostics σ) : Diagnostics σ :=
  if (d, key) ∈ ds.records then ds else { ds with records := (d, key) :: ds.records }

/-- Records a finding for the present site. -/
def push (d : Diagnostic) (ds : Diagnostics σ) : Diagnostics σ := ds.record (some ds.site) d

/-- Records a finding for the run, whatever the site. -/
def pushOnce (d : Diagnostic) (ds : Diagnostics σ) : Diagnostics σ := ds.record none d

/-- The errors, in order. -/
def errors (ds : Diagnostics σ) : List Diagnostic := ds.items.filter Diagnostic.isError

/-- The warnings, in order. -/
def warnings (ds : Diagnostics σ) : List Diagnostic := ds.items.filter (!·.isError)

/-- Whether there is an error. -/
def hasErrors (ds : Diagnostics σ) : Bool := ds.records.any (·.1.isError)

/-- The findings of one kind, in order. -/
def ofKind (kind : Diagnostic.Kind) (ds : Diagnostics σ) : List Diagnostic :=
  ds.items.filter (·.kind = kind)

/-! ### What is recorded -/

/-- A finding is recorded last, or was recorded before under the same key. -/
theorem items_record (key : Option σ) (d : Diagnostic) (ds : Diagnostics σ) :
    (ds.record key d).items = if (d, key) ∈ ds.records then ds.items else ds.items ++ [d] := by
  unfold record
  split <;> simp_all [items]

/-- A finding is recorded last, or was recorded before at the present site. -/
theorem items_push (d : Diagnostic) (ds : Diagnostics σ) :
    (ds.push d).items = if (d, some ds.site) ∈ ds.records then ds.items else ds.items ++ [d] :=
  items_record (some ds.site) d ds

end Diagnostics

end Bistro
