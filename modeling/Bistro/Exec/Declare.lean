import Bistro.Exec.Machine

/-!
# Declarations

Variables are declared with the literal that follows them, if it has the declared type.  Arrays
always have as many elements as their length says: what is missing or of the wrong type is filled
with the default value, and an array whose length is not acceptable has none.

## Main definitions

* `Exec.declareVariable`, `Exec.declareArray` — one declaration.
* `Exec.declareAll` — a row of declarations.
-/

namespace Bistro.Exec

/-- Declares a variable. -/
def declareVariable (type : ValueType) (d : Declarator) : Exec Unit := do
  let value ← match d.init with
    | some init => checkType type init.toValue (.initialization d.name) d.line
    | none => pure none
  declare { Binding.scalar d.name type d.line with value }

/-- The length of an array as it is written, if it is acceptable. -/
def arrayLength? (limits : Limits) (dimension : String) : Option Nat :=
  match Number.readInteger? dimension with
  | some n => if 1 ≤ n && n ≤ limits.maxArrayLength then some n.toNat else none
  | none => none

/-- The first elements of an array from literals; one of the wrong type is replaced. -/
def arrayElements (element : ValueType) (name : String) (line : Nat) :
    List Literal → Exec (List Value)
  | [] => return []
  | l :: rest => do
    let v ← checkType element l.toValue (.arrayInitialization name) line
    let rest ← arrayElements element name line rest
    return v.getD (Value.default element) :: rest

/-- Declares an array. -/
def declareArray (limits : Limits) (a : ArrayDeclaration) : Exec Unit := do
  let element := a.element.valueType
  match arrayLength? limits a.dimension with
  | none =>
    report (.invalidArraySize a.dimension a.name) a.line
    -- the name is declared all the same, so that its uses are not reported as well
    declare ((Binding.array a.name element 0 a.line).withValue (.recipe []))
  | some dimension =>
    let given ← match a.elements with
      | none => pure []
      | some literals =>
        if literals.length < dimension then
          report (.missingElements a.name dimension literals.length) a.line
        else if dimension < literals.length then
          report (.tooManyElements a.name dimension literals.length) a.line
        arrayElements element a.name a.line (literals.take dimension)
    -- what is not given is filled up with the value that such elements have at first
    let items := given ++ List.replicate (dimension - given.length) (Value.default element)
    declare ((Binding.array a.name element dimension a.line).withValue (.recipe items))

/-- Makes one declaration. -/
def declareOne (limits : Limits) : Declaration → Exec Unit
  | .variables type declarators => declarators.forM (declareVariable type.valueType)
  | .array a => declareArray limits a

/-- Makes a row of declarations inside `site`, the first of them being the one with number `i`. -/
def declareAll (limits : Limits) (site : Site) (i : Nat) : List Declaration → Exec Unit
  | [] => return
  | d :: rest => do
    atSite (site.child i) (declareOne limits d)
    declareAll limits site (i + 1) rest

end Bistro.Exec
