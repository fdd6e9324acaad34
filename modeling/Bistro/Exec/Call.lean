import Bistro.Exec.Declare
import Bistro.Exec.Execute

/-!
# Calling functions

A call is carried out if the number of arguments is right, all have a value and fit their
parameters, and the calls are not nested too deep.  The function runs in a scope that links to the
global one.

## Main definitions

* `Exec.bindArguments` — the values of the parameters.
* `Exec.runBody` — the body of a function.
* `Exec.invoke` — a call with a number of further calls that may be nested in it.
-/

namespace Bistro.Exec

/-- The values of the parameters, from the one with number `place` on; all are checked. -/
def checkArguments (f : Function) (line : Nat) (place : Nat) :
    List Parameter → List Value → Exec (List (Option Value))
  | p :: parameters, v :: values => do
    let v ← checkType p.type.valueType v (.argument place f.name p.name) line
    let vs ← checkArguments f line (place + 1) parameters values
    return v :: vs
  | _, _ => return []

/-- Declares the parameters with their values. -/
def bindParameters : List Parameter → List Value → Exec Unit
  | p :: parameters, v :: values => do
    declare ((Binding.scalar p.name p.type.valueType p.line).withValue v)
    bindParameters parameters values
  | _, _ => return

/-- The result of a function, which must be of the declared type. -/
def functionResult (limits : Limits) (call : Call) (f : Function) (site : Site) :
    Exec (Option Value) :=
  match f.result, f.returns with
  | some e, some type => atSite site do
    let some v ← evaluate limits call e | return none
    checkType type.valueType v (.result f.name) e.line
  | _, _ => return none

/-- Runs the body of a function with the values of its parameters. -/
def runBody (limits : Limits) (call : Call) (f : Function) (values : List Value) :
    Exec (Option Value) :=
  let site : Site := ⟨.function f.name, []⟩
  inCall do
    bindParameters f.parameters values
    declareAll limits (site.child 0) 0 f.locals
    executeAll limits call (site.child 1) 0 f.body
    functionResult limits call f (site.child 2)

/-- Calls a function, in which at most `depth` calls may still be nested, this one with them. -/
def invoke (limits : Limits) : Nat → Call
  | depth, f, line, args => do
    if args.length ≠ f.parameters.length then
      reject (.argumentCount f.name f.parameters.length args.length) line
    else match allValues args with
      | none => return none
      | some values =>
        -- a call that lacks a value was given up, and is not reported as too deep
        match depth with
        | 0 => reject (.callRefused f.name limits.maxCallDepth) line
        | depth + 1 => do
          match allValues (← checkArguments f line 1 f.parameters values) with
          | none => return none
          | some values => runBody limits (invoke limits depth) f values

end Bistro.Exec
