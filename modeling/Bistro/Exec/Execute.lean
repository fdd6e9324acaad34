import Bistro.Exec.Evaluate
import Bistro.Exec.Store

/-!
# Executing statements

Statements are executed in order, each at its own site.  A finding ends the statement it belongs to
and nothing else.

## Main definitions

* `Exec.execute`, `Exec.executeAll` — one statement, and a row of them.
* `Exec.beginFor` — the beginning of a counting loop.
-/

namespace Bistro.Exec

/-! ### Simple statements -/

/-- A call whose result is not used. -/
def callStatement (limits : Limits) (call : Call) (name : String) (args : List Expr) (line : Nat) :
    Exec Unit := do
  let some f ← resolveFunction name line | return
  let values ← evaluateAll limits call args
  let _ ← call f line values

/-- Serves the texts of the parts put together, if all have a value. -/
def serveParts (limits : Limits) (call : Call) (parts : List Expr) (line : Nat) : Exec Unit := do
  let some values := allValues (← evaluateAll limits call parts) | return
  let text := values.foldl (fun text v => text ++ v.render) ""
  modify fun m => { m with output := m.output.serve text line }

/-- Gives a declared variable of a counting loop its first value.  Tells whether it has one. -/
def declareLoopVariable (var : String) (initial : Option Value) (line : Nat) : Exec Bool := do
  let value ← match initial with
    | some v => checkType .pinch v (.initialization var) line
    | none => pure none
  declare { Binding.scalar var .pinch line with value }
  return value.isSome

/-- Gives an existing variable its first value in a counting loop.  Tells whether it has it. -/
def reuseLoopVariable (var : String) (initial : Option Value) (line : Nat) : Exec Bool := do
  match ← lookup var with
  | none =>
    report (.undeclared var) line
    return false
  | some b =>
    match b.kind with
    | .scalar target =>
      let some v := initial | return false
      let some v ← checkType target v (.initialization var) line | return false
      store var v
      return true
    | _ =>
      report (.loopVariable var) line
      return false

/-- Begins a counting loop.  Tells whether its variable has a value. -/
def beginFor (declares : Bool) (var : String) (initial : Option Value) (line : Nat) : Exec Bool :=
  if declares then declareLoopVariable var initial line else reuseLoopVariable var initial line

/-! ### All statements -/

mutual
/-- Executes a statement at its site. -/
def execute (limits : Limits) (call : Call) (site : Site) : Statement → Exec Unit
  | .call name args line => atSite site (callStatement limits call name args line)
  | .assign target op value line => atSite site do
    let v ← evaluate limits call value
    assign limits target op v line
  | .step name op line => atSite site do
    let _ ← takeStep limits name op line
  | .taste branches otherwise _ => atSite site
    (executeBranches limits call site 0 branches
      (executeOptional limits call (site.child branches.length) otherwise))
  | .flip subject cases otherwise line => atSite site do
    let some v ← readVariable subject line | return
    executeCases limits call site subject v 0 cases
      (executeOptional limits call (site.child cases.length) otherwise)
  | .forLoop declares var init condition stepVar step body line => atSite site do
    let initial ← evaluate limits call init
    -- the variable is declared around the loop, and each pass has a scope of its own inside
    if ← beginFor declares var initial line then
      repeatWhile (test limits call condition)
        (do
          inScope (·.push .loop) (executeAll limits call site 0 body)
          takeStep limits stepVar step line)
        (report (.loopStopped "for" limits.maxLoopIterations) line) limits.maxLoopIterations
  | .simmer condition body line => atSite site
    (repeatWhile (test limits call condition)
      (do
        inScope (·.push .loop) (executeAll limits call site 0 body)
        return true)
      (report (.loopStopped "simmer" limits.maxLoopIterations) line) limits.maxLoopIterations)
  | .keepmix body condition line => atSite site
    (repeatUntil (inScope (·.push .loop) (executeAll limits call site 0 body))
      (test limits call condition)
      (report (.loopStopped "keepmix" limits.maxLoopIterations) line) limits.maxLoopIterations)
  | .serve parts line => atSite site (serveParts limits call parts line)
  | .make target line => atSite site (readInput limits target line)

/-- Executes a row of statements inside `site`, the first of them being the one with number `i`. -/
def executeAll (limits : Limits) (call : Call) (site : Site) (i : Nat) :
    List Statement → Exec Unit
  | [] => return
  | s :: rest => do
    execute limits call (site.child i) s
    executeAll limits call site (i + 1) rest

/-- Executes a block that may be missing, in a scope of its own. -/
def executeOptional (limits : Limits) (call : Call) (site : Site) :
    Option (List Statement) → Exec Unit
  | none => return
  | some body => inScope (·.push .branch) (executeAll limits call site 0 body)

/-- Executes the first branch whose condition holds, from the one with number `i` on, or else does
`otherwise`. -/
def executeBranches (limits : Limits) (call : Call) (site : Site) (i : Nat) :
    List Branch → Exec Unit → Exec Unit
  | [], otherwise => otherwise
  | ⟨condition, body, _⟩ :: rest, otherwise => do
    if ← test limits call condition then
      inScope (·.push .branch) (executeAll limits call (site.child i) 0 body)
    else executeBranches limits call site (i + 1) rest otherwise

/-- Executes the first arm with the value of the variable, from the one with number `i` on, or else
does `otherwise`.  An arm of another type is passed over. -/
def executeCases (limits : Limits) (call : Call) (site : Site) (subject : String) (v : Value)
    (i : Nat) : List Case → Exec Unit → Exec Unit
  | [], otherwise => otherwise
  | ⟨value, body, line⟩ :: rest, otherwise =>
    let candidate := value.toValue
    if candidate.type ≠ v.type then do
      report (.caseMismatch candidate.render v.type subject) line
      executeCases limits call site subject v (i + 1) rest otherwise
    else if candidate.equals v then
      inScope (·.push .branch) (executeAll limits call (site.child i) 0 body)
    else executeCases limits call site subject v (i + 1) rest otherwise
end

end Bistro.Exec
