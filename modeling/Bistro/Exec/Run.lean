import Bistro.Exec.Call

/-!
# Running a program

The globals are declared, then all functions, so that a function may be called before its
definition. Then the entry point runs in a scope of its own, which stays open: its variables can be
read after the run.

## Main definitions

* `Exec.runProgram` — a run as a step.
* `Program.run` — the state after a run.
* `Machine.result` — the text that shows how a run went.
-/

namespace Bistro

namespace Exec

/-- Declares a function; its name must not be taken. -/
def declareFunction (f : Function) : Exec Unit := do
  let m ← get
  match m.scopes.declareGlobal (.function f) with
  | .ok scopes => set { m with scopes }
  | .error _ => report (.duplicateFunction f.name) f.line

/-- Checks the result of the entry point. -/
def checkExit (limits : Limits) (code : Int) (line : Nat) : Exec Unit :=
  if code ∈ limits.acceptedExitCodes then return
  else report (.exitCode limits.acceptedExitCodes) line

/-- Runs a program. -/
def runProgram (limits : Limits) (p : Program) : Exec Unit := do
  declareAll limits ⟨.globals, []⟩ 0 p.globals
  p.functions.forM declareFunction
  modify fun m => { m with scopes := m.scopes.pushEntry }
  let site : Site := ⟨.entry, []⟩
  declareAll limits (site.child 0) 0 p.locals
  executeAll limits (invoke limits limits.maxCallDepth) (site.child 1) 0 p.body
  checkExit limits p.exitCode p.exitLine

end Exec

/-- The state after a run of a program on the given input. -/
def Program.run (limits : Limits) (p : Program) (input : Input) : Machine :=
  ((Exec.runProgram limits p).run (Machine.initial input)).2

namespace Machine

/-- The text of a run without errors, and the last line of its output. -/
def successBanner : String := "===Program executed successfully==="

/-- The text of a run with errors. -/
def failureBanner : String := "===Cannot run program with errors==="

/-- The text that shows how a run went: its output, or only that there were errors. -/
def result (m : Machine) : String :=
  if m.diagnostics.hasErrors then failureBanner
  else if m.output.isEmpty then successBanner
  else "\n".intercalate m.output.texts ++ "\n\n" ++ successBanner

/-- The value of a global variable. -/
def globalValue? (m : Machine) (name : String) : Option Value :=
  (m.scopes.global.get? name).bind (·.value)

/-- The value of a variable that the entry point can see. -/
def visibleValue? (m : Machine) (name : String) : Option Value :=
  (m.scopes.peek? name).bind (·.value)

end Machine

end Bistro
