import Bistro.Exec.Finding
import Bistro.Output
import Bistro.Scope.Stack

/-!
# The state of a run

A run keeps the open scopes, the findings, the output, what is left of the input and how many calls
are in progress.  Steps of a run are functions of this state.

## Main definitions

* `Site` — where in a program a finding belongs: which part of it, and the path to the construct
  there.
* `Input` — the answers and the names they were asked for.
* `Machine`, `Exec` — the state, and a step with a result.
* `Exec.passes` — the states that a step passes through.
* `Exec.report`, `Exec.atSite`, `Exec.inScope`, `Exec.inCall`, `Exec.readVariable` — the steps all
  others are made of.
* `Exec.repeatWhile`, `Exec.repeatUntil` — loops that test before or after each pass.
-/

namespace Bistro

/-! ### Sites -/

/-- A part of a program. -/
inductive Site.Part
  /-- No construct at all. -/
  | outside
  /-- The global declarations. -/
  | globals
  | function (name : String)
  | entry
  deriving DecidableEq, Repr, Inhabited

/-- A construct of a program. -/
structure Site where
  /-- The part it is in. -/
  part : Site.Part
  /-- The path to it, the last step first. -/
  path : List Nat
  deriving DecidableEq, Repr, Inhabited

namespace Site

/-- No construct at all. -/
def outside : Site := ⟨.outside, []⟩

/-- A construct inside another. -/
def child (s : Site) (i : Nat) : Site := { s with path := i :: s.path }

end Site

/-! ### Input -/

/-- Where the values come from that a program asks for. -/
structure Input where
  /-- The answer to the first of the names, which were asked for in turn, the latest first; without
  an answer the request is cancelled. -/
  source : List String → Option String
  /-- The names that were asked for, the latest first. -/
  asked : List String
  deriving Inhabited

namespace Input

/-- Input with the given answers; what is asked for behind the last of them is cancelled. -/
def ofAnswers (answers : List String) : Input := ⟨fun asked => answers[asked.length - 1]?, []⟩

/-- The names that were asked for, in order. -/
def requests (i : Input) : List String := i.asked.reverse

/-- Asks for the value of a name. -/
def ask (name : String) (i : Input) : Option String × Input :=
  (i.source (name :: i.asked), { i with asked := name :: i.asked })

end Input

/-! ### States and steps -/

/-- The state of a run. -/
structure Machine where
  scopes : ScopeStack
  diagnostics : Diagnostics Site
  output : Output
  input : Input
  /-- How many calls are in progress. -/
  callDepth : Nat
  deriving Inhabited

/-- The state before a run. -/
def Machine.initial (input : Input) : Machine :=
  ⟨.initial, .initial .outside, .empty, input, 0⟩

/-- A step of a run with a result.  Beside what it does, a step knows which states it passes through
on the way; nothing of that is computed. -/
structure Exec (α : Type) where
  /-- The result and the state behind the step. -/
  run : Machine → α × Machine
  /-- The states that are entered while the step is taken from a state. -/
  passes : Machine → Machine → Prop
  /-- The last state is one of them, unless the step changes nothing. -/
  passes_end : ∀ m, (run m).2 = m ∨ passes m (run m).2

namespace Exec

/-- Gives a result and changes nothing. -/
@[inline] protected def pure {α : Type} (a : α) : Exec α :=
  ⟨fun m => (a, m), fun _ _ => False, fun _ => .inl rfl⟩

/-- Takes a step and then the one that its result asks for. -/
@[inline] protected def bind {α β : Type} (x : Exec α) (f : α → Exec β) : Exec β where
  run m :=
    match x.run m with
    | (a, m) => (f a).run m
  passes m n := x.passes m n ∨ (f (x.run m).1).passes (x.run m).2 n
  passes_end m :=
    match (f (x.run m).1).passes_end (x.run m).2, x.passes_end m with
    | .inr h, _ => .inr (.inr h)
    | .inl h, .inl h' => .inl (h.trans h')
    | .inl h, .inr h' => .inr (.inl (h ▸ h'))

instance : Monad Exec where
  pure := Exec.pure
  bind := Exec.bind

/-- Changes the state, which is then entered. -/
@[inline] protected def modifyGet {α : Type} (f : Machine → α × Machine) : Exec α :=
  ⟨f, fun m n => n = (f m).2, fun _ => .inr rfl⟩

instance : MonadStateOf Machine Exec where
  get := ⟨fun m => (m, m), fun _ _ => False, fun _ => .inl rfl⟩
  set m := Exec.modifyGet fun _ => ((), m)
  modifyGet := Exec.modifyGet

/-- Records a finding on a line for the present site. -/
def report (f : Finding) (line : Nat) : Exec Unit :=
  modify fun m => { m with diagnostics := m.diagnostics.push (f.onLine line) }

/-- Records a finding on a line for the run. -/
def reportOnce (f : Finding) (line : Nat) : Exec Unit :=
  modify fun m => { m with diagnostics := m.diagnostics.pushOnce (f.onLine line) }

/-- Records a finding and gives no result. -/
def reject {α : Type} (f : Finding) (line : Nat) : Exec (Option α) := do
  report f line
  return none

/-- Takes a step at a site and goes back to the present one. -/
def atSite {α : Type} (site : Site) (step : Exec α) : Exec α := do
  -- constructs nest, so the site that is gone back to need not be the outermost one
  let former := (← get).diagnostics.site
  modify fun m => { m with diagnostics := m.diagnostics.enter site }
  let a ← step
  modify fun m => { m with diagnostics := m.diagnostics.enter former }
  return a

/-! ### Scopes -/

/-- Looks a name up and marks its binding as used. -/
def lookup (name : String) : Exec (Option Binding) :=
  modifyGet fun m =>
    let (b, scopes) := m.scopes.lookup name
    (b, { m with scopes })

/-- Stores a value in the variable that a name resolves to. -/
def store (name : String) (v : Value) : Exec Unit :=
  modify fun m => { m with scopes := m.scopes.adjust name (·.withValue v) }

/-- Declares a binding in the innermost scope. -/
def declare (b : Binding) : Exec Unit := do
  let m ← get
  match m.scopes.declare b with
  | .ok scopes => set { m with scopes }
  | .error _ => report (.duplicateName b.name) b.line

/-- Closes the innermost scope and warns of its unused variables, unless it is that of the entry
point. -/
def closeScope : Exec Unit := do
  let m ← get
  match m.scopes.pop? with
  | none => return
  | some (scope, scopes) =>
    set { m with scopes }
    unless scope.kind = .global || scope.kind = .entry do
      scope.unused.forM fun b => reportOnce (.unusedVariable b.name) b.line

/-- Takes a step in a scope of its own. -/
def inScope {α : Type} (opened : ScopeStack → ScopeStack) (step : Exec α) : Exec α := do
  modify fun m => { m with scopes := opened m.scopes }
  let a ← step
  closeScope
  return a

/-- Takes a step in the scope of a call.  The call is entered and left in one change each, so it
counts as in progress exactly while its scope is open. -/
def inCall {α : Type} (step : Exec α) : Exec α := do
  modify fun m => { m with scopes := m.scopes.pushFunction, callDepth := m.callDepth + 1 }
  let a ← step
  modify fun m =>
    let m := (closeScope.run m).2
    { m with callDepth := m.callDepth - 1 }
  return a

/-! ### Reading -/

/-- The value of a variable. -/
def readVariable (name : String) (line : Nat) : Exec (Option Value) := do
  match ← lookup name with
  | none => reject (.undeclared name) line
  | some b =>
    if b.isFunction then reject (.functionAsValue name) line
    else match b.value with
      | some v => return some v
      | none => reject (.unset name) line

/-- The element of an array at an index. -/
def elementAt? (v : Option Value) (index : Int) : Option Value :=
  match v with
  | some (.recipe items) => if index < 0 then none else items[index.toNat]?
  | _ => none

/-- The value of an element. -/
def readElement (name : String) (index : Int) (line : Nat) : Exec (Option Value) := do
  match ← lookup name with
  | none => reject (.undeclared name) line
  | some b =>
    match b.kind with
    | .array _ dimension =>
      match elementAt? b.value index with
      | some v => return some v
      | none => reject (.outOfBounds name index dimension) line
    | _ => reject (.notAnArray name) line

/-- A value, if it has the type that its use asks for. -/
def checkType (target : ValueType) (v : Value) (use : Finding.Use) (line : Nat) :
    Exec (Option Value) :=
  if v.fitsType target then return some v
  else reject (.mismatch use v.type target.name) line

/-! ### Loops -/

/-- Tests before each pass and makes at most `passes` passes.  `stopped` is done if the test holds
and no pass is left.  The loop also ends if a pass tells so. -/
def repeatWhile (test pass : Exec Bool) (stopped : Exec Unit) : Nat → Exec Unit
  | 0 => do if ← test then stopped
  | passes + 1 => do
    if ← test then
      if ← pass then repeatWhile test pass stopped passes

/-- Tests after each pass and makes at most `passes` passes.  `stopped` is done if the test holds
and no pass is left, or if there was none to begin with. -/
def repeatUntil (pass : Exec Unit) (test : Exec Bool) (stopped : Exec Unit) : Nat → Exec Unit
  | 0 => stopped
  | passes + 1 => do
    pass
    if ← test then repeatUntil pass test stopped passes

end Exec

end Bistro
