import Bistro.Scope.Binding

/-!
# The stack of scopes

Scopes are opened and closed as blocks are entered and left.  A name is looked up in the innermost
scope first and then along the links.  The scopes of loops and branches link to the scope around
them; those of calls and of the entry point link to the global scope, so a called function does not
see the variables of its caller.  The global scope is always there.

## Main definitions

* `ScopeStack` — the open scopes.
* `ScopeStack.peek?` — the binding that a name resolves to.
* `ScopeStack.adjust` — changes that binding.
* `ScopeStack.lookup` — looks a name up and marks its binding as used.
-/

namespace Bistro

/-- The open scopes. -/
structure ScopeStack where
  /-- The scopes inside the global one, the innermost first. -/
  inner : List Scope
  global : Scope
  deriving Inhabited

namespace ScopeStack

/-- Only the global scope is open. -/
def initial : ScopeStack := ⟨[], .opened .global .outer⟩

/-- How many scopes are open. -/
def depth (s : ScopeStack) : Nat := s.inner.length + 1

/-- The innermost scope. -/
def current (s : ScopeStack) : Scope := s.inner.headD s.global

/-! ### Opening and closing -/

/-- Opens a scope that links to the one around it. -/
def push (kind : Scope.Kind) (s : ScopeStack) : ScopeStack :=
  { s with inner := .opened kind .outer :: s.inner }

/-- Opens the scope of a call. -/
def pushFunction (s : ScopeStack) : ScopeStack :=
  { s with inner := .opened .function .global :: s.inner }

/-- Opens the scope of the entry point. -/
def pushEntry (s : ScopeStack) : ScopeStack :=
  { s with inner := .opened .entry .global :: s.inner }

/-- Closes the innermost scope, unless it is the global one. -/
def pop? (s : ScopeStack) : Option (Scope × ScopeStack) :=
  match s.inner with
  | scope :: outer => some (scope, { s with inner := outer })
  | [] => none

/-! ### Declaring -/

/-- Declares a name in the innermost scope. -/
def declare (b : Binding) (s : ScopeStack) : Except DuplicateName ScopeStack :=
  match s.inner with
  | scope :: outer => (scope.declare b).map fun scope => { s with inner := scope :: outer }
  | [] => (s.global.declare b).map fun global => { s with global }

/-- Declares a name in the global scope. -/
def declareGlobal (b : Binding) (s : ScopeStack) : Except DuplicateName ScopeStack :=
  (s.global.declare b).map fun global => { s with global }

/-! ### Looking up -/

/-- The binding that a name resolves to, from a row of open scopes on. -/
def resolve? (name : String) (global : Scope) : List Scope → Option Binding
  | [] => global.get? name
  | scope :: outer =>
    match scope.get? name, scope.link with
    | some b, _ => some b
    | none, .outer => resolve? name global outer
    | none, .global => global.get? name

/-- Changes the binding that a name resolves to, from a row of open scopes on. -/
def adjustFrom (name : String) (f : Binding → Binding) (global : Scope) :
    List Scope → List Scope × Scope
  | [] => ([], global.adjust name f)
  | scope :: outer =>
    match scope.get? name, scope.link with
    | some _, _ => (scope.adjust name f :: outer, global)
    | none, .outer =>
      let (outer, global) := adjustFrom name f global outer
      (scope :: outer, global)
    | none, .global => (scope :: outer, global.adjust name f)

/-- The binding that a name resolves to. -/
def peek? (s : ScopeStack) (name : String) : Option Binding := resolve? name s.global s.inner

/-- Changes the binding that a name resolves to. -/
def adjust (name : String) (f : Binding → Binding) (s : ScopeStack) : ScopeStack :=
  let (inner, global) := adjustFrom name f s.global s.inner
  ⟨inner, global⟩

/-- Looks a name up and marks its binding as used. -/
def lookup (name : String) (s : ScopeStack) : Option Binding × ScopeStack :=
  let s := s.adjust name Binding.marked
  (s.peek? name, s)

end ScopeStack

end Bistro
