import Bistro.Scope.Binding

/-!
# Scopes in a vector

The open scopes stand in a vector, the global one first and the innermost one last.  A scope links
to its parent by the index at which that stands, and nothing but the way in which scopes are opened
makes it a good one: the vector could be empty, an index could lie beyond its end, and a walk along
the parents could go round in a circle.  Nothing comes of an operation that meets such a vector.

## Main definitions

* `ScopeVector` — the open scopes, with the indices of their parents.
* `ScopeVector.walk`, `ScopeVector.resolve` — the index of the scope that binds a name.
* `ScopeVector.declareIn`, `ScopeVector.adjustIn` — changes of the scope at an index.
* `ScopeVector.peek?`, `ScopeVector.adjust`, `ScopeVector.lookup` — what a name resolves to.
-/

namespace Bistro

/-- The open scopes in a row, each with the index of its parent. -/
structure ScopeVector where
  scopes : List (Scope (Option Nat))
  deriving Inhabited

namespace ScopeVector

/-- Only the global scope is open.  It has no parent. -/
def initial : ScopeVector := ⟨[.opened .global none]⟩

/-- How many scopes are open. -/
def depth (v : ScopeVector) : Nat := v.scopes.length

/-! ### Opening and closing -/

/-- Opens a scope whose parent is the innermost one. -/
def push (kind : Scope.Kind) (v : ScopeVector) : ScopeVector :=
  let parent := if v.depth = 0 then none else some (v.depth - 1)
  ⟨v.scopes ++ [.opened kind parent]⟩

/-- Opens the scope of a call. -/
def pushFunction (v : ScopeVector) : ScopeVector := ⟨v.scopes ++ [.opened .function (some 0)]⟩

/-- Opens the scope of the entry point. -/
def pushEntry (v : ScopeVector) : ScopeVector := ⟨v.scopes ++ [.opened .entry (some 0)]⟩

/-- Closes the innermost scope, unless it is the only one. -/
def pop? (v : ScopeVector) : Option (Scope (Option Nat) × ScopeVector) :=
  if v.depth ≤ 1 then none
  else v.scopes.getLast?.map (·, ⟨v.scopes.dropLast⟩)

/-! ### Declaring -/

/-- Declares a name in the scope at an index. -/
def declareIn (i : Nat) (b : Binding) (v : ScopeVector) :
    Option (Except DuplicateName ScopeVector) :=
  v.scopes[i]?.map fun scope => (scope.declare b).map fun scope => ⟨v.scopes.set i scope⟩

/-- Declares a name in the innermost scope. -/
def declare (b : Binding) (v : ScopeVector) : Option (Except DuplicateName ScopeVector) :=
  v.declareIn (v.depth - 1) b

/-- Declares a name in the global scope. -/
def declareGlobal (b : Binding) (v : ScopeVector) : Option (Except DuplicateName ScopeVector) :=
  v.declareIn 0 b

/-! ### Looking up -/

/-- Walks along the parents from an index on, in at most so many steps, to a scope that binds the
name.  A walk that comes to no parent finds none; nothing comes of one that leaves the vector or is
not over by then. -/
def walk (v : ScopeVector) (name : String) : Nat → Option Nat → Option (Option Nat)
  | _, none => some none
  | 0, some _ => none
  | steps + 1, some i => do
    let scope ← v.scopes[i]?
    if scope.bindings.contains name then some (some i) else v.walk name steps scope.link

/-- The index of the scope that a name resolves to.  The walk comes to each scope once at most, or
it never ends. -/
def resolve (v : ScopeVector) (name : String) : Option (Option Nat) :=
  v.walk name v.depth (some (v.depth - 1))

/-- The binding that a name resolves to. -/
def peek? (v : ScopeVector) (name : String) : Option (Option Binding) := do
  match ← v.resolve name with
  | none => some none
  | some i => return (← v.scopes[i]?).get? name

/-- Changes the binding of a name in the scope at an index. -/
def adjustIn (i : Nat) (name : String) (f : Binding → Binding) (v : ScopeVector) :
    Option ScopeVector :=
  v.scopes[i]?.map fun scope => ⟨v.scopes.set i (scope.adjust name f)⟩

/-- Changes the binding that a name resolves to. -/
def adjust (name : String) (f : Binding → Binding) (v : ScopeVector) : Option ScopeVector := do
  match ← v.resolve name with
  | none => some v
  | some i => v.adjustIn i name f

/-- Looks a name up and marks its binding as used if this is asked for. -/
def lookup (name : String) (mark : Bool) (v : ScopeVector) :
    Option (Option Binding × ScopeVector) := do
  let v ← if mark then v.adjust name Binding.marked else some v
  return (← v.peek? name, v)

end ScopeVector

end Bistro
