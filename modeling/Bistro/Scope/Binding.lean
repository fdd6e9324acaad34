import Bistro.Dictionary
import Bistro.Program

/-!
# Bindings and scopes

A binding is a declared name with what it stands for.  A scope is a table of bindings in the order
of their declaration.

## Main definitions

* `Binding.Kind`, `Binding` — variables, arrays and functions.
* `Scope.Kind`, `Scope.Link`, `Scope` — a table of bindings, and where names are looked up that are
  not in it.  This may also be told by something else than a `Scope.Link`.
* `Scope.declare` — a new binding; it may replace an older one unless one of the two is a function.
* `Scope.unused` — the variables that were never looked up.

## Main results

* `Scope.get?_adjust` — what a name is bound to after its binding was changed.
* `Scope.declare_ok` — what an accepted declaration does, and why it was accepted.
-/

namespace Bistro

/-! ### Bindings -/

/-- What a name stands for. -/
inductive Binding.Kind
  | scalar (type : ValueType)
  | array (element : ValueType) (dimension : Nat)
  | function (f : Function)
  deriving Inhabited

/-- How messages describe what a name stands for. -/
def Binding.Kind.describe : Binding.Kind → String
  | scalar type => type.name
  | array element dimension => "recipe " ++ element.name ++ "[" ++ dimension.repr ++ "]"
  | function _ => "function"

/-- A declared name. -/
structure Binding where
  name : String
  /-- What it stands for. -/
  kind : Binding.Kind
  /-- Its value; nothing before the first is stored. -/
  value : Option Value
  /-- Whether it was looked up. -/
  used : Bool
  /-- The line of its declaration. -/
  line : Nat
  deriving Inhabited

namespace Binding

/-- A variable without a value. -/
def scalar (name : String) (type : ValueType) (line : Nat) : Binding :=
  ⟨name, .scalar type, none, false, line⟩

/-- An array. -/
def array (name : String) (element : ValueType) (dimension : Nat) (line : Nat) : Binding :=
  ⟨name, .array element dimension, none, false, line⟩

/-- A function. -/
def function (f : Function) : Binding := ⟨f.name, .function f, none, false, f.line⟩

/-- Whether a binding is a function. -/
def isFunction (b : Binding) : Bool :=
  match b.kind with
  | .function _ => true
  | _ => false

/-- The binding with a value. -/
def withValue (b : Binding) (v : Value) : Binding := { b with value := some v }

/-- The binding after it was looked up. -/
def marked (b : Binding) : Binding := { b with used := true }

end Binding

/-! ### Scopes -/

/-- Why a scope was opened. -/
inductive Scope.Kind
  /-- For the globals and the functions. -/
  | global
  /-- For the entry point. -/
  | entry
  /-- For a call. -/
  | function
  /-- For one pass through a loop. -/
  | loop
  /-- For a branch of a choice. -/
  | branch
  deriving DecidableEq, Repr, Inhabited

/-- Where a name is looked up that is not in a scope. -/
inductive Scope.Link
  /-- In the scope around it. -/
  | outer
  /-- In the global scope. -/
  | global
  deriving DecidableEq, Repr, Inhabited

/-- A table of bindings, with a link of some type. -/
structure Scope (ι : Type := Scope.Link) where
  /-- Why it was opened. -/
  kind : Scope.Kind
  /-- Where other names are looked up. -/
  link : ι
  /-- The bindings by name, in order of declaration. -/
  bindings : Dictionary String Binding
  deriving Inhabited

/-- A declaration that clashes with a function of the same name. -/
structure DuplicateName where
  name : String
  /-- The line of the earlier declaration. -/
  earlierLine : Nat
  deriving DecidableEq, Repr, Inhabited

namespace Scope

variable {ι : Type}

/-- A scope without bindings. -/
def opened (kind : Kind) (link : ι) : Scope ι := ⟨kind, link, Dictionary.empty⟩

/-- The binding of a name in this scope. -/
def get? (s : Scope ι) (name : String) : Option Binding := s.bindings.get? name

/-- Changes the binding of a name, if there is one. -/
def adjust (name : String) (f : Binding → Binding) (s : Scope ι) : Scope ι :=
  match s.get? name with
  | some b => { s with bindings := s.bindings.set name (f b) }
  | none => s

/-- Adds a binding, or replaces the one of the same name.  Functions neither replace nor are
replaced. -/
def declare (b : Binding) (s : Scope ι) : Except DuplicateName (Scope ι) :=
  let declared : Scope ι := { s with bindings := s.bindings.set b.name b }
  match s.get? b.name with
  | some earlier =>
    if earlier.isFunction || b.isFunction then .error ⟨b.name, earlier.line⟩ else .ok declared
  | none => .ok declared

/-- The variables that were never looked up, in order of declaration. -/
def unused (s : Scope ι) : List Binding :=
  s.bindings.values.filter fun b => !b.used && !b.isFunction

/-! ### Changes -/

variable {scope scope' : Scope ι} {name n : String} {b : Binding}

theorem link_adjust (name : String) (f : Binding → Binding) (scope : Scope ι) :
    (scope.adjust name f).link = scope.link := by
  unfold adjust
  split <;> rfl

theorem adjust_of_none (h : scope.get? name = none) (f : Binding → Binding) :
    scope.adjust name f = scope := by
  unfold adjust
  rw [h]

theorem get?_adjust (f : Binding → Binding) (name : String) (scope : Scope ι) :
    (scope.adjust name f).get? name = (scope.get? name).map f := by
  unfold adjust
  cases hb : scope.get? name with
  | none => exact hb
  | some b => exact Dictionary.get?_set_self _ _ _

theorem get?_adjust_of_ne (f : Binding → Binding) (h : name ≠ n) (scope : Scope ι) :
    (scope.adjust name f).get? n = scope.get? n := by
  unfold adjust
  split
  · unfold get?
    rw [Dictionary.get?_set, if_neg h]
  · rfl

/-- What an accepted declaration does, and why it was accepted. -/
theorem declare_ok (h : scope.declare b = .ok scope') :
    scope' = { scope with bindings := scope.bindings.set b.name b } ∧
      ∀ earlier, scope.get? b.name = some earlier →
        earlier.isFunction = false ∧ b.isFunction = false := by
  unfold declare at h
  dsimp only at h
  split at h
  · next earlier hb =>
    split at h
    · cases h
    · next hfun =>
      refine ⟨(Except.ok.inj h).symm, fun b' hb' => ?_⟩
      obtain rfl : earlier = b' := Option.some.inj (hb.symm.trans hb')
      simpa using hfun
  · next hb =>
    refine ⟨(Except.ok.inj h).symm, fun b' hb' => ?_⟩
    rw [hb] at hb'
    cases hb'

theorem link_declare (h : scope.declare b = .ok scope') : scope'.link = scope.link := by
  rw [(declare_ok h).1]

theorem get?_declare (h : scope.declare b = .ok scope') (n : String) :
    scope'.get? n = if b.name = n then some b else scope.get? n := by
  rw [(declare_ok h).1]
  exact Dictionary.get?_set _ _ _ _

end Scope

end Bistro
