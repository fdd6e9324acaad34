import Bistro.Exec.Store
import Bistro.Proofs.Program.Regular
import Bistro.Proofs.Scope.WellTyped

/-!
# Regular scopes

A condition on bindings that is kept by every change of a binding holds of all open scopes, however
they are opened, closed and filled.  The condition of interest here is that a binding is regular:
the value it holds can be compared, and the function it stands for is regular.

## Main definitions

* `ScopeStack.All` — every binding in an open scope satisfies a condition.
* `Binding.Regular` — a regular value or a regular function.

## Main results

* `ScopeStack.All.peek?` — what a name resolves to satisfies the condition.
* `ScopeStack.All.adjust`, `ScopeStack.All.declare` — changes that keep it.
-/

namespace Bistro

namespace ScopeStack

/-- Every binding in an open scope satisfies a condition. -/
structure All (p : Binding → Prop) (s : ScopeStack) : Prop where
  /-- The bindings of the global scope. -/
  global : s.global.All p
  /-- The bindings of the other scopes. -/
  inner : ∀ scope ∈ s.inner, scope.All p

variable {p : Binding → Prop} {s s' : ScopeStack} {b : Binding} {name : String}

theorem All.initial : initial.All p := ⟨Scope.All.opened _ _, nofun⟩

theorem All.mono {q : Binding → Prop} (h : s.All p) (hq : ∀ b, p b → q b) : s.All q :=
  ⟨fun e he => hq _ (h.global e he), fun scope hscope e he => hq _ (h.inner scope hscope e he)⟩

theorem all_resolve? {global : Scope} {scopes : List Scope} (hglobal : global.All p)
    (hscopes : ∀ scope ∈ scopes, scope.All p) (hb : resolve? name global scopes = some b) :
    p b := by
  induction scopes with
  | nil => exact hglobal.get? hb
  | cons scope outer ih =>
    rw [List.forall_mem_cons] at hscopes
    rw [resolve?] at hb
    split at hb
    · next hget =>
      obtain rfl := Option.some.inj hb
      exact hscopes.1.get? hget
    · exact ih hscopes.2 hb
    · exact hglobal.get? hb

/-- What a name resolves to satisfies the condition. -/
theorem All.peek? (h : s.All p) (hb : s.peek? name = some b) : p b :=
  all_resolve? h.global h.inner hb

theorem all_adjustFrom {f : Binding → Binding} {global : Scope} {scopes : List Scope}
    (hglobal : global.All p) (hscopes : ∀ scope ∈ scopes, scope.All p)
    (hf : ∀ b, p b → p (f b)) :
    All p ⟨(adjustFrom name f global scopes).1, (adjustFrom name f global scopes).2⟩ := by
  induction scopes with
  | nil => exact ⟨hglobal.adjust fun b _ hb => hf b hb, nofun⟩
  | cons scope outer ih =>
    rw [List.forall_mem_cons] at hscopes
    rw [adjustFrom]
    split
    · exact ⟨hglobal, List.forall_mem_cons.2 ⟨hscopes.1.adjust fun b _ hb => hf b hb, hscopes.2⟩⟩
    · have hrest := ih hscopes.2
      exact ⟨hrest.global, List.forall_mem_cons.2 ⟨hscopes.1, hrest.inner⟩⟩
    · exact ⟨hglobal.adjust fun b _ hb => hf b hb, List.forall_mem_cons.2 hscopes⟩

/-- A binding may be changed in a way that keeps the condition. -/
theorem All.adjust {f : Binding → Binding} (h : s.All p) (name : String)
    (hf : ∀ b, p b → p (f b)) : (s.adjust name f).All p :=
  all_adjustFrom h.global h.inner hf

theorem All.push (h : s.All p) (kind : Scope.Kind) (link : Scope.Link) :
    All p { s with inner := .opened kind link :: s.inner } :=
  ⟨h.global, List.forall_mem_cons.2 ⟨Scope.All.opened kind link, h.inner⟩⟩

theorem All.pop {scope : Scope} {outer : List Scope} (h : s.All p)
    (hinner : s.inner = scope :: outer) : All p { s with inner := outer } := by
  have hscopes := h.inner
  rw [hinner, List.forall_mem_cons] at hscopes
  exact ⟨h.global, hscopes.2⟩

theorem All.declareGlobal (h : s.All p) (hb : p b) (hs' : s.declareGlobal b = .ok s') :
    s'.All p := by
  unfold ScopeStack.declareGlobal at hs'
  cases hdecl : s.global.declare b with
  | error e =>
    rw [hdecl] at hs'
    cases hs'
  | ok global =>
    rw [hdecl] at hs'
    obtain rfl := Except.ok.inj hs'
    exact ⟨h.global.declare hb hdecl, h.inner⟩

/-- A binding that satisfies the condition may be declared. -/
theorem All.declare (h : s.All p) (hb : p b) (hs' : s.declare b = .ok s') : s'.All p := by
  unfold ScopeStack.declare at hs'
  split at hs'
  · next scope outer hinner =>
    have hscopes := h.inner
    rw [hinner, List.forall_mem_cons] at hscopes
    cases hdecl : scope.declare b with
    | error e =>
      rw [hdecl] at hs'
      cases hs'
    | ok scope' =>
      rw [hdecl] at hs'
      obtain rfl := Except.ok.inj hs'
      exact ⟨h.global, List.forall_mem_cons.2 ⟨hscopes.1.declare hb hdecl, hscopes.2⟩⟩
  · exact h.declareGlobal hb hs'

end ScopeStack

/-! ### Regular bindings -/

/-- A binding holds a regular value, if any, and stands for a regular function, if for one. -/
structure Binding.Regular (b : Binding) : Prop where
  value : ∀ v, b.value = some v → v.Regular
  function : ∀ f, b.kind = .function f → f.Regular

namespace Binding

theorem Regular.marked {b : Binding} (h : b.Regular) : b.marked.Regular := ⟨h.value, h.function⟩

theorem Regular.withValue {b : Binding} (h : b.Regular) {v : Value} (hv : v.Regular) :
    (b.withValue v).Regular := by
  refine ⟨?_, h.function⟩
  rintro w ⟨⟩
  exact hv

theorem regular_scalar (name : String) (type : ValueType) (line : Nat) {value : Option Value}
    (hvalue : ∀ v, value = some v → v.Regular) :
    Regular { Binding.scalar name type line with value } :=
  ⟨hvalue, nofun⟩

theorem regular_array (name : String) (element : ValueType) (dimension line : Nat)
    {items : List Value} (hitems : ∀ v ∈ items, v.Regular) :
    ((Binding.array name element dimension line).withValue (.recipe items)).Regular := by
  have hempty : (Binding.array name element dimension line).Regular := ⟨nofun, nofun⟩
  exact hempty.withValue (Value.regular_recipe.2 hitems)

theorem regular_function {f : Function} (hf : f.Regular) : (Binding.function f).Regular := by
  refine ⟨nofun, ?_⟩
  rintro g ⟨⟩
  exact hf

theorem Regular.replaceElement {b : Binding} (h : b.Regular) {v : Value} (hv : v.Regular)
    (index : Nat) : (Exec.replaceElement index v b).Regular := by
  unfold Exec.replaceElement
  split
  · next items hitems =>
    have hold := Value.regular_recipe.1 (h.value _ hitems)
    refine h.withValue (Value.regular_recipe.2 fun w hw => ?_)
    rcases List.mem_or_eq_of_mem_set hw with hw | rfl
    · exact hold w hw
    · exact hv
  · exact h

end Binding

end Bistro
