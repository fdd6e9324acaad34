import Bistro.Proofs.Dictionary
import Bistro.Scope.Stack

/-!
# Well-typed scopes

A variable holds nothing or a value of its type, an array holds as many elements as its dimension
says, all of its element type, and a function holds nothing and is bound in the global scope only.

## Main definitions

* `Binding.WellTyped`, `Scope.WellTyped`, `ScopeStack.WellTyped` — what may be bound.

## Main results

* `ScopeStack.peek?_adjust` — what a name resolves to after its binding was changed.
* `ScopeStack.WellTyped.adjust`, `ScopeStack.WellTyped.declare` — the changes that keep scopes well
  typed.
-/

namespace Bistro

/-- A binding holds what its kind asks for. -/
def Binding.WellTyped (b : Binding) : Prop :=
  match b.kind with
  | .scalar type => ∀ v, b.value = some v → v.type = type
  | .array element dimension =>
    ∃ items, b.value = some (.recipe items) ∧ items.length = dimension ∧
      ∀ v ∈ items, v.type = element
  | .function _ => b.value = none

theorem Binding.WellTyped.marked {b : Binding} (h : b.WellTyped) : b.marked.WellTyped := h

/-! ### Scopes -/

namespace Scope

/-- Every binding of a scope satisfies a condition. -/
def All (p : Binding → Prop) (s : Scope) : Prop := ∀ e ∈ s.bindings.entries, p e.2

variable {p : Binding → Prop} {s s' : Scope} {b : Binding} {name : String}

theorem All.opened (kind : Kind) (link : Link) : (Scope.opened kind link).All p := by
  intro e he
  cases he

theorem All.get? (h : s.All p) (hb : s.get? name = some b) : p b :=
  h (name, b) (Dictionary.mem_of_find hb)

theorem All.set (h : s.All p) (hb : p b) (name : String) :
    Scope.All p { s with bindings := s.bindings.set name b } := by
  intro e he
  rcases Dictionary.mem_put he with heq | he
  · exact heq ▸ hb
  · exact h e he

theorem All.adjust {f : Binding → Binding} (h : s.All p)
    (hf : ∀ b, s.get? name = some b → p b → p (f b)) : (s.adjust name f).All p := by
  unfold Scope.adjust
  cases hb : s.get? name with
  | none => exact h
  | some b => exact h.set (hf b hb (h.get? hb)) name

theorem All.declare (h : s.All p) (hb : p b) (hs' : s.declare b = .ok s') : s'.All p := by
  unfold Scope.declare at hs'
  dsimp only at hs'
  split at hs'
  · split at hs'
    · cases hs'
    · obtain rfl := Except.ok.inj hs'
      exact h.set hb b.name
  · obtain rfl := Except.ok.inj hs'
    exact h.set hb b.name

end Scope

/-! ### Stacks -/

namespace ScopeStack

variable {s s' : ScopeStack} {b : Binding} {name : String}

theorem resolve?_adjustFrom (f : Binding → Binding) (name : String) (global : Scope)
    (scopes : List Scope) :
    resolve? name (adjustFrom name f global scopes).2 (adjustFrom name f global scopes).1 =
      (resolve? name global scopes).map f := by
  induction scopes with
  | nil => exact Scope.get?_adjust f name global
  | cons scope outer ih =>
    rw [adjustFrom, resolve?]
    cases hb : scope.get? name with
    | some b =>
      have := Scope.get?_adjust f name scope
      rw [hb] at this
      simp [resolve?, this]
    | none =>
      -- a name that is not bound here is looked up where the scope links to
      cases hl : scope.link with
      | outer => simpa [resolve?, hb, hl] using ih
      | global => simpa [resolve?, hb, hl] using Scope.get?_adjust f name global

/-- What a name resolves to after its binding was changed. -/
theorem peek?_adjust (f : Binding → Binding) (name : String) (s : ScopeStack) :
    (s.adjust name f).peek? name = (s.peek? name).map f :=
  resolve?_adjustFrom f name s.global s.inner

/-- Every binding is well typed, and functions are bound in the global scope only. -/
structure WellTyped (s : ScopeStack) : Prop where
  /-- The bindings of the global scope. -/
  global : s.global.All Binding.WellTyped
  /-- The bindings of the other scopes. -/
  inner : ∀ scope ∈ s.inner, scope.All fun b => b.WellTyped ∧ b.isFunction = false

theorem WellTyped.initial : initial.WellTyped :=
  ⟨Scope.All.opened _ _, fun _ h => by cases h⟩

theorem wellTyped_resolve? {global : Scope} {scopes : List Scope}
    (hglobal : global.All Binding.WellTyped)
    (hscopes : ∀ scope ∈ scopes, scope.All fun b => b.WellTyped ∧ b.isFunction = false)
    (hb : resolve? name global scopes = some b) : b.WellTyped := by
  induction scopes with
  | nil => exact hglobal.get? hb
  | cons scope outer ih =>
    rw [List.forall_mem_cons] at hscopes
    rw [resolve?] at hb
    split at hb
    · next hget =>
      obtain rfl := Option.some.inj hb
      exact (hscopes.1.get? hget).1
    · exact ih hscopes.2 hb
    · exact hglobal.get? hb

theorem WellTyped.peek? (h : s.WellTyped) (hb : s.peek? name = some b) : b.WellTyped :=
  wellTyped_resolve? h.global h.inner hb

theorem wellTyped_adjustFrom {f : Binding → Binding} {global : Scope} {scopes : List Scope}
    (hglobal : global.All Binding.WellTyped)
    (hscopes : ∀ scope ∈ scopes, scope.All fun b => b.WellTyped ∧ b.isFunction = false)
    (hf : ∀ b, resolve? name global scopes = some b → b.WellTyped →
      (f b).WellTyped ∧ (f b).isFunction = b.isFunction) :
    (adjustFrom name f global scopes).2.All Binding.WellTyped ∧
      ∀ scope ∈ (adjustFrom name f global scopes).1,
        scope.All fun b => b.WellTyped ∧ b.isFunction = false := by
  induction scopes with
  | nil => exact ⟨hglobal.adjust fun b hb hw => (hf b hb hw).1, fun _ h => by cases h⟩
  | cons scope outer ih =>
    rw [List.forall_mem_cons] at hscopes
    rw [adjustFrom]
    rw [resolve?] at hf
    cases hb : scope.get? name with
    | some b =>
      -- the binding is in this scope
      simp only [hb] at hf
      refine ⟨hglobal, List.forall_mem_cons.2 ⟨hscopes.1.adjust ?_, hscopes.2⟩⟩
      intro b' hb' hw
      obtain rfl := Option.some.inj (hb.symm.trans hb')
      obtain ⟨htyped, hfun⟩ := hf b rfl hw.1
      exact ⟨htyped, hfun.trans hw.2⟩
    | none =>
      cases hl : scope.link with
      | outer =>
        simp only [hb, hl] at hf
        obtain ⟨hglobal', hscopes'⟩ := ih hscopes.2 hf
        exact ⟨hglobal', List.forall_mem_cons.2 ⟨hscopes.1, hscopes'⟩⟩
      | global =>
        simp only [hb, hl] at hf
        refine ⟨hglobal.adjust fun b hb' hw => (hf b hb' hw).1, ?_⟩
        exact List.forall_mem_cons.2 ⟨hscopes.1, hscopes.2⟩

/-- The binding of a name may be changed to another well-typed one. -/
theorem WellTyped.adjust {f : Binding → Binding} (h : s.WellTyped)
    (hf : ∀ b, s.peek? name = some b → b.WellTyped →
      (f b).WellTyped ∧ (f b).isFunction = b.isFunction) : (s.adjust name f).WellTyped := by
  obtain ⟨hglobal, hinner⟩ := wellTyped_adjustFrom h.global h.inner hf
  exact ⟨hglobal, hinner⟩

/-- A scope may be opened. -/
theorem WellTyped.push (h : s.WellTyped) (kind : Scope.Kind) (link : Scope.Link) :
    WellTyped { s with inner := .opened kind link :: s.inner } :=
  ⟨h.global, List.forall_mem_cons.2 ⟨Scope.All.opened kind link, h.inner⟩⟩

/-- A scope may be closed. -/
theorem WellTyped.pop {scope : Scope} (h : s.WellTyped) (hpop : s.pop? = some (scope, s')) :
    s'.WellTyped := by
  unfold ScopeStack.pop? at hpop
  split at hpop
  · next hinner =>
    obtain ⟨rfl, rfl⟩ := Prod.mk.inj (Option.some.inj hpop)
    have := h.inner
    rw [hinner, List.forall_mem_cons] at this
    exact ⟨h.global, this.2⟩
  · cases hpop

/-- A well-typed variable or array may be declared. -/
theorem WellTyped.declare (h : s.WellTyped) (hb : b.WellTyped) (hfun : b.isFunction = false)
    (hs' : s.declare b = .ok s') : s'.WellTyped := by
  unfold ScopeStack.declare at hs'
  split at hs'
  · next scope outer hinner =>
    have hscopes := h.inner
    rw [hinner, List.forall_mem_cons] at hscopes
    cases hdecl : scope.declare b with
    | error e => rw [hdecl] at hs'; cases hs'
    | ok scope' =>
      rw [hdecl] at hs'
      obtain rfl := Except.ok.inj hs'
      exact ⟨h.global, List.forall_mem_cons.2 ⟨hscopes.1.declare ⟨hb, hfun⟩ hdecl, hscopes.2⟩⟩
  · cases hdecl : s.global.declare b with
    | error e => rw [hdecl] at hs'; cases hs'
    | ok global =>
      rw [hdecl] at hs'
      obtain rfl := Except.ok.inj hs'
      exact ⟨h.global.declare hb hdecl, h.inner⟩

/-- Any well-typed binding, be it a function, may be declared in the global scope. -/
theorem WellTyped.declareGlobal (h : s.WellTyped) (hb : b.WellTyped)
    (hs' : s.declareGlobal b = .ok s') : s'.WellTyped := by
  unfold ScopeStack.declareGlobal at hs'
  cases hdecl : s.global.declare b with
  | error e => rw [hdecl] at hs'; cases hs'
  | ok global =>
    rw [hdecl] at hs'
    obtain rfl := Except.ok.inj hs'
    exact ⟨h.global.declare hb hdecl, h.inner⟩

end ScopeStack

end Bistro
