import Bistro.Proofs.Dictionary
import Bistro.Scope.Stack

/-!
# Bare scopes

A scope says which names are declared in it, and what they hold at present.  Its bare form keeps the
former only: the names with their kinds and lines, in their order.  Looking a name up and storing a
value change no bare scope, and a declaration changes that of the innermost one.

## Main definitions

* `Binding.bare`, `Scope.bare`, `ScopeStack.bare` — without values and without marks of use.
* `Binding.unmarked` — without the mark of use.
* `ScopeStack.frame` — without the declarations of the innermost scope, too.
* `ScopeStack.shape`, `ScopeStack.openCalls` — the kinds of the open scopes and where they link to,
  and how many of them are scopes of calls.

## Main results

* `ScopeStack.bare_adjust` — a changed value changes no declaration.
* `ScopeStack.bare_declare`, `ScopeStack.frame_declare` — a declaration is one of the bare scopes,
  and leaves all but the innermost one as it is.
* `ScopeStack.exists_inner` — what is innermost as long as the frame stays that of an opened scope.
-/

namespace Bistro

/-! ### Bindings -/

namespace Binding

/-- The binding without its value, and as if it was never looked up. -/
def bare (b : Binding) : Binding := { b with value := none, used := false }

/-- The binding as if it was never looked up. -/
def unmarked (b : Binding) : Binding := { b with used := false }

/-- A change of a binding that leaves its name, its kind and its line. -/
def ValueOnly (f : Binding → Binding) : Prop := ∀ b, (f b).bare = b.bare

theorem valueOnly_marked : ValueOnly marked := fun _ => rfl

theorem valueOnly_withValue (v : Value) : ValueOnly (·.withValue v) := fun _ => rfl

end Binding

/-! ### Scopes -/

namespace Scope

variable {ι : Type} {s s' : Scope ι} {b : Binding} {name : String}

/-- The scope without values. -/
def bare (s : Scope ι) : Scope ι := { s with bindings := s.bindings.mapValues Binding.bare }

/-- The scope without declarations. -/
def cleared (s : Scope ι) : Scope ι := .opened s.kind s.link

theorem get?_bare (s : Scope ι) (name : String) :
    s.bare.get? name = (s.get? name).map Binding.bare :=
  Dictionary.get?_mapValues s.bindings name

theorem bare_set (s : Scope ι) (name : String) (b : Binding) :
    bare { s with bindings := s.bindings.set name b } =
      { s.bare with bindings := s.bare.bindings.set name b.bare } := by
  simp only [bare, Dictionary.mapValues_set]

theorem bare_adjust {f : Binding → Binding} (hf : Binding.ValueOnly f) (name : String)
    (s : Scope ι) : (s.adjust name f).bare = s.bare := by
  unfold adjust
  cases hb : s.get? name with
  | none => rfl
  | some b =>
    have hbare : s.bare.bindings.get? name = some b.bare := by
      have := s.get?_bare name
      rwa [hb] at this
    show bare { s with bindings := s.bindings.set name (f b) } = s.bare
    rw [bare_set, hf b, Dictionary.set_eq_self hbare]

theorem declare_bare (h : s.declare b = .ok s') : s.bare.declare b.bare = .ok s'.bare := by
  have hget : s.bare.get? b.bare.name = (s.get? b.name).map Binding.bare := s.get?_bare b.name
  have hset := s.bare_set b.name b
  unfold declare at h ⊢
  rw [hget]
  cases hb : s.get? b.name with
  | none =>
    rw [hb] at h
    obtain rfl := Except.ok.inj h
    exact congrArg Except.ok hset.symm
  | some earlier =>
    rw [hb] at h
    -- whether one of the two is a function is seen in the bare bindings as well
    by_cases hfun : (earlier.isFunction || b.isFunction) = true
    · simp only [hfun] at h
      cases h
    · simp only [hfun] at h
      obtain rfl := Except.ok.inj h
      have hfun' : (earlier.bare.isFunction || b.bare.isFunction) = false :=
        Bool.not_eq_true _ ▸ hfun
      simp only [Option.map_some, hfun', Bool.false_eq_true, if_false]
      exact congrArg Except.ok hset.symm

theorem cleared_declare (h : s.declare b = .ok s') : s'.cleared = s.cleared := by
  unfold declare at h
  dsimp only at h
  split at h
  · split at h
    · cases h
    · obtain rfl := Except.ok.inj h
      rfl
  · obtain rfl := Except.ok.inj h
    rfl

theorem cleared_of_bare (h : s'.bare = s.bare) : s'.cleared = s.cleared := by
  have hbare : s'.bare.cleared = s.bare.cleared := by rw [h]
  exact hbare

end Scope

/-! ### Stacks -/

namespace ScopeStack

variable {s s' : ScopeStack} {b : Binding} {name : String}

/-- The scopes without values. -/
def bare (s : ScopeStack) : ScopeStack := ⟨s.inner.map Scope.bare, s.global.bare⟩

/-- The scopes without values, the innermost one without its declarations, too. -/
def frame (s : ScopeStack) : ScopeStack :=
  match s.inner with
  | scope :: outer => ⟨scope.cleared :: outer.map Scope.bare, s.global.bare⟩
  | [] => ⟨[], s.global.cleared⟩

/-- Why the open scopes were opened and where they link to, the innermost first. -/
def shape (s : ScopeStack) : List (Scope.Kind × Scope.Link) :=
  (s.inner ++ [s.global]).map fun scope => (scope.kind, scope.link)

/-- How many scopes are those of calls. -/
def openCalls (s : ScopeStack) : Nat := s.shape.countP (·.1 = .function)

theorem bare_adjustFrom {f : Binding → Binding} (hf : Binding.ValueOnly f) (name : String)
    (global : Scope) (scopes : List Scope) :
    (adjustFrom name f global scopes).1.map Scope.bare = scopes.map Scope.bare ∧
      (adjustFrom name f global scopes).2.bare = global.bare := by
  induction scopes with
  | nil => exact ⟨rfl, Scope.bare_adjust hf name global⟩
  | cons scope outer ih =>
    rw [adjustFrom]
    cases hb : scope.get? name with
    | some b =>
      refine ⟨?_, rfl⟩
      simp only [List.map_cons, Scope.bare_adjust hf]
    | none =>
      cases hl : scope.link with
      | outer =>
        refine ⟨?_, ih.2⟩
        simp only [List.map_cons, ih.1]
      | global => exact ⟨rfl, Scope.bare_adjust hf name global⟩

/-- A changed value changes no declaration. -/
theorem bare_adjust {f : Binding → Binding} (hf : Binding.ValueOnly f) (name : String)
    (s : ScopeStack) : (s.adjust name f).bare = s.bare := by
  obtain ⟨hinner, hglobal⟩ := bare_adjustFrom hf name s.global s.inner
  simp only [bare, adjust, hinner, hglobal]

/-- Scopes with the same bare form have the same frame. -/
theorem frame_of_bare (h : s'.bare = s.bare) : s'.frame = s.frame := by
  obtain ⟨inner, global⟩ := s
  obtain ⟨inner', global'⟩ := s'
  simp only [bare, mk.injEq] at h
  obtain ⟨hinner, hglobal⟩ := h
  cases inner with
  | nil =>
    obtain rfl := List.map_eq_nil_iff.1 hinner
    simp only [frame, Scope.cleared_of_bare hglobal]
  | cons scope outer =>
    obtain ⟨scope', outer', rfl, hscope, houter⟩ := List.map_eq_cons_iff.1 hinner
    simp only [frame, Scope.cleared_of_bare hscope, houter, hglobal]

/-- What a declaration does: it changes the innermost scope. -/
theorem declare_cases (h : s.declare b = .ok s') :
    (∃ scope outer scope', s.inner = scope :: outer ∧ scope.declare b = .ok scope' ∧
      s' = { s with inner := scope' :: outer }) ∨
    ∃ global, s.inner = [] ∧ s.global.declare b = .ok global ∧ s' = { s with global } := by
  unfold declare at h
  split at h
  · next scope outer hinner =>
    cases hd : scope.declare b with
    | error e => rw [hd] at h; cases h
    | ok scope' =>
      rw [hd] at h
      exact .inl ⟨scope, outer, scope', hinner, hd, (Except.ok.inj h).symm⟩
  · next hinner =>
    cases hd : s.global.declare b with
    | error e => rw [hd] at h; cases h
    | ok global =>
      rw [hd] at h
      exact .inr ⟨global, hinner, rfl, (Except.ok.inj h).symm⟩

/-- A declaration is one of the bare scopes. -/
theorem bare_declare (h : s.declare b = .ok s') : s.bare.declare b.bare = .ok s'.bare := by
  rcases declare_cases h with ⟨scope, outer, scope', hinner, hd, rfl⟩ | ⟨global, hinner, hd, rfl⟩
  · simp only [declare, bare, hinner, List.map_cons, Scope.declare_bare hd]
    rfl
  · simp only [declare, bare, hinner, List.map_nil, Scope.declare_bare hd]
    rfl

/-- A declaration leaves all but the innermost scope as it is. -/
theorem frame_declare (h : s.declare b = .ok s') : s'.frame = s.frame := by
  rcases declare_cases h with ⟨scope, outer, scope', hinner, hd, rfl⟩ | ⟨global, hinner, hd, rfl⟩
  · simp only [frame, hinner, Scope.cleared_declare hd]
  · simp only [frame, hinner, Scope.cleared_declare hd]

/-- As long as the frame stays that of a scope that was opened, a scope of this kind is innermost,
and those around it are as they were. -/
theorem exists_inner {kind : Scope.Kind} {link : Scope.Link}
    (h : s'.frame = frame { s with inner := .opened kind link :: s.inner }) :
    ∃ scope outer, s'.inner = scope :: outer ∧ scope.kind = kind ∧
      bare ⟨outer, s'.global⟩ = s.bare := by
  obtain ⟨inner', global'⟩ := s'
  cases inner' with
  | nil => simp [frame] at h
  | cons scope outer =>
    simp only [frame, mk.injEq, List.cons.injEq] at h
    obtain ⟨⟨hscope, houter⟩, hglobal⟩ := h
    refine ⟨scope, outer, rfl, congrArg Scope.kind hscope, ?_⟩
    simp only [bare, houter, hglobal]

theorem length_shape (s : ScopeStack) : s.shape.length = s.depth := by
  simp [shape, depth]

/-- Scopes with the same frame have the same kinds and links. -/
theorem shape_of_frame (h : s'.frame = s.frame) : s'.shape = s.shape := by
  have hframe : ∀ s : ScopeStack, s.frame.shape = s.shape := by
    rintro ⟨inner, global⟩
    cases inner with
    | nil => rfl
    | cons scope outer =>
      simp only [shape, frame, List.cons_append, List.map_cons, List.map_append, List.map_map]
      rfl
  rw [← hframe s', h, hframe s]

theorem shape_declareGlobal (h : s.declareGlobal b = .ok s') : s'.shape = s.shape := by
  unfold declareGlobal at h
  cases hd : s.global.declare b with
  | error e => rw [hd] at h; cases h
  | ok global =>
    rw [hd] at h
    obtain rfl := Except.ok.inj h
    have hglobal : (global.cleared.kind, global.cleared.link) =
        (s.global.cleared.kind, s.global.cleared.link) := by
      rw [Scope.cleared_declare hd]
    simp only [shape, List.map_append]
    exact congrArg (_ ++ [·]) hglobal

/-- A scope is opened. -/
theorem openCalls_push (kind : Scope.Kind) (link : Scope.Link) (s : ScopeStack) :
    openCalls { s with inner := .opened kind link :: s.inner } =
      s.openCalls + if kind = .function then 1 else 0 := by
  show ((kind, link) :: s.shape).countP (·.1 = .function) = _
  rw [List.countP_cons]
  simp only [openCalls, decide_eq_true_eq]

end ScopeStack

end Bistro
