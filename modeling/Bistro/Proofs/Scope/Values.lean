import Bistro.Proofs.Scope.Refinement
import Bistro.Proofs.Scope.WellTyped

/-!
# Values and marks of use

A look at the scopes changes no value: it leaves marks of use and nothing else.  Two stacks of
scopes that differ in such marks only have the same declarations and the same values everywhere,
names have the same homes in them, and what a name resolves to is seen to be the same.  To leave the
same marks a second time changes nothing.

## Main definitions

* `ScopeStack.value?` — the value of a name in the scope at an index.
* `ScopeStack.SameValues` — two stacks of scopes that differ in marks only.
* `ScopeStack.view` — what the names resolve to, without the marks.
* `ScopeStack.mark` — marks the bindings of some names.

## Main results

* `ScopeStack.SameValues.view`, `ScopeStack.SameValues.adjust` — what is seen and what is stored
  does not depend on marks.
* `ScopeStack.value?_adjust` — a change of a binding is one of a single value.
* `ScopeStack.sameValues_mark`, `ScopeStack.mark_mark` — marks change no value, and are left once.
-/

namespace Bistro

theorem Scope.adjust_eq_self {scope : Scope} {name : String} {f : Binding → Binding}
    (h : ∀ b, scope.get? name = some b → f b = b) : scope.adjust name f = scope := by
  unfold Scope.adjust
  cases hb : scope.get? name with
  | none => rfl
  | some b =>
    show { scope with bindings := scope.bindings.set name (f b) } = scope
    rw [h b hb, Dictionary.set_eq_self hb]

namespace ScopeStack

variable {s s' s'' : ScopeStack} {name n : String} {f : Binding → Binding} {i : Nat}

/-! ### Bare scopes have the same homes -/

theorem row_bare (global : Scope) (scopes : List Scope) :
    row global.bare (scopes.map Scope.bare) = (row global scopes).map Scope.bare := by
  induction scopes with
  | nil => rfl
  | cons scope outer ih =>
    rw [List.map_cons, row, row, List.map_append, ih, List.length_map]
    rfl

theorem getElem?_bare (s : ScopeStack) (i : Nat) :
    s.bare.vector.scopes[i]? = s.vector.scopes[i]?.map Scope.bare := by
  rw [← List.getElem?_map]
  exact congrArg (·[i]?) (row_bare s.global s.inner)

theorem cell?_bare (s : ScopeStack) (i : Nat) (n : String) :
    s.bare.cell? i n = (s.cell? i n).map Binding.bare := by
  rw [cell?, cell?, ScopeVector.cell?, ScopeVector.cell?, getElem?_bare]
  cases s.vector.scopes[i]? with
  | none => rfl
  | some scope => exact scope.get?_bare n

theorem home?_bare (s : ScopeStack) (n : String) : s.bare.home? n = s.home? n := by
  have hpos := s.linked_vector.pos
  have hdepth : s.bare.vector.depth = s.vector.depth := by
    rw [depth_vector, depth_vector, depth, depth, bare, List.length_map]
  rw [home?, home?, ScopeVector.home?, ScopeVector.home?, hdepth]
  refine ScopeVector.search_congr s.linked_vector s.bare.linked_vector (by omega) (by omega)
    (fun j _ => ?_) fun j _ => ?_
  · rw [ScopeVector.parent?, ScopeVector.parent?, getElem?_bare, Option.bind_map]
    rfl
  · have hcell := cell?_bare s j n
    rw [cell?, cell?] at hcell
    rw [hcell, Option.isSome_map]

/-! ### The same values -/

/-- The value of a name in the scope at an index. -/
def value? (s : ScopeStack) (i : Nat) (n : String) : Option Value := (s.cell? i n).bind (·.value)

/-- The same scopes with the same declarations, in which all names have the same values. -/
structure SameValues (s s' : ScopeStack) : Prop where
  /-- The declarations. -/
  bare : s'.bare = s.bare
  /-- The values, in all scopes. -/
  value? : ∀ i n, s'.value? i n = s.value? i n

theorem SameValues.refl (s : ScopeStack) : SameValues s s := ⟨rfl, fun _ _ => rfl⟩

theorem SameValues.symm (h : SameValues s s') : SameValues s' s :=
  ⟨h.bare.symm, fun i n => (h.value? i n).symm⟩

theorem SameValues.trans (h : SameValues s s') (h' : SameValues s' s'') : SameValues s s'' :=
  ⟨h'.bare.trans h.bare, fun i n => (h'.value? i n).trans (h.value? i n)⟩

theorem SameValues.home? (h : SameValues s s') (n : String) : s'.home? n = s.home? n := by
  rw [← home?_bare s', h.bare, home?_bare]

/-- A binding is its declaration, its value and its mark. -/
theorem SameValues.cell? (h : SameValues s s') (i : Nat) (n : String) :
    (s'.cell? i n).map Binding.unmarked = (s.cell? i n).map Binding.unmarked := by
  have hvalue := h.value? i n
  have hbare : (s'.cell? i n).map Binding.bare = (s.cell? i n).map Binding.bare := by
    rw [← cell?_bare, h.bare, cell?_bare]
  unfold ScopeStack.value? at hvalue
  revert hvalue hbare
  cases s.cell? i n with
  | none => cases s'.cell? i n <;> simp
  | some b =>
    cases s'.cell? i n with
    | none => simp
    | some b' =>
      obtain ⟨name, kind, value, used, line⟩ := b
      obtain ⟨name', kind', value', used', line'⟩ := b'
      simp only [Option.bind_some, Option.map_some, Binding.bare, Binding.unmarked]
      rintro rfl hbare
      simp_all

/-! ### What is seen -/

/-- What a name resolves to, without its mark. -/
def view (s : ScopeStack) (n : String) : Option Binding := (s.peek? n).map Binding.unmarked

theorem SameValues.view (h : SameValues s s') : s'.view = s.view := by
  funext n
  rw [ScopeStack.view, ScopeStack.view, peek?_eq_bind_home?, peek?_eq_bind_home?, h.home?]
  cases s.home? n with
  | none => rfl
  | some i => exact h.cell? i n

/-- A change of a binding is one of the value at the home of its name. -/
theorem value?_adjust (name : String) (f : Binding → Binding) (s : ScopeStack) (i : Nat)
    (n : String) : (s.adjust name f).value? i n =
      if name = n ∧ s.home? n = some i then (s.cell? i n).bind fun b => (f b).value
      else s.value? i n := by
  unfold value?
  rw [cell?_adjust]
  split
  · rw [Option.bind_map]
    rfl
  · rfl

theorem home?_adjust (hf : Binding.ValueOnly f) (name n : String) (s : ScopeStack) :
    (s.adjust name f).home? n = s.home? n := by
  rw [← home?_bare, bare_adjust hf, home?_bare]

theorem peek?_adjust_of_ne (hf : Binding.ValueOnly f) (h : name ≠ n) (s : ScopeStack) :
    (s.adjust name f).peek? n = s.peek? n := by
  rw [peek?_eq_bind_home?, peek?_eq_bind_home?, home?_adjust hf]
  cases s.home? n with
  | none => rfl
  | some i =>
    rw [Option.bind_some, Option.bind_some, cell?_adjust, if_neg fun hn : name = n ∧ _ => h hn.1]

/-- The same change, of a value that is the same, leads to the same values. -/
theorem SameValues.adjust (h : SameValues s s') (hf : Binding.ValueOnly f)
    (hvalue : ∀ b b' : Binding, b'.value = b.value → (f b').value = (f b).value) (name : String) :
    SameValues (s.adjust name f) (s'.adjust name f) := by
  refine ⟨by rw [bare_adjust hf, bare_adjust hf, h.bare], fun i n => ?_⟩
  rw [value?_adjust, value?_adjust, h.home?]
  split
  · have hcell := h.cell? i n
    revert hcell
    cases s.cell? i n with
    | none => cases s'.cell? i n <;> simp
    | some b =>
      cases s'.cell? i n with
      | none => simp
      | some b' =>
        intro hcell
        have hsame := congrArg Binding.value (Option.some.inj hcell)
        exact hvalue b b' hsame
  · exact h.value? i n

/-! ### Marks -/

/-- Marks the bindings of some names as used. -/
def mark (names : List String) (s : ScopeStack) : ScopeStack :=
  names.foldl (fun s n => s.adjust n Binding.marked) s

theorem mark_append (names more : List String) (s : ScopeStack) :
    s.mark (names ++ more) = (s.mark names).mark more := List.foldl_append

theorem sameValues_adjust_marked (name : String) (s : ScopeStack) :
    SameValues s (s.adjust name Binding.marked) := by
  refine ⟨bare_adjust Binding.valueOnly_marked name s, fun i n => ?_⟩
  rw [value?_adjust]
  split <;> rfl

/-- Marks change no value. -/
theorem sameValues_mark (names : List String) (s : ScopeStack) : SameValues s (s.mark names) := by
  induction names generalizing s with
  | nil => exact .refl s
  | cons name names ih => exact (sameValues_adjust_marked name s).trans (ih _)

/-- A change that the binding of a name does not notice is none. -/
theorem adjust_eq_self (h : ∀ b, s.peek? name = some b → f b = b) : s.adjust name f = s := by
  have hfrom : ∀ scopes : List Scope, (∀ b, resolve? name s.global scopes = some b → f b = b) →
      adjustFrom name f s.global scopes = (scopes, s.global) := by
    intro scopes
    induction scopes with
    | nil =>
      intro hb
      rw [adjustFrom, Scope.adjust_eq_self hb]
    | cons scope outer ih =>
      intro hb
      rw [resolve?] at hb
      rw [adjustFrom]
      cases hget : scope.get? name with
      | some b =>
        simp only [hget] at hb
        rw [Scope.adjust_eq_self fun b' hb' => hb b' (hget ▸ hb')]
      | none =>
        -- the binding is where the scope links to
        cases hlink : scope.link with
        | outer =>
          simp only [hget, hlink] at hb
          rw [ih hb]
        | global =>
          simp only [hget, hlink] at hb
          rw [Scope.adjust_eq_self hb]
  rw [adjust, hfrom s.inner h]

/-- What is marked stays marked. -/
theorem used_mark {names : List String} (h : ∀ b, s.peek? n = some b → b.used = true) :
    ∀ b, (s.mark names).peek? n = some b → b.used = true := by
  induction names generalizing s with
  | nil => exact h
  | cons name names ih =>
    refine ih (s := s.adjust name Binding.marked) fun b hb => ?_
    by_cases hname : name = n
    · subst hname
      rw [peek?_adjust] at hb
      obtain ⟨b, -, rfl⟩ := Option.map_eq_some_iff.1 hb
      rfl
    · rw [peek?_adjust_of_ne Binding.valueOnly_marked hname] at hb
      exact h b hb

theorem used_mark_of_mem {names : List String} (h : n ∈ names) (s : ScopeStack) :
    ∀ b, (s.mark names).peek? n = some b → b.used = true := by
  induction names generalizing s with
  | nil => cases h
  | cons name names ih =>
    rcases List.mem_cons.1 h with rfl | h
    · refine used_mark (s := s.adjust n Binding.marked) fun b hb => ?_
      rw [peek?_adjust] at hb
      obtain ⟨b, -, rfl⟩ := Option.map_eq_some_iff.1 hb
      rfl
    · exact ih h _

theorem mark_eq_self {names : List String}
    (h : ∀ n ∈ names, ∀ b, s.peek? n = some b → b.used = true) : s.mark names = s := by
  induction names with
  | nil => rfl
  | cons name names ih =>
    rw [List.forall_mem_cons] at h
    have hsame : s.adjust name Binding.marked = s := by
      refine adjust_eq_self fun b hb => ?_
      obtain ⟨_, _, _, used, _⟩ := b
      obtain rfl : used = true := h.1 _ hb
      rfl
    show (s.adjust name Binding.marked).mark names = s
    rw [hsame, ih h.2]

/-- Marks are left once. -/
theorem mark_mark (names : List String) (s : ScopeStack) :
    (s.mark names).mark names = s.mark names :=
  mark_eq_self fun _ hn => used_mark_of_mem hn s

end ScopeStack

end Bistro
