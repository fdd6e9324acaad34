import Bistro.Proofs.Scope.Bare
import Bistro.Proofs.Scope.Vector

/-!
# Stacks of scopes stand for vectors

A stack of scopes stands for the vector in which its scopes stand in a row, the global one first,
and the links are the indices they mean: the scope right before, or the global one.  This vector is
linked as it should be.  What is done to a stack is done to the vector in the same way, and a name
resolves to the same binding in both.

## Main definitions

* `ScopeStack.vector` — the vector that a stack of scopes stands for.
* `ScopeStack.cell?`, `ScopeStack.home?` — the binding of a name in the scope at an index, and the
  index of the scope that a name resolves to.

## Main results

* `ScopeStack.linked_vector` — the vector is linked as it should be.
* `ScopeStack.peek?_vector`, `ScopeStack.adjust_vector`, `ScopeStack.declare_vector`,
  `ScopeStack.pop?_vector` — the vector is used as the stack is.
-/

namespace Bistro

/-! ### Scopes with other links -/

namespace Scope

variable {ι κ : Type}

/-- A scope with another link. -/
def relink (link : κ) (s : Scope ι) : Scope κ := ⟨s.kind, link, s.bindings⟩

/-- The index of the parent, if so many scopes stand between the global one and this one. -/
def Link.index : Link → Nat → Nat
  | .outer, between => between
  | .global, _ => 0

theorem Link.index_le (link : Link) (between : Nat) : link.index between ≤ between := by
  cases link with
  | outer => exact Nat.le_refl between
  | global => exact Nat.zero_le between

theorem get?_relink (link : κ) (s : Scope ι) (name : String) :
    (s.relink link).get? name = s.get? name := rfl

theorem adjust_relink (name : String) (f : Binding → Binding) (link : κ) (s : Scope ι) :
    (s.relink link).adjust name f = (s.adjust name f).relink link := by
  unfold adjust
  rw [get?_relink]
  cases s.get? name <;> rfl

theorem declare_relink (b : Binding) (link : κ) (s : Scope ι) :
    (s.relink link).declare b = (s.declare b).map (relink link) := by
  unfold declare
  rw [get?_relink]
  cases s.get? b.name with
  | none => rfl
  | some earlier =>
    dsimp only
    split <;> rfl

end Scope

namespace ScopeStack

variable {s s' : ScopeStack} {name : String} {b : Binding} {global : Scope}

/-! ### The row of scopes -/

/-- The scopes in a row, the global one first, with the indices of their parents. -/
def row (global : Scope) : List Scope → List (Scope (Option Nat))
  | [] => [global.relink none]
  | scope :: outer => row global outer ++ [scope.relink (some (scope.link.index outer.length))]

/-- The vector that a stack of scopes stands for. -/
def vector (s : ScopeStack) : ScopeVector := ⟨row s.global s.inner⟩

theorem length_row (global : Scope) (scopes : List Scope) :
    (row global scopes).length = scopes.length + 1 := by
  induction scopes with
  | nil => rfl
  | cons scope outer ih => rw [row, List.length_append, ih]; rfl

theorem depth_row (global : Scope) (scopes : List Scope) :
    ScopeVector.depth ⟨row global scopes⟩ = scopes.length + 1 := length_row global scopes

theorem depth_vector (s : ScopeStack) : s.vector.depth = s.depth := depth_row s.global s.inner

/-- The parent of a further scope is in the row. -/
theorem index_lt_depth_row (link : Scope.Link) (global : Scope) (scopes : List Scope) :
    link.index scopes.length < ScopeVector.depth ⟨row global scopes⟩ := by
  have hle := link.index_le scopes.length
  rw [depth_row]
  omega

theorem linked_row (global : Scope) (scopes : List Scope) :
    ScopeVector.Linked ⟨row global scopes⟩ := by
  induction scopes with
  | nil => exact .singleton rfl
  | cons scope outer ih => exact ih.append rfl (index_lt_depth_row scope.link global outer)

/-- The vector is linked as it should be. -/
theorem linked_vector (s : ScopeStack) : s.vector.Linked := linked_row s.global s.inner

theorem getElem?_row_zero (global : Scope) (scopes : List Scope) :
    (row global scopes)[0]? = some (global.relink none) := by
  induction scopes with
  | nil => rfl
  | cons scope outer ih =>
    rw [row, List.getElem?_append_left (linked_row global outer).pos]
    exact ih

theorem getElem?_row_cons (global scope : Scope) (outer : List Scope) :
    (row global (scope :: outer))[outer.length + 1]? =
      some (scope.relink (some (scope.link.index outer.length))) := by
  rw [row, ← length_row global outer, List.getElem?_concat_length]

/-- Another global scope is one at the first index. -/
theorem row_set_zero (global global' : Scope) (scopes : List Scope) :
    (row global scopes).set 0 (global'.relink none) = row global' scopes := by
  induction scopes with
  | nil => rfl
  | cons scope outer ih =>
    have hpos : 0 < (row global outer).length := (linked_row global outer).pos
    rw [row, row, ← ih, List.set_append_left 0 _ hpos]

/-- Another innermost scope, which links to the same one, is one at the last index. -/
theorem row_set_length {scope scope' : Scope} (h : scope'.link = scope.link) (global : Scope)
    (outer : List Scope) :
    (row global (scope :: outer)).set (outer.length + 1)
        (scope'.relink (some (scope.link.index outer.length))) =
      row global (scope' :: outer) := by
  rw [row, row, ← length_row global outer, List.set_append_right _ _ (Nat.le_refl _), h]
  simp

/-! ### Resolving -/

/-- What is found from an index on does not depend on a further scope. -/
theorem search_append {v : ScopeVector} {scope : Scope (Option Nat)} {i : Nat} (h : v.Linked)
    (h' : ScopeVector.Linked ⟨v.scopes ++ [scope]⟩) (hi : i < v.depth) (name : String) :
    ScopeVector.search ⟨v.scopes ++ [scope]⟩ name i = v.search name i := by
  refine ScopeVector.search_congr h h' hi (by rw [ScopeVector.depth_append]; omega)
    (fun j hj => ScopeVector.parent?_append (by omega) scope) fun j hj => ?_
  rw [ScopeVector.cell?_append (by omega) scope]

/-- The search from the innermost scope on. -/
theorem search_row_cons (name : String) (global scope : Scope) (outer : List Scope) :
    ScopeVector.search ⟨row global (scope :: outer)⟩ name (outer.length + 1) =
      match scope.get? name, scope.link with
      | some _, _ => some (outer.length + 1)
      | none, .outer => ScopeVector.search ⟨row global outer⟩ name outer.length
      | none, .global => ScopeVector.search ⟨row global outer⟩ name 0 := by
  have hlinked := linked_row global (scope :: outer)
  have hdepth : outer.length + 1 < ScopeVector.depth ⟨row global (scope :: outer)⟩ := by
    rw [depth_row]
    exact Nat.lt_succ_self _
  have hplace := getElem?_row_cons global scope outer
  have hcell : ScopeVector.cell? ⟨row global (scope :: outer)⟩ (outer.length + 1) name =
      scope.get? name := by
    rw [ScopeVector.cell?, hplace]
    rfl
  have hparent : ScopeVector.parent? ⟨row global (scope :: outer)⟩ (outer.length + 1) =
      some (scope.link.index outer.length) := by
    rw [ScopeVector.parent?, hplace]
    rfl
  cases hb : scope.get? name with
  | some b => exact hlinked.search_bound hdepth (by rw [hcell, hb]; rfl)
  | none =>
    have hbelow := index_lt_depth_row scope.link global outer
    rw [hlinked.search_parent hdepth (hcell.trans hb) hparent]
    refine Eq.trans (search_append (linked_row global outer) hlinked hbelow name) ?_
    cases scope.link <;> rfl

/-- To resolve a name in a part of the stack is to search it from the end of this part on. -/
theorem resolve?_eq_search (name : String) (global : Scope) (scopes : List Scope) :
    resolve? name global scopes =
      (ScopeVector.search ⟨row global scopes⟩ name scopes.length).bind
        (ScopeVector.cell? ⟨row global scopes⟩ · name) := by
  induction scopes with
  | nil => exact (linked_row global []).bind_search_zero.symm
  | cons scope outer ih =>
    have hlinked := linked_row global outer
    have hpos : 0 < ScopeVector.depth ⟨row global outer⟩ := hlinked.pos
    -- what is found further outside is bound there as well without the innermost scope
    have hbelow : ∀ i < ScopeVector.depth ⟨row global outer⟩,
        (ScopeVector.search ⟨row global outer⟩ name i).bind
            (ScopeVector.cell? ⟨row global (scope :: outer)⟩ · name) =
          (ScopeVector.search ⟨row global outer⟩ name i).bind
            (ScopeVector.cell? ⟨row global outer⟩ · name) := by
      intro i hi
      cases hs : ScopeVector.search ⟨row global outer⟩ name i with
      | none => rfl
      | some j =>
        have hle := (hlinked.search_some hi hs).1
        exact ScopeVector.cell?_append (Nat.lt_of_le_of_lt hle hi) _ name
    rw [resolve?, List.length_cons, search_row_cons]
    cases hb : scope.get? name with
    | some b =>
      rw [Option.bind_some, ScopeVector.cell?, getElem?_row_cons]
      exact hb.symm
    | none =>
      cases scope.link with
      | outer =>
        exact ih.trans (hbelow _ (index_lt_depth_row .outer global outer)).symm
      | global =>
        refine Eq.trans ?_ (hbelow 0 hpos).symm
        rw [hlinked.bind_search_zero, ScopeVector.cell?, getElem?_row_zero]
        rfl

/-- **A name resolves to the same binding** in the vector. -/
theorem peek?_vector (s : ScopeStack) (name : String) :
    s.vector.peek? name = some (s.peek? name) := by
  rw [s.linked_vector.peek?_eq, ScopeVector.home?, depth_vector]
  exact congrArg some (resolve?_eq_search name s.global s.inner).symm

/-! ### Changes of bindings -/

theorem length_adjustFrom (name : String) (f : Binding → Binding) (global : Scope)
    (scopes : List Scope) : (adjustFrom name f global scopes).1.length = scopes.length := by
  induction scopes with
  | nil => rfl
  | cons scope outer ih =>
    rw [adjustFrom]
    split
    · rfl
    · exact congrArg (· + 1) ih
    · rfl

/-- The vector after a change of the binding that a search found. -/
def adjusted (name : String) (f : Binding → Binding) (v : ScopeVector) (home : Option Nat) :
    Option ScopeVector :=
  match home with
  | none => some v
  | some i => v.adjustIn i name f

theorem adjusted_append {v v' : ScopeVector} {f : Binding → Binding} {home : Option Nat}
    (hlt : ∀ i, home = some i → i < v.depth) (h : adjusted name f v home = some v')
    (scope : Scope (Option Nat)) :
    adjusted name f ⟨v.scopes ++ [scope]⟩ home = some ⟨v'.scopes ++ [scope]⟩ := by
  cases home with
  | none =>
    obtain rfl := Option.some.inj h
    rfl
  | some i =>
    obtain ⟨found, hfound, rfl⟩ := Option.map_eq_some_iff.1 h
    have hi := hlt i rfl
    rw [adjusted, ScopeVector.adjustIn, ScopeVector.getElem?_append hi, hfound, Option.map_some,
      List.set_append_left i _ hi]

theorem adjusted_zero (name : String) (f : Binding → Binding) (global : Scope)
    (scopes : List Scope) :
    adjusted name f ⟨row global scopes⟩ (ScopeVector.search ⟨row global scopes⟩ name 0) =
      some ⟨row (global.adjust name f) scopes⟩ := by
  have hlinked := linked_row global scopes
  have hplace := getElem?_row_zero global scopes
  rw [hlinked.search_eq hlinked.pos, hlinked.root, ScopeVector.cell?, hplace]
  show adjusted name f _ (if (global.get? name).isSome then some 0 else none) = _
  cases hb : global.get? name with
  | none => rw [Scope.adjust_of_none hb]; rfl
  | some b =>
    show ScopeVector.adjustIn 0 name f _ = _
    rw [ScopeVector.adjustIn, hplace, Option.map_some, Scope.adjust_relink, row_set_zero]

/-- To change a binding in a part of the stack is to change it where it is found from the end of
this part on. -/
theorem adjustFrom_eq_adjusted (name : String) (f : Binding → Binding) (global : Scope)
    (scopes : List Scope) :
    adjusted name f ⟨row global scopes⟩
        (ScopeVector.search ⟨row global scopes⟩ name scopes.length) =
      some ⟨row (adjustFrom name f global scopes).2 (adjustFrom name f global scopes).1⟩ := by
  induction scopes with
  | nil => exact adjusted_zero name f global []
  | cons scope outer ih =>
    have hlinked := linked_row global outer
    -- a change further outside is one without the innermost scope
    have hbelow : ∀ {i v'}, i < ScopeVector.depth ⟨row global outer⟩ →
        adjusted name f ⟨row global outer⟩ (ScopeVector.search ⟨row global outer⟩ name i) =
          some v' →
        adjusted name f ⟨row global (scope :: outer)⟩
            (ScopeVector.search ⟨row global outer⟩ name i) =
          some ⟨v'.scopes ++ [scope.relink (some (scope.link.index outer.length))]⟩ := by
      intro i v' hi h
      refine adjusted_append (fun j hj => ?_) h _
      exact Nat.lt_of_le_of_lt (hlinked.search_some hi hj).1 hi
    rw [List.length_cons, search_row_cons, adjustFrom]
    cases hb : scope.get? name with
    | some b =>
      show ScopeVector.adjustIn (outer.length + 1) name f _ = _
      rw [ScopeVector.adjustIn, getElem?_row_cons, Option.map_some, Scope.adjust_relink,
        row_set_length (Scope.link_adjust name f scope)]
    | none =>
      cases hlink : scope.link with
      | outer =>
        refine (hbelow (index_lt_depth_row .outer global outer) ih).trans ?_
        rw [row, length_adjustFrom]
      | global => exact hbelow hlinked.pos (adjusted_zero name f global outer)

/-- **A change of a binding** is the same in the vector. -/
theorem adjust_vector (name : String) (f : Binding → Binding) (s : ScopeStack) :
    s.vector.adjust name f = some (s.adjust name f).vector := by
  have h := adjustFrom_eq_adjusted name f s.global s.inner
  rw [ScopeVector.adjust, s.linked_vector.resolve_eq, ScopeVector.home?, depth_vector]
  exact h

theorem lookup_vector (name : String) (s : ScopeStack) :
    s.vector.lookup name true = some ((s.lookup name).1, (s.lookup name).2.vector) := by
  simp only [ScopeVector.lookup, lookup, if_true, adjust_vector, peek?_vector, Option.bind_eq_bind,
    Option.bind_some, Option.pure_def]

theorem lookup_vector_false (name : String) (s : ScopeStack) :
    s.vector.lookup name false = some (s.peek? name, s.vector) := by
  simp [ScopeVector.lookup, peek?_vector]

/-! ### Opening, closing and declaring -/

theorem push_vector (kind : Scope.Kind) (s : ScopeStack) :
    s.vector.push kind = (s.push kind).vector := by
  rw [ScopeVector.push, if_neg (Nat.ne_of_gt s.linked_vector.pos), depth_vector]
  rfl

theorem pushFunction_vector (s : ScopeStack) : s.vector.pushFunction = s.pushFunction.vector := rfl

theorem pushEntry_vector (s : ScopeStack) : s.vector.pushEntry = s.pushEntry.vector := rfl

/-- The scope that is closed is the same but for its link. -/
theorem pop?_vector (s : ScopeStack) :
    s.vector.pop? = s.pop?.map fun (scope, s') =>
      (scope.relink (some (scope.link.index s'.inner.length)), s'.vector) := by
  obtain ⟨inner, global⟩ := s
  cases inner with
  | nil => rfl
  | cons scope outer =>
    have hdepth : ¬depth ⟨scope :: outer, global⟩ ≤ 1 := by simp [depth]
    rw [ScopeVector.pop?, depth_vector, if_neg hdepth]
    simp [vector, row, pop?]

theorem declareIn_zero (b : Binding) (global : Scope) (scopes : List Scope) :
    ScopeVector.declareIn 0 b ⟨row global scopes⟩ =
      some ((global.declare b).map fun global => ⟨row global scopes⟩) := by
  rw [ScopeVector.declareIn, getElem?_row_zero, Option.map_some, Scope.declare_relink]
  cases global.declare b with
  | error e => rfl
  | ok global' =>
    show some (Except.ok (ScopeVector.mk _)) = _
    rw [row_set_zero]
    rfl

theorem declareGlobal_vector (b : Binding) (s : ScopeStack) :
    s.vector.declareGlobal b = some ((s.declareGlobal b).map vector) := by
  rw [ScopeVector.declareGlobal, vector, declareIn_zero, declareGlobal]
  cases s.global.declare b <;> rfl

/-- **A declaration** is the same in the vector. -/
theorem declare_vector (b : Binding) (s : ScopeStack) :
    s.vector.declare b = some ((s.declare b).map vector) := by
  rw [ScopeVector.declare, depth_vector]
  obtain ⟨inner, global⟩ := s
  cases inner with
  | nil =>
    refine (declareIn_zero b global []).trans ?_
    rw [declare]
    cases global.declare b <;> rfl
  | cons scope outer =>
    show ScopeVector.declareIn (outer.length + 1) b ⟨row global (scope :: outer)⟩ =
      some (((scope.declare b).map fun scope => ⟨scope :: outer, global⟩).map vector)
    rw [ScopeVector.declareIn, getElem?_row_cons, Option.map_some, Scope.declare_relink]
    cases hd : scope.declare b with
    | error e => rfl
    | ok scope' =>
      show some (Except.ok (ScopeVector.mk _)) = _
      rw [row_set_length (Scope.link_declare hd)]
      rfl

/-! ### Homes of names -/

/-- The binding of a name in the scope at an index. -/
def cell? (s : ScopeStack) (i : Nat) (name : String) : Option Binding := s.vector.cell? i name

/-- The index of the scope that a name resolves to. -/
def home? (s : ScopeStack) (name : String) : Option Nat := s.vector.home? name

/-- A name resolves to the binding at its home. -/
theorem peek?_eq_bind_home? (s : ScopeStack) (name : String) :
    s.peek? name = (s.home? name).bind (s.cell? · name) :=
  Option.some.inj ((s.peek?_vector name).symm.trans (s.linked_vector.peek?_eq name))

/-- A change of a binding is one at the home of its name. -/
theorem cell?_adjust (name : String) (f : Binding → Binding) (s : ScopeStack) (i : Nat)
    (n : String) : (s.adjust name f).cell? i n =
      if name = n ∧ s.home? n = some i then (s.cell? i n).map f else s.cell? i n :=
  s.linked_vector.cell?_adjust (s.adjust_vector name f) i n

end ScopeStack

end Bistro
