import Bistro.Scope.Vector

/-!
# Walks along the parents

In a vector of scopes that is linked as it should be, the global scope has no parent and the parent
of each further one stands before it.  A walk along the parents comes down at each step, so it ends,
and it never leaves the vector.  Then a name has a home, which is the index of the scope that the
walk from the innermost scope comes to; looking the name up and storing a value change the binding
at home and no other one.

## Main definitions

* `ScopeVector.parent?`, `ScopeVector.cell?` — the parent of a scope, and the binding of a name in
  it.
* `ScopeVector.Linked` — parents stand before their scopes.
* `ScopeVector.search`, `ScopeVector.home?` — where the walk along the parents ends.
* `ScopeVector.Replaced` — the scope at an index is replaced by one with the same parent.

## Main results

* `ScopeVector.Linked.exists_walk` — **a walk ends, in range.**
* `ScopeVector.Linked.search_eq` — a name is found where it is bound, or from the parent on.
* `ScopeVector.bind_search` — what the end of a walk depends on.
* `ScopeVector.Linked.exists_adjust`, `ScopeVector.Linked.exists_declareIn` — changes of bindings.
-/

namespace Bistro.ScopeVector

variable {v v' : ScopeVector} {name : String} {i j : Nat} {b : Binding}
  {scope scope' : Scope (Option Nat)}

/-! ### Scopes in range -/

/-- The index of the parent of the scope at an index. -/
def parent? (v : ScopeVector) (i : Nat) : Option Nat := v.scopes[i]?.bind (·.link)

/-- The binding of a name in the scope at an index. -/
def cell? (v : ScopeVector) (i : Nat) (name : String) : Option Binding :=
  v.scopes[i]?.bind (·.get? name)

theorem lt_depth (h : v.scopes[i]? = some scope) : i < v.depth :=
  (List.getElem?_eq_some_iff.1 h).1

theorem exists_scope (h : i < v.depth) : ∃ scope, v.scopes[i]? = some scope :=
  ⟨_, List.getElem?_eq_getElem h⟩

/-- The global scope is open and has no parent; the parent of any other scope stands before it. -/
structure Linked (v : ScopeVector) : Prop where
  pos : 0 < v.depth
  root : v.parent? 0 = none
  lower : ∀ i, 0 < i → i < v.depth → ∃ j < i, v.parent? i = some j

theorem Linked.singleton (hlink : scope.link = none) : Linked ⟨[scope]⟩ :=
  ⟨Nat.one_pos, hlink, fun _ hi hlt => absurd hlt (Nat.not_lt.2 hi)⟩

theorem Linked.initial : initial.Linked := .singleton rfl

theorem Linked.parent?_lt (h : v.Linked) (hp : v.parent? i = some j) : j < i := by
  obtain ⟨scope, hscope, -⟩ := Option.bind_eq_some_iff.1 hp
  rcases Nat.eq_zero_or_pos i with rfl | hi
  · rw [h.root] at hp
    cases hp
  · obtain ⟨k, hk, hpk⟩ := h.lower i hi (lt_depth hscope)
    exact Option.some.inj (hp.symm.trans hpk) ▸ hk

/-! ### Walks -/

theorem walk_none (v : ScopeVector) (name : String) (steps : Nat) :
    v.walk name steps none = some none := by
  cases steps <;> rfl

theorem walk_succ (h : i < v.depth) (name : String) (steps : Nat) :
    v.walk name (steps + 1) (some i) =
      if (v.cell? i name).isSome then some (some i) else v.walk name steps (v.parent? i) := by
  obtain ⟨scope, hscope⟩ := exists_scope h
  rw [walk, cell?, parent?, hscope]
  rfl

/-- **A walk ends, in range**: however many steps there are, if only enough, it comes to the same
end, and this is a scope at or before the first one that binds the name, or it is no scope. -/
theorem Linked.exists_walk (h : v.Linked) (name : String) (hi : i < v.depth) : ∃ home,
    (∀ steps > i, v.walk name steps (some i) = some home) ∧
      ∀ j, home = some j → j ≤ i ∧ (v.cell? j name).isSome := by
  induction i using Nat.strongRecOn with
  | ind i ih =>
    by_cases hb : (v.cell? i name).isSome
    · refine ⟨some i, fun steps hsteps => ?_, ?_⟩
      · obtain ⟨steps, rfl⟩ := Nat.exists_eq_add_one_of_ne_zero (Nat.ne_zero_of_lt hsteps)
        rw [walk_succ hi, if_pos hb]
      · rintro j ⟨⟩
        exact ⟨Nat.le_refl i, hb⟩
    · -- the walk goes on at the parent, which stands before
      cases hp : v.parent? i with
      | none =>
        refine ⟨none, fun steps hsteps => ?_, nofun⟩
        obtain ⟨steps, rfl⟩ := Nat.exists_eq_add_one_of_ne_zero (Nat.ne_zero_of_lt hsteps)
        rw [walk_succ hi, if_neg hb, hp, walk_none]
      | some k =>
        have hk := h.parent?_lt hp
        obtain ⟨home, hwalk, hhome⟩ := ih k hk (by omega)
        refine ⟨home, fun steps hsteps => ?_, fun j hj => ?_⟩
        · obtain ⟨steps, rfl⟩ := Nat.exists_eq_add_one_of_ne_zero (Nat.ne_zero_of_lt hsteps)
          rw [walk_succ hi, if_neg hb, hp, hwalk steps (by omega)]
        · obtain ⟨hle, hbound⟩ := hhome j hj
          exact ⟨by omega, hbound⟩

/-- Where the walk from an index on ends. -/
def search (v : ScopeVector) (name : String) (i : Nat) : Option Nat :=
  (v.walk name (i + 1) (some i)).join

/-- The index of the scope that a name resolves to. -/
def home? (v : ScopeVector) (name : String) : Option Nat := v.search name (v.depth - 1)

theorem Linked.walk_eq (h : v.Linked) (hi : i < v.depth) {steps : Nat} (hsteps : i < steps) :
    v.walk name steps (some i) = some (v.search name i) := by
  obtain ⟨home, hwalk, -⟩ := h.exists_walk name hi
  rw [search, hwalk steps hsteps, hwalk (i + 1) (Nat.lt_succ_self i)]
  rfl

/-- A name is found where it is bound, or else from the parent on. -/
theorem Linked.search_eq (h : v.Linked) (hi : i < v.depth) :
    v.search name i =
      if (v.cell? i name).isSome then some i else (v.parent? i).bind (v.search name) := by
  rw [search, walk_succ hi]
  split
  · rfl
  · cases hp : v.parent? i with
    | none => rw [walk_none]; rfl
    | some k =>
      have hk := h.parent?_lt hp
      rw [h.walk_eq (by omega) hk]
      rfl

theorem Linked.search_bound (h : v.Linked) (hi : i < v.depth) (hb : (v.cell? i name).isSome) :
    v.search name i = some i := by
  rw [h.search_eq hi, if_pos hb]

theorem Linked.search_parent (h : v.Linked) (hi : i < v.depth) (hb : v.cell? i name = none)
    (hp : v.parent? i = some j) : v.search name i = v.search name j := by
  rw [h.search_eq hi, hb, hp]
  rfl

/-- What is found is at or before the index where the walk began, and bound there. -/
theorem Linked.search_some (h : v.Linked) (hi : i < v.depth) (hs : v.search name i = some j) :
    j ≤ i ∧ (v.cell? j name).isSome := by
  obtain ⟨home, hwalk, hhome⟩ := h.exists_walk name hi
  refine hhome j ?_
  rw [search, hwalk (i + 1) (Nat.lt_succ_self i)] at hs
  exact hs

/-- In two vectors with the same parents, in which a name is bound at the same indices, the walks
end at the same index. -/
theorem search_congr (h : v.Linked) (h' : v'.Linked) (hi : i < v.depth) (hi' : i < v'.depth)
    (hparent : ∀ j ≤ i, v'.parent? j = v.parent? j)
    (hbound : ∀ j ≤ i, (v'.cell? j name).isSome = (v.cell? j name).isSome) :
    v'.search name i = v.search name i := by
  induction i using Nat.strongRecOn with
  | ind i ih =>
    rw [h.search_eq hi, h'.search_eq hi', hbound i (Nat.le_refl i), hparent i (Nat.le_refl i)]
    split
    · rfl
    · cases hp : v.parent? i with
      | none => rfl
      | some j =>
        have hj := h.parent?_lt hp
        exact ih j hj (by omega) (by omega) (fun k hk => hparent k (by omega))
          fun k hk => hbound k (by omega)

/-- At the global scope the walk ends. -/
theorem Linked.bind_search_zero (h : v.Linked) :
    (v.search name 0).bind (v.cell? · name) = v.cell? 0 name := by
  rw [h.search_eq h.pos, h.root]
  cases hb : v.cell? 0 name with
  | none => rfl
  | some b => exact hb

/-- **The end of a walk depends on little**: in two vectors with the same parents, in which a name
is bound at the same indices but perhaps the global one, it is found at the same index. -/
theorem bind_search (h : v.Linked) (h' : v'.Linked) (hi : i < v.depth) (hi' : i < v'.depth)
    (hparent : ∀ j ≤ i, v'.parent? j = v.parent? j)
    (hbound : ∀ j ≤ i, 0 < j → (v'.cell? j name).isSome = (v.cell? j name).isSome) :
    (v'.search name i).bind (v'.cell? · name) = v'.cell? ((v.search name i).getD 0) name := by
  induction i using Nat.strongRecOn with
  | ind i ih =>
    rcases Nat.eq_zero_or_pos i with rfl | hpos
    · rw [h'.bind_search_zero, h.search_eq h.pos, h.root]
      split <;> rfl
    · have hsame := hbound i (Nat.le_refl i) hpos
      cases hb : v.cell? i name with
      | some b =>
        rw [hb] at hsame
        rw [h.search_bound hi (by rw [hb]; rfl), h'.search_bound hi' hsame]
        rfl
      | none =>
        rw [hb] at hsame
        have hb' : v'.cell? i name = none :=
          Option.isNone_iff_eq_none.1 (Option.isSome_eq_false_iff.1 hsame)
        obtain ⟨j, hj, hp⟩ := h.lower i hpos hi
        rw [h.search_parent hi hb hp,
          h'.search_parent hi' hb' ((hparent i (Nat.le_refl i)).trans hp)]
        exact ih j hj (by omega) (by omega) (fun k hk => hparent k (by omega))
          fun k hk => hbound k (by omega)

/-! ### Homes -/

theorem Linked.resolve_eq (h : v.Linked) (name : String) :
    v.resolve name = some (v.home? name) := by
  have hpos := h.pos
  exact h.walk_eq (by omega) (by omega)

theorem Linked.home?_lt (h : v.Linked) (hn : v.home? name = some i) : i < v.depth := by
  have hpos := h.pos
  have hle := (h.search_some (by omega) hn).1
  omega

/-- A name resolves to the binding at its home. -/
theorem Linked.peek?_eq (h : v.Linked) (name : String) :
    v.peek? name = some ((v.home? name).bind (v.cell? · name)) := by
  rw [peek?, h.resolve_eq]
  cases hn : v.home? name with
  | none => rfl
  | some i =>
    obtain ⟨scope, hscope⟩ := exists_scope (h.home?_lt hn)
    simp [cell?, hscope]

/-- A name without a home may be taken to be bound to nothing in the global scope. -/
theorem Linked.peek?_eq_cell? (h : v.Linked) (name : String) :
    v.peek? name = some (v.cell? ((v.home? name).getD 0) name) := by
  have hpos := h.pos
  have hlt : v.depth - 1 < v.depth := by omega
  rw [h.peek?_eq]
  exact congrArg some (bind_search h h hlt hlt (fun _ _ => rfl) fun _ _ _ => rfl)

/-! ### A further scope -/

theorem depth_append (v : ScopeVector) (scope : Scope (Option Nat)) :
    depth ⟨v.scopes ++ [scope]⟩ = v.depth + 1 := by
  simp [depth]

theorem getElem?_append (h : i < v.depth) (scope : Scope (Option Nat)) :
    (v.scopes ++ [scope])[i]? = v.scopes[i]? :=
  List.getElem?_append_left h

theorem getElem?_append_depth (v : ScopeVector) (scope : Scope (Option Nat)) :
    (v.scopes ++ [scope])[v.depth]? = some scope := by
  simp [depth]

/-- A scope behind the others leaves their bindings as they are. -/
theorem cell?_append (h : i < v.depth) (scope : Scope (Option Nat)) (name : String) :
    cell? ⟨v.scopes ++ [scope]⟩ i name = v.cell? i name := by
  rw [cell?, getElem?_append h, cell?]

theorem parent?_append (h : i < v.depth) (scope : Scope (Option Nat)) :
    parent? ⟨v.scopes ++ [scope]⟩ i = v.parent? i := by
  rw [parent?, getElem?_append h, parent?]

theorem Linked.append (h : v.Linked) (hlink : scope.link = some j) (hj : j < v.depth) :
    Linked ⟨v.scopes ++ [scope]⟩ := by
  refine ⟨?_, (parent?_append h.pos scope).trans h.root, fun i hi hlt => ?_⟩
  · rw [depth_append]
    omega
  · rw [depth_append] at hlt
    rcases Nat.lt_succ_iff_lt_or_eq.1 hlt with hlt | rfl
    · rw [parent?_append hlt]
      exact h.lower i hi hlt
    · refine ⟨j, hj, ?_⟩
      rw [parent?, getElem?_append_depth]
      exact hlink

theorem Linked.of_append (h : Linked ⟨v.scopes ++ [scope]⟩) (hpos : 0 < v.depth) : v.Linked := by
  refine ⟨hpos, (parent?_append hpos scope).symm.trans h.root, fun i hi hlt => ?_⟩
  rw [← parent?_append hlt scope]
  exact h.lower i hi (by rw [depth_append]; omega)

/-! ### Changes of one scope -/

/-- The scope at an index is replaced by one with the same parent. -/
structure Replaced (v v' : ScopeVector) (i : Nat) (scope scope' : Scope (Option Nat)) : Prop where
  /-- The scope that was there. -/
  before : v.scopes[i]? = some scope
  /-- The scopes after the change. -/
  after : v'.scopes = v.scopes.set i scope'
  /-- Other names are looked up where they were. -/
  link : scope'.link = scope.link

namespace Replaced

theorem depth (h : Replaced v v' i scope scope') : v'.depth = v.depth := by
  rw [ScopeVector.depth, h.after, List.length_set, ScopeVector.depth]

theorem cell? (h : Replaced v v' i scope scope') (j : Nat) (n : String) :
    v'.cell? j n = if j = i then scope'.get? n else v.cell? j n := by
  have hlt : i < v.scopes.length := lt_depth h.before
  unfold ScopeVector.cell?
  rw [h.after, List.getElem?_set]
  by_cases hj : j = i
  · subst hj
    simp [hlt]
  · simp [hj, Ne.symm hj]

theorem cell?_before (h : Replaced v v' i scope scope') (n : String) :
    v.cell? i n = scope.get? n := by
  unfold ScopeVector.cell?
  rw [h.before]
  rfl

theorem parent? (h : Replaced v v' i scope scope') (j : Nat) : v'.parent? j = v.parent? j := by
  unfold ScopeVector.parent?
  rw [h.after, List.getElem?_set]
  split
  · next hi =>
    have hlt : i < v.scopes.length := lt_depth h.before
    rw [← hi, h.before, if_pos hlt]
    exact h.link
  · rfl

theorem linked (h : Replaced v v' i scope scope') (hv : v.Linked) : v'.Linked := by
  refine ⟨?_, (h.parent? 0).trans hv.root, fun j hj hlt => ?_⟩
  · rw [h.depth]
    exact hv.pos
  · rw [h.parent?]
    exact hv.lower j hj (h.depth ▸ hlt)

theorem cell?_declare (h : Replaced v v' i scope scope') (hd : scope.declare b = .ok scope')
    (j : Nat) (n : String) :
    v'.cell? j n = if j = i ∧ b.name = n then some b else v.cell? j n := by
  rw [h.cell?]
  by_cases hj : j = i
  · subst hj
    rw [if_pos rfl, Scope.get?_declare hd, h.cell?_before]
    simp
  · rw [if_neg hj, if_neg fun h : j = i ∧ _ => hj h.1]

end Replaced

/-! ### Declaring, looking up and storing -/

/-- A declaration in a scope in range is carried out, or it clashes. -/
theorem exists_declareIn (hi : i < v.depth) (b : Binding) :
    (∃ e, v.declareIn i b = some (.error e)) ∨ ∃ v' scope scope',
      v.declareIn i b = some (.ok v') ∧ Replaced v v' i scope scope' ∧
        scope.declare b = .ok scope' := by
  obtain ⟨scope, hscope⟩ := exists_scope hi
  rw [declareIn, hscope, Option.map_some]
  cases hd : scope.declare b with
  | error e => exact .inl ⟨e, rfl⟩
  | ok scope' => exact .inr ⟨_, scope, scope', rfl, ⟨hscope, rfl, Scope.link_declare hd⟩, hd⟩

/-- A binding is changed at the home of its name, or nowhere. -/
theorem Linked.exists_adjust (h : v.Linked) (name : String) (f : Binding → Binding) :
    (v.home? name = none ∧ v.adjust name f = some v) ∨ ∃ i scope v',
      v.home? name = some i ∧ v.adjust name f = some v' ∧
        Replaced v v' i scope (scope.adjust name f) := by
  rw [adjust, h.resolve_eq]
  cases hn : v.home? name with
  | none => exact .inl ⟨rfl, rfl⟩
  | some i =>
    obtain ⟨scope, hscope⟩ := exists_scope (h.home?_lt hn)
    refine .inr ⟨i, scope, ⟨v.scopes.set i (scope.adjust name f)⟩, rfl, ?_, hscope, rfl,
      Scope.link_adjust name f scope⟩
    simp [adjustIn, hscope]

/-- A change of a binding is one at the home of its name. -/
theorem Linked.cell?_adjust (h : v.Linked) {f : Binding → Binding} (hv' : v.adjust name f = some v')
    (i : Nat) (n : String) : v'.cell? i n =
      if name = n ∧ v.home? n = some i then (v.cell? i n).map f else v.cell? i n := by
  rcases h.exists_adjust name f with ⟨hhome, hsame⟩ | ⟨place, scope, w, hhome, hw, hrep⟩
  · obtain rfl := Option.some.inj (hsame.symm.trans hv')
    rw [if_neg]
    rintro ⟨rfl, hn⟩
    rw [hhome] at hn
    cases hn
  · obtain rfl := Option.some.inj (hw.symm.trans hv')
    rw [hrep.cell?]
    by_cases hn : name = n
    · subst hn
      by_cases hi : i = place
      · subst hi
        rw [if_pos rfl, if_pos ⟨rfl, hhome⟩, Scope.get?_adjust, hrep.cell?_before]
      · rw [if_neg hi, if_neg]
        rintro ⟨-, hplace⟩
        rw [hhome] at hplace
        exact hi (Option.some.inj hplace).symm
    · rw [Scope.get?_adjust_of_ne f hn, if_neg fun h : name = n ∧ _ => hn h.1]
      split
      · next hi => rw [hi, hrep.cell?_before]
      · rfl

end Bistro.ScopeVector
