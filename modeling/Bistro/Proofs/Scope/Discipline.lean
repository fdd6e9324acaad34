import Bistro.Proofs.Scope.Refinement

/-!
# The discipline of scopes

Scopes are opened, filled and closed in any order that a program asks for.  Whatever it asks for,
the vector of scopes is linked as it should be, so that looking a name up ends in range.  The
binding of a name in a scope below the innermost one can change in three ways only: it is looked up
and so marked as used, a value is stored while the name resolves to it, or it is declared anew in
the global scope.  A block that is opened and closed again therefore leaves to each name the binding
it had, but for these changes; and a function stays what it is as long as its scope is open.

## Main definitions

* `Scope.Op`, `ScopeVector.run`, `ScopeStack.run` — operations, and rows of them.
* `ScopeVector.Above` — a row of operations never closes the scopes below a depth.
* `ScopeVector.effect`, `ScopeVector.follow` — what becomes of a binding below the innermost scope.

## Main results

* `ScopeStack.run_vector` — a row of operations does the same to a stack of scopes and to its
  vector.
* `ScopeVector.effect_cases` — the ways in which a binding changes.
* `ScopeVector.Linked.exists_apply`, `ScopeVector.Linked.exists_run` — **operations keep the vector
  linked**, and nothing they look up is out of range.
* `ScopeVector.cell?_run`, `ScopeVector.function_run` — what rows of operations do to bindings.
* `ScopeVector.scopes_disciplined` — **scopes resolve names in range, blocks leave the names outside
  them alone, and functions are never replaced.**
-/

namespace Bistro

/-! ### Operations -/

/-- What can be asked of the open scopes. -/
inductive Scope.Op
  /-- A scope is opened that links to the one around it. -/
  | push (kind : Scope.Kind)
  /-- The scope of a call is opened. -/
  | pushFunction
  /-- The scope of the entry point is opened. -/
  | pushEntry
  /-- The innermost scope is closed. -/
  | pop
  /-- A name is declared in the innermost scope. -/
  | declare (b : Binding)
  /-- A name is declared in the global scope. -/
  | declareGlobal (b : Binding)
  /-- A name is looked up, and its binding marked as used if this is asked for. -/
  | lookup (name : String) (mark : Bool)
  /-- A name is looked up without a mark. -/
  | peek (name : String)
  /-- A value is stored in the binding of a name. -/
  | set (name : String) (value : Value)

/-- Whether an operation opens a scope. -/
def Scope.Op.opens : Scope.Op → Bool
  | push _ | pushFunction | pushEntry => true
  | _ => false

/-- The vector after an operation.  A declaration that clashes changes nothing, and neither does the
closing of the global scope. -/
def ScopeVector.apply (op : Scope.Op) (v : ScopeVector) : Option ScopeVector :=
  match op with
  | .push kind => some (v.push kind)
  | .pushFunction => some v.pushFunction
  | .pushEntry => some v.pushEntry
  | .pop => some ((v.pop?.map Prod.snd).getD v)
  | .declare b => (v.declare b).map (·.toOption.getD v)
  | .declareGlobal b => (v.declareGlobal b).map (·.toOption.getD v)
  | .lookup name mark => (v.lookup name mark).map Prod.snd
  | .peek name => (v.peek? name).map fun _ => v
  | .set name value => v.adjust name (·.withValue value)

/-- The vector after a row of operations. -/
def ScopeVector.run (ops : List Scope.Op) (v : ScopeVector) : Option ScopeVector :=
  ops.foldlM (fun v op => v.apply op) v

/-- The stack of scopes after an operation. -/
def ScopeStack.apply (op : Scope.Op) (s : ScopeStack) : ScopeStack :=
  match op with
  | .push kind => s.push kind
  | .pushFunction => s.pushFunction
  | .pushEntry => s.pushEntry
  | .pop => (s.pop?.map Prod.snd).getD s
  | .declare b => (s.declare b).toOption.getD s
  | .declareGlobal b => (s.declareGlobal b).toOption.getD s
  | .lookup name mark => if mark then (s.lookup name).2 else s
  | .peek _ => s
  | .set name value => s.adjust name (·.withValue value)

/-- The stack of scopes after a row of operations. -/
def ScopeStack.run (ops : List Scope.Op) (s : ScopeStack) : ScopeStack :=
  ops.foldl (fun s op => s.apply op) s

/-! ### The same operations on stacks -/

namespace ScopeStack

/-- An operation does the same to a stack of scopes and to its vector. -/
theorem apply_vector (op : Scope.Op) (s : ScopeStack) :
    s.vector.apply op = some (s.apply op).vector := by
  have hdeclared : ∀ declared : Except DuplicateName ScopeStack,
      (declared.map vector).toOption.getD s.vector = (declared.toOption.getD s).vector := by
    intro declared
    cases declared <;> rfl
  cases op with
  | push kind => exact congrArg some (push_vector kind s)
  | pushFunction => exact congrArg some (pushFunction_vector s)
  | pushEntry => exact congrArg some (pushEntry_vector s)
  | pop =>
    rw [ScopeVector.apply, pop?_vector, apply]
    cases s.pop? <;> rfl
  | declare b =>
    rw [ScopeVector.apply, declare_vector, Option.map_some, hdeclared]
    rfl
  | declareGlobal b =>
    rw [ScopeVector.apply, declareGlobal_vector, Option.map_some, hdeclared]
    rfl
  | lookup name mark =>
    cases mark with
    | true =>
      rw [ScopeVector.apply, lookup_vector]
      rfl
    | false =>
      rw [ScopeVector.apply, lookup_vector_false]
      rfl
  | peek name =>
    rw [ScopeVector.apply, peek?_vector]
    rfl
  | set name value => exact adjust_vector name _ s

/-- **A row of operations does the same to a stack of scopes and to its vector.** -/
theorem run_vector (ops : List Scope.Op) (s : ScopeStack) :
    s.vector.run ops = some (s.run ops).vector := by
  induction ops generalizing s with
  | nil => rfl
  | cons op ops ih =>
    show (s.vector.apply op).bind (ScopeVector.run ops) = _
    rw [apply_vector]
    exact ih (s.apply op)

end ScopeStack

namespace ScopeVector

open Scope (Op)

/-- More than `depth` scopes are open, now and after each of the operations. -/
def Above (depth : Nat) : List Op → ScopeVector → Prop
  | [], v => depth < v.depth
  | op :: ops, v => depth < v.depth ∧ ∃ v', v.apply op = some v' ∧ Above depth ops v'

/-- What an operation makes of the binding of a name in a scope below the innermost one. -/
def effect (op : Op) (v : ScopeVector) (i : Nat) (name : String) (b? : Option Binding) :
    Option Binding :=
  match op with
  | .lookup n mark =>
    if mark ∧ n = name ∧ v.home? name = some i then b?.map Binding.marked else b?
  | .set n value => if n = name ∧ v.home? name = some i then b?.map (·.withValue value) else b?
  | .declareGlobal b =>
    if i = 0 ∧ b.name = name ∧ (v.declareGlobal b).any (·.isOk) then some b else b?
  | _ => b?

/-- What a row of operations makes of the binding of a name in a scope below. -/
def follow (i : Nat) (name : String) : List Op → ScopeVector → Option Binding →
    Option (Option Binding)
  | [], _, b? => some b?
  | op :: ops, v, b? => do follow i name ops (← v.apply op) (effect op v i name b?)

variable {v v' w : ScopeVector} {op : Op} {ops : List Op} {i depth : Nat} {name : String}
  {b b' : Binding}

theorem run_cons (h : v.apply op = some v') (ops : List Op) : v.run (op :: ops) = v'.run ops := by
  show (v.apply op).bind (run ops) = _
  rw [h]
  rfl

theorem follow_cons (h : v.apply op = some v') (ops : List Op) (b? : Option Binding) :
    follow i name (op :: ops) v b? = follow i name ops v' (effect op v i name b?) := by
  rw [follow, h]
  rfl

theorem above_cons (h : v.apply op = some v') :
    Above depth (op :: ops) v ↔ depth < v.depth ∧ Above depth ops v' := by
  rw [Above, h]
  simp

instance decidableAbove (depth : Nat) : ∀ ops v, Decidable (Above depth ops v)
  | [], v => inferInstanceAs (Decidable (depth < v.depth))
  | op :: ops, v =>
    match h : v.apply op with
    | some v' =>
      haveI := decidableAbove depth ops v'
      decidable_of_iff (depth < v.depth ∧ Above depth ops v') (above_cons h).symm
    | none => isFalse fun ⟨_, _, h', _⟩ => nomatch h.symm.trans h'

theorem Above.start (h : Above depth ops v) : depth < v.depth := by
  cases ops with
  | nil => exact h
  | cons op ops => exact h.1

/-- There are three ways in which the binding of a name changes in a scope below the innermost
one. -/
theorem effect_cases (op : Op) (v : ScopeVector) (i : Nat) (name : String) (b? : Option Binding) :
    effect op v i name b? = b? ∨ effect op v i name b? = b?.map Binding.marked ∨
      (∃ value, op = .set name value ∧ v.home? name = some i ∧
        effect op v i name b? = b?.map (·.withValue value)) ∨
      ∃ b, op = .declareGlobal b ∧ i = 0 ∧ b.name = name ∧
        (v.declareGlobal b).any (·.isOk) = true ∧ effect op v i name b? = some b := by
  cases op with
  | lookup n mark =>
    unfold effect
    dsimp only
    split
    · exact .inr (.inl rfl)
    · exact .inl rfl
  | set n value =>
    unfold effect
    dsimp only
    split
    · next h =>
      obtain ⟨rfl, hhome⟩ := h
      exact .inr (.inr (.inl ⟨value, rfl, hhome, rfl⟩))
    · exact .inl rfl
  | declareGlobal b =>
    unfold effect
    dsimp only
    split
    · next h => exact .inr (.inr (.inr ⟨b, rfl, h.1, h.2.1, h.2.2, rfl⟩))
    · exact .inl rfl
  | _ => exact .inl rfl

/-! ### What an operation does -/

/-- A name is declared in the scope at an index by an operation, in the place of no function. -/
def Declares (op : Op) (v : ScopeVector) (i : Nat) (name : String) : Prop :=
  ∃ b, op = .declare b ∧ b.name = name ∧ i + 1 = v.depth ∧
    ∀ earlier, v.cell? i name = some earlier → earlier.isFunction = false

/-- What an operation does: the scopes stay linked, and a scope that stays open keeps its parent,
and its bindings but for the effect of the operation, unless the operation declares a name in it. -/
structure Does (op : Op) (v v' : ScopeVector) : Prop where
  linked : v'.Linked
  parent? : ∀ i < v.depth, i < v'.depth → v'.parent? i = v.parent? i
  cell? : ∀ i < v.depth, i < v'.depth → ∀ name,
    v'.cell? i name = effect op v i name (v.cell? i name) ∨ Declares op v i name

/-- An operation that has no effect. -/
theorem Linked.does_nothing (h : v.Linked)
    (heffect : ∀ i name, effect op v i name (v.cell? i name) = v.cell? i name) : Does op v v :=
  ⟨h, fun _ _ _ => rfl, fun i _ _ name => .inl (heffect i name).symm⟩

/-- An operation opens a scope whose parent is open. -/
theorem Linked.apply_opens (h : v.Linked) (hopens : op.opens = true) : ∃ scope j,
    v.apply op = some ⟨v.scopes ++ [scope]⟩ ∧ scope.link = some j ∧ j < v.depth := by
  have hpos := h.pos
  cases op with
  | push kind =>
    refine ⟨.opened kind (some (v.depth - 1)), v.depth - 1, ?_, rfl, by omega⟩
    rw [apply, push, if_neg (by omega)]
  | pushFunction => exact ⟨_, 0, rfl, rfl, hpos⟩
  | pushEntry => exact ⟨_, 0, rfl, rfl, hpos⟩
  | _ => cases hopens

theorem Linked.does_opens (h : v.Linked) (hopens : op.opens = true) :
    ∃ v', v.apply op = some v' ∧ Does op v v' := by
  obtain ⟨scope, j, happly, hlink, hj⟩ := h.apply_opens hopens
  refine ⟨_, happly, h.append hlink hj, fun i hi _ => parent?_append hi scope,
    fun i hi _ name => .inl ?_⟩
  rw [cell?_append hi]
  cases op with
  | push kind => rfl
  | pushFunction => rfl
  | pushEntry => rfl
  | _ => cases hopens

/-- The innermost scope is closed, unless it is the only one. -/
theorem Linked.apply_pop (h : v.Linked) : (v.depth = 1 ∧ v.apply .pop = some v) ∨
    ∃ scope w, v = ⟨w.scopes ++ [scope]⟩ ∧ 0 < w.depth ∧ v.apply .pop = some w := by
  have hpos := h.pos
  by_cases hone : v.depth ≤ 1
  · refine .inl ⟨by omega, ?_⟩
    rw [apply, pop?, if_pos hone]
    rfl
  · have hne : v.scopes ≠ [] := List.ne_nil_of_length_pos hpos
    have hsplit : v = ⟨v.scopes.dropLast ++ [v.scopes.getLast hne]⟩ := by
      rw [List.dropLast_concat_getLast hne]
    refine .inr ⟨v.scopes.getLast hne, ⟨v.scopes.dropLast⟩, hsplit, ?_, ?_⟩
    · unfold depth at hone ⊢
      rw [List.length_dropLast]
      omega
    · rw [apply, pop?, if_neg hone, List.getLast?_eq_some_getLast hne]
      rfl

theorem Linked.does_pop (h : v.Linked) : ∃ v', v.apply .pop = some v' ∧ Does .pop v v' := by
  rcases h.apply_pop with ⟨-, hsame⟩ | ⟨scope, w, rfl, hw, hpop⟩
  · exact ⟨v, hsame, h.does_nothing fun _ _ => rfl⟩
  · refine ⟨w, hpop, h.of_append hw, fun i _ hi => (parent?_append hi scope).symm,
      fun i _ hi name => .inl (cell?_append hi scope name).symm⟩

theorem Linked.does_declare (h : v.Linked) (b : Binding) :
    ∃ v', v.apply (.declare b) = some v' ∧ Does (.declare b) v v' := by
  have hpos := h.pos
  rcases exists_declareIn (show v.depth - 1 < v.depth by omega) b with
    ⟨e, he⟩ | ⟨v', scope, scope', hv', hrep, hd⟩
  · refine ⟨v, ?_, h.does_nothing fun _ _ => rfl⟩
    rw [apply, declare, he]
    rfl
  · refine ⟨v', ?_, hrep.linked h, fun i _ _ => hrep.parent? i, fun i hi _ name => ?_⟩
    · rw [apply, declare, hv']
      rfl
    · rw [hrep.cell?_declare hd]
      split
      · next hhere =>
        refine .inr ⟨b, rfl, hhere.2, by omega, fun earlier hearlier => ?_⟩
        rw [hhere.1, hrep.cell?_before, ← hhere.2] at hearlier
        exact ((Scope.declare_ok hd).2 earlier hearlier).1
      · exact .inl rfl

theorem Linked.does_declareGlobal (h : v.Linked) (b : Binding) :
    ∃ v', v.apply (.declareGlobal b) = some v' ∧ Does (.declareGlobal b) v v' := by
  rcases exists_declareIn h.pos b with ⟨e, he⟩ | ⟨v', scope, scope', hv', hrep, hd⟩
  · refine ⟨v, ?_, h.does_nothing fun i name => ?_⟩
    · rw [apply, declareGlobal, he]
      rfl
    · simp [effect, declareGlobal, he, Except.isOk, Except.toBool]
  · refine ⟨v', ?_, hrep.linked h, fun i _ _ => hrep.parent? i, fun i _ _ name => .inl ?_⟩
    · rw [apply, declareGlobal, hv']
      rfl
    · rw [hrep.cell?_declare hd]
      simp [effect, declareGlobal, hv', Except.isOk, Except.toBool]

/-- An operation that changes the binding that a name resolves to. -/
theorem Linked.does_adjust (h : v.Linked) {n : String} {f : Binding → Binding}
    (happly : ∀ v', v'.Linked → v.adjust n f = some v' → v.apply op = some v')
    (heffect : ∀ i name b?, effect op v i name b? =
      if n = name ∧ v.home? name = some i then b?.map f else b?) :
    ∃ v', v.apply op = some v' ∧ Does op v v' := by
  have hcell : ∀ v', v.adjust n f = some v' → ∀ i < v.depth, i < v'.depth → ∀ name,
      v'.cell? i name = effect op v i name (v.cell? i name) ∨ Declares op v i name := by
    intro v' hv' i _ _ name
    rw [heffect]
    exact .inl (h.cell?_adjust hv' i name)
  rcases h.exists_adjust n f with ⟨-, hsame⟩ | ⟨place, scope, v', -, hv', hrep⟩
  · exact ⟨v, happly v h hsame, h, fun _ _ _ => rfl, hcell v hsame⟩
  · have hlinked := hrep.linked h
    exact ⟨v', happly v' hlinked hv', hlinked, fun i _ _ => hrep.parent? i, hcell v' hv'⟩

/-- **An operation keeps the vector linked**, and nothing that it looks up is out of range. -/
theorem Linked.exists_apply (h : v.Linked) (op : Op) :
    ∃ v', v.apply op = some v' ∧ Does op v v' := by
  cases op with
  | push kind => exact h.does_opens rfl
  | pushFunction => exact h.does_opens rfl
  | pushEntry => exact h.does_opens rfl
  | pop => exact h.does_pop
  | declare b => exact h.does_declare b
  | declareGlobal b => exact h.does_declareGlobal b
  | lookup name mark =>
    cases mark with
    | false =>
      refine ⟨v, ?_, h.does_nothing fun _ _ => by simp [effect]⟩
      simp [apply, lookup, h.peek?_eq]
    | true =>
      refine h.does_adjust (n := name) (f := Binding.marked) (fun v' hlinked hv' => ?_)
        fun i n b? => by simp [effect]
      simp [apply, lookup, hv', hlinked.peek?_eq]
  | peek name =>
    refine ⟨v, ?_, h.does_nothing fun _ _ => rfl⟩
    rw [apply, h.peek?_eq]
    rfl
  | set name value => exact h.does_adjust (fun _ _ => id) fun i n b? => rfl

/-- **A row of operations keeps the vector linked.** -/
theorem Linked.exists_run (h : v.Linked) (ops : List Op) :
    ∃ v', v.run ops = some v' ∧ v'.Linked := by
  induction ops generalizing v with
  | nil => exact ⟨v, rfl, h⟩
  | cons op ops ih =>
    obtain ⟨v', happly, hdoes⟩ := h.exists_apply op
    rw [run_cons happly]
    exact ih hdoes.linked

/-- A function stays what it is under an operation that leaves its scope open. -/
theorem function_apply (hdoes : Does op v v') (hi : i < v.depth) (hi' : i < v'.depth)
    (hb : v.cell? i name = some b) (hfun : b.isFunction = true) :
    ∃ b', v'.cell? i name = some b' ∧ b'.bare = b.bare := by
  rcases hdoes.cell? i hi hi' name with h | ⟨-, -, -, -, hnone⟩
  · rw [h]
    rcases effect_cases op v i name (v.cell? i name) with
      heq | heq | ⟨value, -, -, heq⟩ | ⟨g, -, rfl, rfl, hok, -⟩
    · exact ⟨b, heq.trans hb, rfl⟩
    · exact ⟨b.marked, by rw [heq, hb]; rfl, rfl⟩
    · exact ⟨b.withValue value, by rw [heq, hb]; rfl, rfl⟩
    · -- a function would not have been replaced
      rcases exists_declareIn hi g with ⟨e, he⟩ | ⟨w, scope, scope', -, hrep, hd⟩
      · rw [declareGlobal, he] at hok
        cases hok
      · rw [hrep.cell?_before] at hb
        rw [((Scope.declare_ok hd).2 b hb).1] at hfun
        cases hfun
  · rw [hnone b hb] at hfun
    cases hfun

/-! ### What a row of operations does -/

/-- Bindings below a depth that a row of operations stays above. -/
theorem cell?_run (hv : v.Linked) (h : Above depth ops v) (hrun : v.run ops = some w)
    (hi : i < depth) (name : String) :
    follow i name ops v (v.cell? i name) = some (w.cell? i name) := by
  induction ops generalizing v with
  | nil =>
    obtain rfl := Option.some.inj hrun
    rfl
  | cons op ops ih =>
    obtain ⟨v', happly, hdoes⟩ := hv.exists_apply op
    obtain ⟨hstart, habove⟩ := (above_cons happly).1 h
    have hnext := habove.start
    rw [run_cons happly] at hrun
    have hcell : v'.cell? i name = effect op v i name (v.cell? i name) := by
      rcases hdoes.cell? i (by omega) (by omega) name with h | ⟨b, -, -, hlast, -⟩
      · exact h
      · omega
    rw [follow_cons happly, ← hcell]
    exact ih hdoes.linked habove hrun

theorem parent?_run (hv : v.Linked) (h : Above depth ops v) (hrun : v.run ops = some w)
    (hi : i ≤ depth) : w.parent? i = v.parent? i := by
  induction ops generalizing v with
  | nil =>
    obtain rfl := Option.some.inj hrun
    rfl
  | cons op ops ih =>
    obtain ⟨v', happly, hdoes⟩ := hv.exists_apply op
    obtain ⟨hstart, habove⟩ := (above_cons happly).1 h
    have hnext := habove.start
    rw [run_cons happly] at hrun
    rw [ih hdoes.linked habove hrun, hdoes.parent? i (by omega) (by omega)]

/-- **A function stays what it is** as long as its scope is open. -/
theorem function_run (hv : v.Linked) (h : Above i ops v) (hb : v.cell? i name = some b)
    (hfun : b.isFunction = true) :
    ∃ w b', v.run ops = some w ∧ w.cell? i name = some b' ∧ b'.bare = b.bare := by
  induction ops generalizing v b with
  | nil => exact ⟨v, b, rfl, hb, rfl⟩
  | cons op ops ih =>
    obtain ⟨v', happly, hdoes⟩ := hv.exists_apply op
    obtain ⟨hstart, habove⟩ := (above_cons happly).1 h
    obtain ⟨b₁, hb₁, hbare₁⟩ := function_apply hdoes hstart habove.start hb hfun
    have hfun₁ : b₁.isFunction = true := by
      have : b₁.bare.isFunction = b.bare.isFunction := by rw [hbare₁]
      exact this.trans hfun
    obtain ⟨w, b', hrun, hb', hbare'⟩ := ih hdoes.linked habove hb₁ hfun₁
    exact ⟨w, b', (run_cons happly ops).trans hrun, hb', hbare'.trans hbare₁⟩

/-! ### Blocks -/

/-- An operation unbinds nothing in a scope below the innermost one, and binds something new in the
global scope only. -/
theorem isSome_effect (hi : 0 < i) (op : Op) (v : ScopeVector) (name : String)
    (b? : Option Binding) : (effect op v i name b?).isSome = b?.isSome := by
  rcases effect_cases op v i name b? with heq | heq | ⟨value, -, -, heq⟩ | ⟨b, -, hzero, -⟩
  · rw [heq]
  · rw [heq, Option.isSome_map]
  · rw [heq, Option.isSome_map]
  · exact absurd hzero (Nat.ne_of_gt hi)

theorem isSome_follow (hi : 0 < i) {b? after? : Option Binding}
    (h : follow i name ops v b? = some after?) : after?.isSome = b?.isSome := by
  induction ops generalizing v b? with
  | nil =>
    obtain rfl := Option.some.inj h
    rfl
  | cons op ops ih =>
    obtain ⟨v', -, h⟩ := Option.bind_eq_some_iff.1 h
    rw [ih h, isSome_effect hi]

variable {opening : Op} {body : List Op} {opened closing : ScopeVector}

/-- The scopes behind a block: those before it, but for what was done to their bindings. -/
theorem block_scopes (hv : v.Linked) (hopens : opening.opens = true)
    (hopened : v.apply opening = some opened) (h : Above v.depth body opened)
    (hclosing : opened.run body = some closing) (hmatch : closing.depth = v.depth + 1) :
    ∃ closed, closing.apply .pop = some closed ∧ closed.Linked ∧ closed.depth = v.depth ∧
      ∀ i < v.depth, closed.parent? i = v.parent? i ∧
        ∀ name, follow i name body opened (v.cell? i name) = some (closed.cell? i name) := by
  have hpos := hv.pos
  obtain ⟨scope, j, happly, hlink, hj⟩ := hv.apply_opens hopens
  obtain rfl := Option.some.inj (happly.symm.trans hopened)
  have hlinked := hv.append hlink hj
  have hclosinglinked : closing.Linked := by
    obtain ⟨w, hrun, hw⟩ := hlinked.exists_run body
    exact Option.some.inj (hrun.symm.trans hclosing) ▸ hw
  rcases hclosinglinked.apply_pop with ⟨hone, -⟩ | ⟨top, closed, rfl, hclosed, hpop⟩
  · -- one scope more than before is open, so that it is not the global one
    omega
  · have hdepth : closed.depth = v.depth := by
      rw [depth_append] at hmatch
      omega
    refine ⟨closed, hpop, hclosinglinked.of_append hclosed, hdepth,
      fun i hi => ⟨?_, fun name => ?_⟩⟩
    · rw [← parent?_append (hdepth ▸ hi) top, parent?_run hlinked h hclosing (Nat.le_of_lt hi),
        parent?_append hi]
    · have hcell := cell?_run hlinked h hclosing hi name
      rwa [cell?_append hi, cell?_append (hdepth ▸ hi)] at hcell

/-- **A block leaves to each name the binding it had**, but for what was done to this binding. -/
theorem peek?_block (hv : v.Linked) (hopens : opening.opens = true)
    (hopened : v.apply opening = some opened) (h : Above v.depth body opened)
    (hclosing : opened.run body = some closing) (hmatch : closing.depth = v.depth + 1) :
    ∃ closed, closing.apply .pop = some closed ∧ closed.Linked ∧ closed.depth = v.depth ∧
      ∀ name, closed.peek? name =
        (v.peek? name).bind (follow ((v.home? name).getD 0) name body opened) := by
  obtain ⟨closed, hpop, hclosed, hdepth, hbelow⟩ :=
    block_scopes hv hopens hopened h hclosing hmatch
  have hpos := hv.pos
  refine ⟨closed, hpop, hclosed, hdepth, fun name => ?_⟩
  have hhome : (v.home? name).getD 0 < v.depth := by
    cases hn : v.home? name with
    | none => exact hpos
    | some i => exact hv.home?_lt hn
  have hfound : closed.peek? name = some (closed.cell? ((v.home? name).getD 0) name) := by
    rw [hclosed.peek?_eq, home?, hdepth]
    refine congrArg some (bind_search hv hclosed (by omega) (by omega)
      (fun j hj => (hbelow j (by omega)).1) fun j hj hpos => ?_)
    exact isSome_follow hpos ((hbelow j (by omega)).2 name)
  rw [hfound, hv.peek?_eq_cell?, Option.bind_some, (hbelow _ hhome).2]

/-- A binding that is neither declared anew nor stored in is left but for its mark of use. -/
theorem unmarked_follow {b? after? : Option Binding} (h : follow i name ops v b? = some after?)
    (hdecl : ∀ b, .declareGlobal b ∈ ops → b.name ≠ name)
    (hset : b? = none ∨ ∀ before value after w, ops = before ++ .set name value :: after →
      v.run before = some w → w.home? name ≠ some i) :
    after?.map Binding.unmarked = b?.map Binding.unmarked := by
  induction ops generalizing v b? with
  | nil =>
    obtain rfl := Option.some.inj h
    rfl
  | cons op ops ih =>
    obtain ⟨v', happly, h⟩ := Option.bind_eq_some_iff.1 h
    have heffect : (effect op v i name b?).map Binding.unmarked = b?.map Binding.unmarked := by
      rcases effect_cases op v i name b? with
        heq | heq | ⟨value, rfl, hhome, heq⟩ | ⟨b, rfl, -, hname, -⟩
      · rw [heq]
      · rw [heq, Option.map_map]
        rfl
      · rcases hset with rfl | hset
        · rw [heq]
          rfl
        · exact absurd hhome (hset [] value ops v rfl rfl)
      · exact absurd hname (hdecl b List.mem_cons_self)
    refine Eq.trans (ih h (fun b hb => hdecl b (List.mem_cons_of_mem _ hb)) ?_) heffect
    rcases hset with rfl | hset
    · rw [Option.map_none, Option.map_eq_none_iff] at heffect
      exact .inl heffect
    · refine .inr fun before value after w heq hrun => ?_
      exact hset (op :: before) value after w (by rw [heq]; rfl)
        ((run_cons happly before).trans hrun)

/-! ### Any row of operations -/

/-- **Scopes resolve names in range, blocks leave the names outside them alone, and functions are
never replaced.**  No row of operations comes to an index out of range.  After it the global scope
is open and has no parent, the parent of every other scope stands before it, and the walk along the
parents ends, however many more steps it may take, at the scope that binds the name or nowhere.
Behind a block that is opened then, filled in any way that does not close what was open before it,
and closed, every name resolves to the binding it had, but for what was done to this binding: it was
looked up, stored in while the name resolved to it, or declared in the global scope.  A function
stays what it is as long as its scope is open.  And the vector is the one that the stack of scopes
stands for, with which programs run. -/
theorem scopes_disciplined (ops : List Op) : ∃ v, run ops initial = some v ∧
    (0 < v.depth ∧ v.parent? 0 = none ∧
      ∀ i, 0 < i → i < v.depth → ∃ j < i, v.parent? i = some j) ∧
    (∀ name,
      (∀ steps ≥ v.depth, v.walk name steps (some (v.depth - 1)) = some (v.home? name)) ∧
      (∀ i, v.home? name = some i → i < v.depth ∧ (v.cell? i name).isSome) ∧
      v.peek? name = some ((v.home? name).bind (v.cell? · name))) ∧
    (∀ opening : Op, opening.opens = true → ∃ opened, v.apply opening = some opened ∧
      ∀ body, Above v.depth body opened → ∃ closing, opened.run body = some closing ∧
        (closing.depth = v.depth + 1 → ∃ closed, closing.apply .pop = some closed ∧
          closed.depth = v.depth ∧ ∀ name,
            closed.peek? name =
              (v.peek? name).bind (follow ((v.home? name).getD 0) name body opened) ∧
            ((∀ b, .declareGlobal b ∈ body → b.name ≠ name) →
              (∀ before value after w, body = before ++ .set name value :: after →
                opened.run before = some w → w.home? name ≠ v.home? name) →
              (closed.peek? name).map (·.map Binding.unmarked) =
                (v.peek? name).map (·.map Binding.unmarked)))) ∧
    (∀ more i name b, Above i more v → v.cell? i name = some b → b.isFunction = true →
      ∃ w b', v.run more = some w ∧ w.cell? i name = some b' ∧ b'.bare = b.bare) ∧
    v = (ScopeStack.run ops .initial).vector ∧
    ∀ name, v.peek? name = some ((ScopeStack.run ops .initial).peek? name) := by
  obtain ⟨v, hrun, hv⟩ := Linked.initial.exists_run ops
  have hpos := hv.pos
  have hlast : v.depth - 1 < v.depth := by omega
  have hstack : v = (ScopeStack.run ops .initial).vector :=
    Option.some.inj (hrun.symm.trans (ScopeStack.run_vector ops .initial))
  refine ⟨v, hrun, ⟨hpos, hv.root, hv.lower⟩, fun name => ⟨fun steps hsteps => ?_, fun i hi => ?_,
    hv.peek?_eq name⟩, fun opening hopens => ?_, ?_, hstack, fun name => ?_⟩
  · exact hv.walk_eq hlast (by omega)
  · exact ⟨hv.home?_lt hi, (hv.search_some hlast hi).2⟩
  · obtain ⟨opened, hopened, hdoes⟩ := hv.exists_apply opening
    refine ⟨opened, hopened, fun body habove => ?_⟩
    obtain ⟨closing, hclosing, -⟩ := hdoes.linked.exists_run body
    refine ⟨closing, hclosing, fun hmatch => ?_⟩
    obtain ⟨closed, hpop, hclosed, hdepth, hpeek⟩ :=
      peek?_block hv hopens hopened habove hclosing hmatch
    refine ⟨closed, hpop, hdepth, fun name => ⟨hpeek name, fun hdecl hset => ?_⟩⟩
    have hfollow := hpeek name
    rw [hclosed.peek?_eq, hv.peek?_eq, Option.bind_some] at hfollow
    rw [hclosed.peek?_eq, hv.peek?_eq]
    refine congrArg some (unmarked_follow hfollow.symm hdecl ?_)
    cases hhome : v.home? name with
    | none => exact .inl rfl
    | some i =>
      refine .inr fun before value after w heq hrun => ?_
      have hhere := hset before value after w heq hrun
      rwa [hhome] at hhere
  · exact fun more i name b habove hb hfun => function_run hv habove hb hfun
  · rw [hstack]
    exact ScopeStack.peek?_vector _ name

/-- A variable is stored in, shadowed in a branch, stored in there, and stored in again and looked
up from a call inside the branch: behind the branch it holds what was stored last while its name
resolved to it. -/
theorem scopes_disciplined_shadowed :
    (run [.declare (.scalar "x" .pinch 1), .push .branch, .set "x" (.pinch 1),
      .declare (.scalar "x" .pasta 2), .set "x" (.pasta "s"), .pushFunction, .set "x" (.pinch 3),
      .lookup "x" true, .pop, .pop] initial).bind (·.peek? "x") =
      some (some ⟨"x", .scalar .pinch, some (.pinch 3), true, 1⟩) := by
  obtain ⟨v, hv, -, -, hblock, -⟩ := scopes_disciplined [.declare (.scalar "x" .pinch 1)]
  obtain rfl := Option.some.inj hv
  obtain ⟨opened, hopened, hblock⟩ := hblock (.push .branch) rfl
  obtain rfl := Option.some.inj hopened
  obtain ⟨closing, hclosing, hblock⟩ := hblock
    [.set "x" (.pinch 1), .declare (.scalar "x" .pasta 2), .set "x" (.pasta "s"), .pushFunction,
      .set "x" (.pinch 3), .lookup "x" true, .pop] (by decide)
  obtain rfl := Option.some.inj hclosing
  obtain ⟨closed, hclosed, -, hpeek⟩ := hblock (by decide)
  obtain rfl := Option.some.inj hclosed
  exact (hpeek "x").1

end ScopeVector

end Bistro
