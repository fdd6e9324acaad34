import Bistro.Proofs.Exec.Balanced

/-!
# Calls are isolated from the scopes of their callers

Names that are not bound in the scope of a call are looked up in the global one, whatever is open in
between.  So a call runs in the same way over any scopes of its callers, and it leaves these scopes
untouched: their values and marks of use as well as the names declared in them.

## Main definitions

* `ScopeStack.onto`, `Machine.onto` — the same state with further scopes around the open ones.
* `ScopeStack.Closed` — a scope among the open ones links to the global one.
* `Exec.Framed` — a step runs in the same way over any scopes around closed ones.
* `Exec.Blind` — a step that neither reads nor changes scopes.
* `Machine.AlikeOutside` — two states differ at most in the scopes inside the global one.

## Main results

* `ScopeStack.lookup_onto`, `ScopeStack.adjust_onto` — a closed row of scopes hides those around it.
* `Exec.framed_primitive` — all steps are framed.
* `Exec.invoke_onto` — a call runs in the same way over any scopes.
* `Exec.call_isolated` — **a call is isolated from the scopes of its callers.**
-/

namespace Bistro

/-! ### Scopes around closed ones -/

namespace ScopeStack

variable {s s' : ScopeStack}

/-- The same scopes with further ones around them, inside the global one. -/
def onto (base : List Scope) (s : ScopeStack) : ScopeStack := { s with inner := s.inner ++ base }

/-- A scope among the open ones links to the global one. -/
def Closed (s : ScopeStack) : Prop := Scope.Link.global ∈ s.inner.map Scope.link

theorem Closed.of_shape (h : s.Closed) (hshape : s'.shape = s.shape) : s'.Closed := by
  -- the last entry of a shape is that of the global scope, which is not asked for
  have hinner : s'.inner.map (fun scope => (scope.kind, scope.link)) =
      s.inner.map (fun scope => (scope.kind, scope.link)) := by
    simp only [shape, List.map_append] at hshape
    exact List.append_inj_left' hshape rfl
  have hlinks : s'.inner.map Scope.link = s.inner.map Scope.link := by
    have hmap := congrArg (List.map Prod.snd) hinner
    rw [List.map_map, List.map_map] at hmap
    exact hmap
  rw [Closed, hlinks]
  exact h

theorem Closed.push (h : s.Closed) (kind : Scope.Kind) : (s.push kind).Closed :=
  List.mem_cons_of_mem _ h

theorem closed_pushFunction (s : ScopeStack) : s.pushFunction.Closed := List.mem_cons_self

theorem Closed.inner_ne_nil (h : s.Closed) : s.inner ≠ [] := by
  intro hnil
  rw [Closed, hnil] at h
  cases h

theorem resolve?_append (name : String) (global : Scope) {scopes : List Scope}
    (h : Scope.Link.global ∈ scopes.map Scope.link) (base : List Scope) :
    resolve? name global (scopes ++ base) = resolve? name global scopes := by
  induction scopes with
  | nil => cases h
  | cons scope outer ih =>
    rw [List.cons_append, resolve?, resolve?]
    cases hb : scope.get? name with
    | some b => rfl
    | none =>
      cases hl : scope.link with
      | global => rfl
      | outer =>
        rw [List.map_cons, hl] at h
        have houter : Scope.Link.global ∈ outer.map Scope.link := by simpa using h
        exact ih houter

theorem adjustFrom_append (name : String) (f : Binding → Binding) (global : Scope)
    {scopes : List Scope} (h : Scope.Link.global ∈ scopes.map Scope.link) (base : List Scope) :
    adjustFrom name f global (scopes ++ base) =
      ((adjustFrom name f global scopes).1 ++ base, (adjustFrom name f global scopes).2) := by
  induction scopes with
  | nil => cases h
  | cons scope outer ih =>
    rw [List.cons_append, adjustFrom, adjustFrom]
    cases hb : scope.get? name with
    | some b => rfl
    | none =>
      cases hl : scope.link with
      | global => rfl
      | outer =>
        rw [List.map_cons, hl] at h
        have houter : Scope.Link.global ∈ outer.map Scope.link := by simpa using h
        simp only [ih houter, List.cons_append]

/-- What a name resolves to does not depend on the scopes around closed ones. -/
theorem peek?_onto (h : s.Closed) (base : List Scope) (name : String) :
    (s.onto base).peek? name = s.peek? name :=
  resolve?_append name s.global h base

theorem adjust_onto (h : s.Closed) (base : List Scope) (name : String) (f : Binding → Binding) :
    (s.onto base).adjust name f = (s.adjust name f).onto base := by
  have happend := adjustFrom_append name f s.global h base
  simp only [adjust, onto, happend]

theorem lookup_onto (h : s.Closed) (base : List Scope) (name : String) :
    (s.onto base).lookup name = ((s.lookup name).1, (s.lookup name).2.onto base) := by
  have hclosed : (s.adjust name Binding.marked).Closed :=
    h.of_shape (shape_of_frame (frame_of_bare (bare_adjust Binding.valueOnly_marked name s)))
  simp only [lookup, adjust_onto h base, peek?_onto hclosed base]

theorem declare_onto (h : s.inner ≠ []) (base : List Scope) (b : Binding) :
    (s.onto base).declare b = (s.declare b).map (onto base) := by
  obtain ⟨inner, global⟩ := s
  cases inner with
  | nil => exact absurd rfl h
  | cons scope outer =>
    simp only [declare, onto, List.cons_append]
    cases scope.declare b with
    | error e => rfl
    | ok scope' => rfl

end ScopeStack

/-- The same state with further scopes around the open ones, inside the global one. -/
def Machine.onto (base : List Scope) (m : Machine) : Machine :=
  { m with scopes := m.scopes.onto base }

/-! ### Steps over further scopes -/

namespace Exec

variable {α β : Type} {x : Exec α} {base : List Scope}

/-- A step from a state with closed scopes runs in the same way over any scopes around them. -/
def Framed (x : Exec α) : Prop :=
  ∀ m base, m.scopes.Closed → x.run (m.onto base) = ((x.run m).1, (x.run m).2.onto base)

theorem Framed.bind {f : α → Exec β} (hrestores : Restores ScopeStack.frame x) (hx : Framed x)
    (hf : ∀ a, Framed (f a)) : Framed (x >>= f) := by
  intro m base hm
  have hclosed := hm.of_shape (hrestores.shape m).scopes
  rw [run_bind, hx m base hm]
  exact hf _ _ base hclosed

theorem Framed.lookup (name : String) : Framed (lookup name) := by
  intro m base hm
  have hscopes := ScopeStack.lookup_onto hm base name
  simp only [run_lookup, Machine.onto, hscopes]

theorem Framed.adjust (name : String) (f : Binding → Binding) :
    Framed (modify fun m => { m with scopes := m.scopes.adjust name f } : Exec PUnit) := by
  intro m base hm
  have hscopes := ScopeStack.adjust_onto hm base name f
  show (PUnit.unit, { m.onto base with scopes := (m.scopes.onto base).adjust name f }) = _
  rw [hscopes]
  rfl

theorem Framed.declare (b : Binding) : Framed (declare b) := by
  intro m base hm
  have hscopes := ScopeStack.declare_onto hm.inner_ne_nil base b
  rw [run_declare, run_declare]
  simp only [Machine.onto, hscopes]
  cases m.scopes.declare b with
  | ok scopes => rfl
  | error e => rfl

theorem Framed.atSite (hx : Framed x) (site : Site) : Framed (atSite site x) := by
  intro m base hm
  have hstep := hx { m with diagnostics := m.diagnostics.enter site } base hm
  rw [run_atSite, run_atSite]
  simp only [Machine.onto] at hstep ⊢
  rw [hstep]

/-- The innermost scope is closed in the same way over any scopes. -/
theorem closeScope_onto {m : Machine} {scope : Scope} {outer : List Scope}
    (h : m.scopes.inner = scope :: outer) :
    (closeScope.run (m.onto base)).2 = (closeScope.run m).2.onto base := by
  have honto : (m.onto base).scopes.inner = scope :: (outer ++ base) := by
    show m.scopes.inner ++ base = _
    rw [h, List.cons_append]
  rw [run_closeScope honto, run_closeScope h]
  rfl

theorem Framed.inScope (hrestores : Restores ScopeStack.frame x) (hx : Framed x)
    (kind : Scope.Kind) : Framed (inScope (·.push kind) x) := by
  intro m base hm
  have hstep := hx { m with scopes := m.scopes.push kind } base (hm.push kind)
  have hinner := (hrestores { m with scopes := m.scopes.push kind }).scopes
  obtain ⟨scope, outer, hinner, -, -⟩ := ScopeStack.exists_inner hinner
  have hrun : ∀ m, (Exec.inScope (·.push kind) x).run m =
      let r := x.run { m with scopes := m.scopes.push kind }
      (r.1, (closeScope.run r.2).2) := fun _ => rfl
  have hpush : { m.onto base with scopes := (m.onto base).scopes.push kind } =
      Machine.onto base { m with scopes := m.scopes.push kind } := rfl
  rw [hrun, hrun, hpush, hstep]
  simp only [closeScope_onto hinner]

/-- A call needs no closed scopes around it, since its own scope links to the global one. -/
theorem inCall_onto (hrestores : Restores ScopeStack.frame x) (hx : Framed x) (m : Machine)
    (base : List Scope) :
    (inCall x).run (m.onto base) = (((inCall x).run m).1, ((inCall x).run m).2.onto base) := by
  let entered (m : Machine) : Machine :=
    { m with scopes := m.scopes.pushFunction, callDepth := m.callDepth + 1 }
  have hstep := hx (entered m) base (ScopeStack.closed_pushFunction m.scopes)
  obtain ⟨scope, outer, hinner, -, -⟩ := ScopeStack.exists_inner (hrestores (entered m)).scopes
  have hrun : ∀ m, (Exec.inCall x).run m =
      let r := x.run (entered m)
      let n := (closeScope.run r.2).2
      (r.1, { n with callDepth := n.callDepth - 1 }) := fun _ => rfl
  have hpush : entered (m.onto base) = (entered m).onto base := rfl
  rw [hrun, hrun, hpush, hstep]
  simp only [closeScope_onto hinner]
  rfl

/-- All steps are framed. -/
theorem framed_primitive :
    Primitive (fun _ x _ => Restores ScopeStack.frame x ∧ Framed x)
      (fun _ x _ => Restores ScopeStack.frame x ∧ Framed x) where
  pure a := ⟨.pure a, fun _ _ _ => rfl⟩
  bind hx hf := ⟨hx.1.bind fun a => (hf a).1, hx.2.bind hx.1 fun a => (hf a).2⟩
  row hx hf := ⟨hx.1.bind fun a => (hf a).1, hx.2.bind hx.1 fun a => (hf a).2⟩
  loosen hx := hx
  report f line := ⟨.report f line, fun _ _ _ => rfl⟩
  lookup name := ⟨(restores_primitive.lookup name).loosen, .lookup name⟩
  adjust hf name := ⟨(restores_primitive.adjust hf name).loosen, .adjust name _⟩
  serve text line := ⟨(restores_primitive.serve text line).loosen, fun _ _ _ => rfl⟩
  ask name := ⟨(restores_primitive.ask name).loosen, fun _ _ _ => rfl⟩
  declare b := ⟨.declare b, .declare b⟩
  atSite site hx := ⟨hx.1.atSite site, hx.2.atSite site⟩
  rowAtSite site hx := ⟨hx.1.atSite site, hx.2.atSite site⟩
  inScope _ hx := ⟨(hx.1.inScope _).loosen, hx.2.inScope hx.1 _⟩

/-! ### Calls over further scopes -/

/-- A step that neither reads nor changes scopes. -/
def Blind (x : Exec α) : Prop :=
  ∀ m scopes, x.run { m with scopes } = ((x.run m).1, { (x.run m).2 with scopes })

theorem Blind.pure (a : α) : Blind (pure a : Exec α) := fun _ _ => rfl

theorem Blind.bind {f : α → Exec β} (hx : Blind x) (hf : ∀ a, Blind (f a)) :
    Blind (x >>= f) := by
  intro m scopes
  rw [run_bind, hx m scopes]
  exact hf _ _ scopes

theorem Blind.report (f : Finding) (line : Nat) : Blind (report f line) := fun _ _ => rfl

theorem Blind.reject (f : Finding) (line : Nat) : Blind (reject f line : Exec (Option α)) :=
  (Blind.report f line).bind fun _ => .pure none

theorem Blind.checkType (target : ValueType) (v : Value) (use : Finding.Use) (line : Nat) :
    Blind (checkType target v use line) := by
  unfold Exec.checkType
  split
  · exact .pure _
  · exact .reject _ _

theorem Blind.checkArguments (f : Function) (line place : Nat) (parameters : List Parameter)
    (values : List Value) : Blind (checkArguments f line place parameters values) := by
  induction parameters generalizing place values with
  | nil => exact .pure _
  | cons p parameters ih =>
    cases values with
    | nil => exact .pure _
    | cons v values =>
      exact (Blind.checkType _ _ _ _).bind fun v => (ih _ values).bind fun vs => .pure _

/-- A step that is blind to scopes runs in the same way over any of them. -/
theorem Blind.onto (hx : Blind x) (m : Machine) (base : List Scope) :
    x.run (m.onto base) = ((x.run m).1, (x.run m).2.onto base) := by
  have hsame := hx m m.scopes
  have honto := hx m (m.scopes.onto base)
  -- such a step leaves the scopes it began with
  have hscopes : (x.run m).2.scopes = m.scopes := by
    have hrun : x.run m = ((x.run m).1, { (x.run m).2 with scopes := m.scopes }) := hsame
    rw [hrun]
  rw [Machine.onto, Machine.onto, hscopes]
  exact honto

theorem framed_invoke (limits : Limits) (depth : Nat) :
    CallsAlike (fun _ x _ => Restores ScopeStack.frame x ∧ Framed x) (invoke limits depth)
      (invoke limits depth) :=
  Congruence.invoke (R := fun _ _ x _ => Restores ScopeStack.frame x ∧ Framed x) limits
    (fun _ => framed_primitive)
    (fun _ _ _ hx => ⟨hx.1.inCall.loosen, fun m base _ => inCall_onto hx.1 hx.2 m base⟩) depth

/-- **A call runs in the same way over any scopes.** -/
theorem invoke_onto (limits : Limits) (depth : Nat) (f : Function) (line : Nat)
    (args : List (Option Value)) (m : Machine) (base : List Scope) :
    (invoke limits depth f line args).run (m.onto base) =
      (((invoke limits depth f line args).run m).1,
        ((invoke limits depth f line args).run m).2.onto base) := by
  unfold invoke
  split
  · exact (Blind.reject _ _).onto m base
  · split
    · rfl
    · cases depth with
      | zero => exact (Blind.reject _ _).onto m base
      | succ depth =>
        -- the arguments are checked before the scope of the call is opened
        rw [run_bind, run_bind, (Blind.checkArguments f line 1 _ _).onto m base]
        dsimp only
        split
        · rfl
        · next values _ =>
          have hbody : ∀ n : Machine,
              (runBody limits (invoke limits depth) f values).run (n.onto base) =
                (((runBody limits (invoke limits depth) f values).run n).1,
                  ((runBody limits (invoke limits depth) f values).run n).2.onto base) :=
            (framed_primitive.congruence limits).runBody (framed_invoke limits depth)
              (T := fun x _ => ∀ n : Machine,
                x.run (n.onto base) = ((x.run n).1, (x.run n).2.onto base))
              (fun _ _ hx n => inCall_onto hx.1 hx.2 n base) f values
          exact hbody _

end Exec

/-! ### Callers -/

/-- Two states differ at most in the scopes inside the global one. -/
structure Machine.AlikeOutside (m m' : Machine) : Prop where
  global : m.scopes.global = m'.scopes.global
  callDepth : m.callDepth = m'.callDepth
  diagnostics : m.diagnostics = m'.diagnostics
  output : m.output = m'.output
  input : m.input = m'.input

namespace Exec

/-- **A call is isolated from the scopes of its callers.**  From two states that differ only in the
scopes inside the global one, however many there are, it gives the same result and leaves the same
global scope, findings, output and input; and in each of them it leaves the scopes inside the global
one as they were. -/
theorem call_isolated (limits : Limits) (depth : Nat) (f : Function) (line : Nat)
    (args : List (Option Value)) (m m' : Machine) (h : m.AlikeOutside m') :
    ((invoke limits depth f line args).run m).1 = ((invoke limits depth f line args).run m').1 ∧
    Machine.AlikeOutside ((invoke limits depth f line args).run m).2
      ((invoke limits depth f line args).run m').2 ∧
    ((invoke limits depth f line args).run m).2.scopes.inner = m.scopes.inner ∧
    ((invoke limits depth f line args).run m').2.scopes.inner = m'.scopes.inner := by
  -- both states lie over the one in which only the global scope is open
  let bottom : Machine := { m with scopes := { m.scopes with inner := [] } }
  have hm : m = bottom.onto m.scopes.inner := rfl
  have hm' : m' = bottom.onto m'.scopes.inner := by
    obtain ⟨⟨inner, global⟩, diagnostics, output, input, callDepth⟩ := m
    obtain ⟨⟨inner', global'⟩, diagnostics', output', input', callDepth'⟩ := m'
    obtain ⟨rfl, rfl, rfl, rfl, rfl⟩ := h
    rfl
  have hinner : ((invoke limits depth f line args).run bottom).2.scopes.inner = [] := by
    have hbare := (restores_invoke limits depth f line args bottom).scopes
    simp only [ScopeStack.bare, ScopeStack.mk.injEq] at hbare
    exact List.map_eq_nil_iff.1 hbare.1
  have hrun := invoke_onto limits depth f line args bottom m.scopes.inner
  have hrun' := invoke_onto limits depth f line args bottom m'.scopes.inner
  rw [← hm] at hrun
  rw [← hm'] at hrun'
  rw [hrun, hrun']
  refine ⟨rfl, ⟨rfl, rfl, rfl, rfl, rfl⟩, ?_, ?_⟩
  · show ((invoke limits depth f line args).run bottom).2.scopes.inner ++ m.scopes.inner = _
    rw [hinner, List.nil_append]
  · show ((invoke limits depth f line args).run bottom).2.scopes.inner ++ m'.scopes.inner = _
    rw [hinner, List.nil_append]

/-- A function that counts its calls in a global variable and gives their number. -/
def countingFunction : Function :=
  ⟨"ring", some .pinch, [], [], [.step "bell" .increment 2], some (.var "bell" 3), 1⟩

/-- A state in which the global variable `bell` is hidden by locals with the given values, each in a
scope of its own. -/
def hiddenBell (locals : List Int) : Machine where
  scopes :=
    { inner := locals.map fun n =>
        ⟨.loop, .outer, ⟨[("bell", ⟨"bell", .scalar .pinch, some (.pinch n), false, 9⟩)]⟩⟩
      global :=
        ⟨.global, .outer, ⟨[("bell", ⟨"bell", .scalar .pinch, some (.pinch 4), false, 1⟩)]⟩⟩ }
  diagnostics := .initial .outside
  output := .empty
  input := .ofAnswers []
  callDepth := 0

theorem call_isolated_bell :
    ((invoke .standard 1 countingFunction 5 []).run (hiddenBell [10])).1 = some (.pinch 5) ∧
    ((invoke .standard 1 countingFunction 5 []).run (hiddenBell [20, 30])).1 = some (.pinch 5) ∧
    ((invoke .standard 1 countingFunction 5 []).run (hiddenBell [20, 30])).2.scopes.inner =
      (hiddenBell [20, 30]).scopes.inner := by
  have hisolated := call_isolated .standard 1 countingFunction 5 [] (hiddenBell [10])
    (hiddenBell [20, 30]) ⟨rfl, rfl, rfl, rfl, rfl⟩
  have hvalue : ((invoke .standard 1 countingFunction 5 []).run (hiddenBell [10])).1 =
      some (.pinch 5) := rfl
  exact ⟨hvalue, hisolated.1.symm.trans hvalue, hisolated.2.2.2⟩

end Exec

end Bistro
