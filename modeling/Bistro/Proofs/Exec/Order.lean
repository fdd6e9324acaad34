import Bistro.Proofs.Exec.Change
import Bistro.Proofs.Exec.Balanced

/-!
# The order of definitions

All functions are declared before the entry point runs, so a function may be called before its
definition; and the order of the definitions makes no difference at all, as long as no two of them
clash.  It can be seen in one place only, the order in which the global scope keeps its bindings;
and this order is never looked at, because the global scope is never closed.

Two states are called alike if they differ in that order at most.  Steps from alike states have the
same result and lead to alike states.

## Main definitions

* `Scope.Alike`, `ScopeStack.Alike`, `Machine.Alike` — equal but for the order of the globals.
* `Exec.Parallel` — a step does the same from alike states.
* `Program.globalNames` — the names of the global variables.

## Main results

* `Exec.parallel_primitive`, `Exec.parallel_invoke` — all steps and calls are parallel.
* `Exec.hoisted` — what the global scope binds when all functions are declared.
* `Program.run_functions_perm` — **the order of function definitions is irrelevant.**
-/

namespace Bistro

/-! ### Scopes but for the order of their bindings -/

/-- Two scopes bind the same names to the same, in whatever order. -/
structure Scope.Alike (s s' : Scope) : Prop where
  kind : s'.kind = s.kind
  link : s'.link = s.link
  get? : ∀ name, s'.get? name = s.get? name

namespace Scope.Alike

variable {s s' : Scope}

theorem set (h : s.Alike s') (name : String) (b : Binding) :
    Scope.Alike { s with bindings := s.bindings.set name b }
      { s' with bindings := s'.bindings.set name b } := by
  refine ⟨h.kind, h.link, fun n => ?_⟩
  have hn := h.get? n
  unfold Scope.get? at hn ⊢
  rw [Dictionary.get?_set, Dictionary.get?_set, hn]

theorem adjust (h : s.Alike s') (name : String) (f : Binding → Binding) :
    (s.adjust name f).Alike (s'.adjust name f) := by
  unfold Scope.adjust
  rw [h.get? name]
  cases s.get? name with
  | none => exact h
  | some b => exact h.set name (f b)

/-- A declaration is refused in both, or accepted in both. -/
theorem declare (h : s.Alike s') (b : Binding) :
    (∃ e, s.declare b = .error e ∧ s'.declare b = .error e) ∨
      ∃ t t', s.declare b = .ok t ∧ s'.declare b = .ok t' ∧ t.Alike t' := by
  unfold Scope.declare
  rw [h.get? b.name]
  cases s.get? b.name with
  | none => exact .inr ⟨_, _, rfl, rfl, h.set b.name b⟩
  | some earlier =>
    dsimp only
    split
    · exact .inl ⟨_, rfl, rfl⟩
    · exact .inr ⟨_, _, rfl, rfl, h.set b.name b⟩

end Scope.Alike

/-- Two stacks differ at most in the order of the bindings in the global scope. -/
structure ScopeStack.Alike (s s' : ScopeStack) : Prop where
  inner : s'.inner = s.inner
  global : s.global.Alike s'.global

namespace ScopeStack.Alike

variable {s s' : ScopeStack}

theorem resolve? {global global' : Scope} (h : global.Alike global') (name : String)
    (scopes : List Scope) :
    ScopeStack.resolve? name global' scopes = ScopeStack.resolve? name global scopes := by
  induction scopes with
  | nil => exact h.get? name
  | cons scope outer ih =>
    rw [ScopeStack.resolve?, ScopeStack.resolve?]
    cases scope.get? name with
    | some b => rfl
    | none =>
      cases scope.link with
      | outer => exact ih
      | global => exact h.get? name

theorem peek? (h : s.Alike s') (name : String) : s'.peek? name = s.peek? name := by
  unfold ScopeStack.peek?
  rw [h.inner]
  exact resolve? h.global name s.inner

theorem adjustFrom {global global' : Scope} (h : global.Alike global') (name : String)
    (f : Binding → Binding) (scopes : List Scope) :
    (adjustFrom name f global' scopes).1 = (ScopeStack.adjustFrom name f global scopes).1 ∧
      (ScopeStack.adjustFrom name f global scopes).2.Alike
        (ScopeStack.adjustFrom name f global' scopes).2 := by
  induction scopes with
  | nil => exact ⟨rfl, h.adjust name f⟩
  | cons scope outer ih =>
    rw [ScopeStack.adjustFrom, ScopeStack.adjustFrom]
    cases scope.get? name with
    | some b => exact ⟨rfl, h⟩
    | none =>
      cases scope.link with
      | outer => exact ⟨congrArg (scope :: ·) ih.1, ih.2⟩
      | global => exact ⟨rfl, h.adjust name f⟩

theorem adjust (h : s.Alike s') (name : String) (f : Binding → Binding) :
    (s.adjust name f).Alike (s'.adjust name f) := by
  obtain ⟨hinner, hglobal⟩ := adjustFrom h.global name f s.inner
  unfold ScopeStack.adjust
  rw [h.inner]
  exact ⟨hinner, hglobal⟩

theorem push (h : s.Alike s') (scope : Scope) :
    Alike { s with inner := scope :: s.inner } { s' with inner := scope :: s'.inner } :=
  ⟨congrArg (scope :: ·) h.inner, h.global⟩

theorem declareGlobal (h : s.Alike s') (b : Binding) :
    (∃ e, s.declareGlobal b = .error e ∧ s'.declareGlobal b = .error e) ∨
      ∃ t t', s.declareGlobal b = .ok t ∧ s'.declareGlobal b = .ok t' ∧ t.Alike t' := by
  unfold ScopeStack.declareGlobal
  rcases h.global.declare b with ⟨e, he, he'⟩ | ⟨g, g', hg, hg', halike⟩
  · rw [he, he']
    exact .inl ⟨e, rfl, rfl⟩
  · rw [hg, hg']
    exact .inr ⟨_, _, rfl, rfl, h.inner, halike⟩

theorem declare (h : s.Alike s') (b : Binding) :
    (∃ e, s.declare b = .error e ∧ s'.declare b = .error e) ∨
      ∃ t t', s.declare b = .ok t ∧ s'.declare b = .ok t' ∧ t.Alike t' := by
  obtain ⟨inner, global⟩ := s
  obtain ⟨inner', global'⟩ := s'
  obtain rfl : inner' = inner := h.inner
  cases inner' with
  | nil => exact h.declareGlobal b
  | cons scope outer =>
    simp only [ScopeStack.declare]
    cases scope.declare b with
    | error e => exact .inl ⟨e, rfl, rfl⟩
    | ok scope' => exact .inr ⟨_, _, rfl, rfl, rfl, h.global⟩

end ScopeStack.Alike

/-! ### Steps from alike states -/

/-- Two states differ at most in the order of the bindings in the global scope. -/
structure Machine.Alike (m m' : Machine) : Prop where
  scopes : m.scopes.Alike m'.scopes
  diagnostics : m'.diagnostics = m.diagnostics
  output : m'.output = m.output
  input : m'.input = m.input
  callDepth : m'.callDepth = m.callDepth

namespace Exec

variable {α β : Type} {x x' : Exec α}

/-- From alike states two steps have the same result and lead to alike states. -/
def Parallel (x x' : Exec α) : Prop :=
  ∀ m m' : Machine, m.Alike m' → (x'.run m').1 = (x.run m).1 ∧ (x.run m).2.Alike (x'.run m').2

theorem Parallel.bind {f f' : α → Exec β} (hx : Parallel x x') (hf : ∀ a, Parallel (f a) (f' a)) :
    Parallel (x >>= f) (x' >>= f') := by
  intro m m' h
  obtain ⟨hresult, hend⟩ := hx m m' h
  rw [run_bind, run_bind, hresult]
  exact hf _ _ _ hend

theorem Parallel.report (f : Finding) (line : Nat) :
    Parallel (Exec.report f line) (Exec.report f line) :=
  fun _ _ h => ⟨rfl, h.scopes, congrArg (·.push (f.onLine line)) h.diagnostics, h.output, h.input,
    h.callDepth⟩

theorem Parallel.lookup (name : String) : Parallel (Exec.lookup name) (Exec.lookup name) := by
  intro m m' h
  have hscopes := h.scopes.adjust name Binding.marked
  exact ⟨hscopes.peek? name, hscopes, h.diagnostics, h.output, h.input, h.callDepth⟩

theorem Parallel.declare (b : Binding) : Parallel (Exec.declare b) (Exec.declare b) := by
  intro m m' h
  rw [run_declare, run_declare]
  rcases h.scopes.declare b with ⟨e, he, he'⟩ | ⟨t, t', ht, ht', hscopes⟩
  · rw [he, he']
    exact Parallel.report _ _ m m' h
  · rw [ht, ht']
    exact ⟨rfl, hscopes, h.diagnostics, h.output, h.input, h.callDepth⟩

theorem Parallel.atSite (hx : Parallel x x') (site : Site) :
    Parallel (Exec.atSite site x) (Exec.atSite site x') := by
  intro m m' h
  rw [run_atSite, run_atSite, h.diagnostics]
  obtain ⟨hresult, hend⟩ := hx { m with diagnostics := m.diagnostics.enter site }
    { m' with diagnostics := m.diagnostics.enter site }
    ⟨h.scopes, rfl, h.output, h.input, h.callDepth⟩
  exact ⟨hresult, hend.scopes, congrArg (·.enter m.diagnostics.site) hend.diagnostics, hend.output,
    hend.input, hend.callDepth⟩

/-- The order of the globals is not seen when a scope is closed, since only inner ones are. -/
theorem Parallel.closeScope : Parallel closeScope closeScope := by
  intro m m' h
  cases hinner : m.scopes.inner with
  | nil =>
    have hinner' : m'.scopes.inner = [] := h.scopes.inner.trans hinner
    rw [run_closeScope_nil hinner, run_closeScope_nil hinner']
    exact ⟨rfl, h⟩
  | cons scope outer =>
    have hinner' : m'.scopes.inner = scope :: outer := h.scopes.inner.trans hinner
    rw [run_closeScope hinner, run_closeScope hinner', h.diagnostics]
    exact ⟨rfl, ⟨rfl, h.scopes.global⟩, rfl, h.output, h.input, h.callDepth⟩

theorem Parallel.inScope (hx : Parallel x x') (kind : Scope.Kind) :
    Parallel (Exec.inScope (·.push kind) x) (Exec.inScope (·.push kind) x') := by
  intro m m' h
  obtain ⟨hresult, hend⟩ := hx { m with scopes := m.scopes.push kind }
    { m' with scopes := m'.scopes.push kind }
    ⟨h.scopes.push _, h.diagnostics, h.output, h.input, h.callDepth⟩
  exact ⟨hresult, (Parallel.closeScope _ _ hend).2⟩

theorem Parallel.inCall (hx : Parallel x x') : Parallel (Exec.inCall x) (Exec.inCall x') := by
  intro m m' h
  obtain ⟨hresult, hend⟩ := hx
    { m with scopes := m.scopes.pushFunction, callDepth := m.callDepth + 1 }
    { m' with scopes := m'.scopes.pushFunction, callDepth := m'.callDepth + 1 }
    ⟨h.scopes.push _, h.diagnostics, h.output, h.input, congrArg (· + 1) h.callDepth⟩
  have hclosed := (Parallel.closeScope _ _ hend).2
  exact ⟨hresult, hclosed.scopes, hclosed.diagnostics, hclosed.output, hclosed.input,
    congrArg (· - 1) hclosed.callDepth⟩

/-- All steps are parallel. -/
theorem parallel_primitive : Primitive (fun _ => Parallel) (fun _ => Parallel) where
  pure _ := fun _ _ h => ⟨rfl, h⟩
  bind := .bind
  row := .bind
  loosen hx := hx
  report := .report
  lookup := .lookup
  adjust _ name := fun _ _ h =>
    ⟨rfl, h.scopes.adjust name _, h.diagnostics, h.output, h.input, h.callDepth⟩
  serve text line := fun _ _ h =>
    ⟨rfl, h.scopes, h.diagnostics, congrArg (·.serve text line) h.output, h.input, h.callDepth⟩
  ask name := fun _ _ h =>
    ⟨congrArg (fun input => (input.ask name).1) h.input, h.scopes, h.diagnostics, h.output,
      congrArg (fun input => (input.ask name).2) h.input, h.callDepth⟩
  declare := .declare
  atSite site hx := hx.atSite site
  rowAtSite site hx := hx.atSite site
  inScope _ hx := hx.inScope _

theorem parallel_invoke (limits : Limits) (depth : Nat) :
    CallsAlike (fun _ => Parallel) (invoke limits depth) (invoke limits depth) :=
  Congruence.invoke (R := fun _ _ => Parallel) limits (fun _ => parallel_primitive)
    (fun _ _ _ hx => hx.inCall) depth

/-! ### Declaring the functions -/

/-- **What the global scope binds when all functions are declared**: each function under its name,
and everything else as before. -/
theorem hoisted {fs : List Function} {m : Machine} (hnodup : (fs.map Function.name).Nodup)
    (hfree : ∀ f ∈ fs, m.scopes.global.get? f.name = none) :
    ∃ global, ((fs.forM declareFunction).run m).2 = { m with scopes := { m.scopes with global } } ∧
      global.kind = m.scopes.global.kind ∧ global.link = m.scopes.global.link ∧
      (∀ f ∈ fs, global.get? f.name = some (.function f)) ∧
      ∀ name ∉ fs.map Function.name, global.get? name = m.scopes.global.get? name := by
  induction fs generalizing m with
  | nil => exact ⟨m.scopes.global, rfl, rfl, rfl, nofun, fun _ _ => rfl⟩
  | cons f fs ih =>
    rw [List.map_cons, List.nodup_cons] at hnodup
    -- the name of the first function is free, so it is declared
    let global : Scope :=
      { m.scopes.global with bindings := m.scopes.global.bindings.set f.name (.function f) }
    have hget : ∀ name, global.get? name =
        if f.name = name then some (.function f) else m.scopes.global.get? name :=
      fun name => Dictionary.get?_set _ _ _ _
    have hdecl : m.scopes.declareGlobal (.function f) = .ok { m.scopes with global } := by
      have hname := hfree f List.mem_cons_self
      unfold ScopeStack.declareGlobal Scope.declare
      simp only [Binding.function, hname]
      rfl
    have hfirst : ((declareFunction f).run m).2 =
        { m with scopes := { m.scopes with global } } := by
      rw [run_declareFunction, hdecl]
    have hrest := ih (m := { m with scopes := { m.scopes with global } }) hnodup.2 ?_
    · obtain ⟨last, hrun, hkind, hlink, hfs, hothers⟩ := hrest
      refine ⟨last, ?_, hkind, hlink, ?_, fun name hname => ?_⟩
      · show ((fs.forM declareFunction).run ((declareFunction f).run m).2).2 = _
        rw [hfirst, hrun]
      · refine List.forall_mem_cons.2 ⟨?_, hfs⟩
        rw [hothers f.name hnodup.1]
        exact (hget f.name).trans (if_pos rfl)
      · rw [List.map_cons, List.mem_cons, not_or] at hname
        rw [hothers name hname.2]
        exact (hget name).trans (if_neg fun h => hname.1 h.symm)
    · intro f' hf'
      have hne : f.name ≠ f'.name := fun h => hnodup.1 (h ▸ List.mem_map_of_mem hf')
      exact (hget f'.name).trans
        ((if_neg hne).trans (hfree f' (List.mem_cons_of_mem _ hf')))

/-- Functions with different names may be declared in any order. -/
theorem alike_hoisted {fs fs' : List Function} {m : Machine} (hperm : fs'.Perm fs)
    (hnodup : (fs.map Function.name).Nodup)
    (hfree : ∀ f ∈ fs, m.scopes.global.get? f.name = none) :
    Machine.Alike ((fs.forM declareFunction).run m).2 ((fs'.forM declareFunction).run m).2 := by
  have hnames : (fs'.map Function.name).Perm (fs.map Function.name) := hperm.map _
  obtain ⟨g, hrun, hkind, hlink, hfs, hothers⟩ := hoisted hnodup hfree
  obtain ⟨g', hrun', hkind', hlink', hfs', hothers'⟩ :=
    hoisted (hnames.nodup_iff.2 hnodup) fun f hf => hfree f (hperm.mem_iff.1 hf)
  rw [hrun, hrun']
  refine ⟨⟨rfl, hkind'.trans hkind.symm, hlink'.trans hlink.symm, fun name => ?_⟩, rfl, rfl, rfl,
    rfl⟩
  by_cases hname : name ∈ fs.map Function.name
  · obtain ⟨f, hf, rfl⟩ := List.mem_map.1 hname
    exact (hfs' f (hperm.mem_iff.2 hf)).trans (hfs f hf).symm
  · exact (hothers' name fun h => hname (hnames.mem_iff.1 h)).trans (hothers name hname).symm

end Exec

/-! ### Names of globals -/

/-- The names that a declaration declares. -/
def Declaration.names : Declaration → List String
  | .variables _ declarators => declarators.map Declarator.name
  | .array a => [a.name]

/-- The names of the global variables. -/
def Program.globalNames (p : Program) : List String := p.globals.flatMap Declaration.names

/-- Only the global scope is open, and it binds no other names than the given ones. -/
def Machine.BindsOnly (names : List String) (m : Machine) : Prop :=
  m.scopes.inner = [] ∧ ∀ name ∉ names, m.scopes.global.get? name = none

namespace Exec

variable {α : Type} {x : Exec α} {names : List String}

theorem OnlyReports.bindsOnly (hx : OnlyReports x) : Keeps (Machine.BindsOnly names) x := by
  refine Keeps.of_passes fun m n hm hpass => ?_
  obtain ⟨diagnostics, rfl⟩ := hx m n hpass
  exact hm

theorem bindsOnly_declare {b : Binding} (hb : b.name ∈ names) :
    Keeps (Machine.BindsOnly names) (declare b) := by
  refine Triple.bind_get fun m hm => ?_
  cases hd : m.scopes.declare b with
  | error e =>
    rintro m' rfl
    exact (OnlyReports.report _ _).bindsOnly m' hm
  | ok scopes =>
    refine Triple.set fun _ _ => ?_
    rcases ScopeStack.declare_cases hd with ⟨_, _, _, hinner, -, -⟩ | ⟨global, hinner, hglobal, rfl⟩
    · rw [hm.1] at hinner
      cases hinner
    · have hbinds : Machine.BindsOnly names { m with scopes := { m.scopes with global } } := by
        refine ⟨hm.1, fun name hname => ?_⟩
        have hne : b.name ≠ name := fun h => hname (h ▸ hb)
        show global.get? name = none
        rw [Scope.get?_declare hglobal, if_neg hne]
        exact hm.2 name hname
      exact ⟨hbinds, hbinds⟩

theorem bindsOnly_atSite (hx : Keeps (Machine.BindsOnly names) x) (site : Site) :
    Keeps (Machine.BindsOnly names) (atSite site x) := by
  have henter : ∀ site : Site, Keeps (Machine.BindsOnly names)
      (modify fun m => { m with diagnostics := m.diagnostics.enter site } : Exec PUnit) :=
    fun _ => Keeps.modify fun _ h => h
  refine Triple.bind_get fun m hm => ?_
  exact Triple.mono ((henter site).bind fun _ => hx.bind fun a =>
    (henter m.diagnostics.site).bind fun _ => .pure a) (fun n hn => hn ▸ hm) fun _ _ h => h

theorem bindsOnly_declareVariable (type : ValueType) {d : Declarator} (hd : d.name ∈ names) :
    Keeps (Machine.BindsOnly names) (declareVariable type d) := by
  have hdeclare : ∀ value : Option Value, Keeps (Machine.BindsOnly names)
      (declare { Binding.scalar d.name type d.line with value }) := fun _ => bindsOnly_declare hd
  unfold declareVariable
  cases d.init with
  | none => exact (Keeps.pure none).bind hdeclare
  | some init => exact (OnlyReports.checkType _ _ _ _).bindsOnly.bind hdeclare

theorem onlyReports_arrayElements (element : ValueType) (name : String) (line : Nat)
    (literals : List Literal) : OnlyReports (arrayElements element name line literals) := by
  induction literals with
  | nil => exact .pure _
  | cons l rest ih =>
    exact (OnlyReports.checkType _ _ _ _).bind fun _ => ih.bind fun _ => .pure _

theorem bindsOnly_declareArray (limits : Limits) {a : ArrayDeclaration} (ha : a.name ∈ names) :
    Keeps (Machine.BindsOnly names) (declareArray limits a) := by
  have hdeclare : ∀ dimension v, Keeps (Machine.BindsOnly names)
      (declare ((Binding.array a.name a.element.valueType dimension a.line).withValue v)) :=
    fun _ _ => bindsOnly_declare ha
  unfold declareArray
  dsimp only
  split
  · exact (OnlyReports.report _ _).bindsOnly.bind fun _ => hdeclare _ _
  · next dimension _ =>
    have helements := fun given : List Value => hdeclare dimension (.recipe
      (given ++ List.replicate (dimension - given.length) (Value.default a.element.valueType)))
    split
    · exact (Keeps.pure []).bind helements
    · have hgiven : ∀ literals, Keeps (Machine.BindsOnly names)
          (arrayElements a.element.valueType a.name a.line literals) :=
        fun literals => (onlyReports_arrayElements _ _ _ literals).bindsOnly
      split
      · exact (OnlyReports.report _ _).bindsOnly.bind fun _ => (hgiven _).bind helements
      · split
        · exact (OnlyReports.report _ _).bindsOnly.bind fun _ => (hgiven _).bind helements
        · exact (hgiven _).bind helements

/-- Declarations bind no other names than theirs. -/
theorem bindsOnly_declareAll (limits : Limits) (site : Site) {i : Nat} {ds : List Declaration}
    (hds : ∀ d ∈ ds, ∀ name ∈ d.names, name ∈ names) :
    Keeps (Machine.BindsOnly names) (declareAll limits site i ds) := by
  induction ds generalizing i with
  | nil => exact Keeps.pure _
  | cons d ds ih =>
    rw [List.forall_mem_cons] at hds
    refine (bindsOnly_atSite ?_ _).bind fun _ => ih hds.2
    match d with
    | .array a => exact bindsOnly_declareArray limits (hds.1 a.name List.mem_cons_self)
    | .variables type declarators =>
      have hnames : ∀ d ∈ declarators, d.name ∈ names :=
        fun d hd => hds.1 d.name (List.mem_map_of_mem hd)
      clear hds ih
      unfold declareOne
      induction declarators with
      | nil => exact Keeps.pure _
      | cons d declarators ih =>
        rw [List.forall_mem_cons] at hnames
        exact (bindsOnly_declareVariable _ hnames.1).bind fun _ => ih hnames.2

/-- What follows the declaration of the functions. -/
def runEntry (limits : Limits) (p : Program) : Exec Unit := do
  modify fun m => { m with scopes := m.scopes.pushEntry }
  let site : Site := ⟨.entry, []⟩
  declareAll limits (site.child 0) 0 p.locals
  executeAll limits (invoke limits limits.maxCallDepth) (site.child 1) 0 p.body
  checkExit limits p.exitCode p.exitLine

theorem parallel_runEntry (limits : Limits) (p : Program) :
    Parallel (runEntry limits p) (runEntry limits p) := by
  have hcongr := parallel_primitive.congruence limits
  have hpush : Parallel (modify fun m => { m with scopes := m.scopes.pushEntry } : Exec PUnit)
      (modify fun m => { m with scopes := m.scopes.pushEntry }) :=
    fun _ _ h => ⟨rfl, h.scopes.push _, h.diagnostics, h.output, h.input, h.callDepth⟩
  refine hpush.bind fun _ => (hcongr.declareAll _ _ _).bind fun _ =>
    (hcongr.executeAll (parallel_invoke limits _) _ _ _).bind fun _ => ?_
  unfold checkExit
  split
  · exact parallel_primitive.pure _
  · exact .report _ _

end Exec

namespace Program

variable {p : Program} {functions : List Function}

/-- Programs that differ in the order of their functions lead to alike states. -/
theorem alike_run (limits : Limits) (hperm : functions.Perm p.functions)
    (hnodup : (p.functions.map Function.name).Nodup)
    (hglobals : ∀ f ∈ p.functions, f.name ∉ p.globalNames) (input : Input) :
    (p.run limits input).Alike ({ p with functions }.run limits input) := by
  -- up to the functions both runs are the same, and behind them they run in parallel
  let m := ((Exec.declareAll limits ⟨.globals, []⟩ 0 p.globals).run (Machine.initial input)).2
  have hbinds : m.BindsOnly p.globalNames := by
    have hnames : ∀ d ∈ p.globals, ∀ name ∈ d.names, name ∈ p.globalNames :=
      fun d hd name hname => List.mem_flatMap.2 ⟨d, hd, hname⟩
    exact (Exec.bindsOnly_declareAll limits ⟨.globals, []⟩ hnames (Machine.initial input)
      ⟨rfl, fun _ _ => rfl⟩).2
  have halike := Exec.alike_hoisted hperm hnodup fun f hf => hbinds.2 f.name (hglobals f hf)
  exact (Exec.parallel_runEntry limits p _ _ halike).2

/-- **The order of function definitions is irrelevant**: if the names of the functions differ from
each other and from those of the global variables, then the program with its functions in any other
order has the same findings, the same output, asks for the same values, has the same result, and
leaves the same values in the global variables and in those of the entry point. -/
theorem run_functions_perm (limits : Limits) (p : Program) (functions : List Function)
    (hperm : functions.Perm p.functions) (hnodup : (p.functions.map Function.name).Nodup)
    (hglobals : ∀ f ∈ p.functions, f.name ∉ p.globalNames) (input : Input) :
    let m := p.run limits input
    let m' := { p with functions }.run limits input
    m'.diagnostics = m.diagnostics ∧ m'.output = m.output ∧
      m'.input.requests = m.input.requests ∧ m'.result = m.result ∧
      ∀ name, m'.globalValue? name = m.globalValue? name ∧
        m'.visibleValue? name = m.visibleValue? name := by
  intro m m'
  have h : m.Alike m' := alike_run limits hperm hnodup hglobals input
  refine ⟨h.diagnostics, h.output, congrArg Input.requests h.input, ?_, fun name => ⟨?_, ?_⟩⟩
  · unfold Machine.result
    rw [h.diagnostics, h.output]
  · unfold Machine.globalValue?
    rw [h.scopes.global.get?]
  · unfold Machine.visibleValue?
    rw [h.scopes.peek?]

/-- A function that counts its calls in a global variable and, at first, has them answered. -/
def knock : Function :=
  ⟨"knock", none, [⟨.pinch, "n", 2⟩], [],
    [.step "knocks" .increment 3,
      .taste [⟨.binary .less (.var "n" 4) (.literal (.pinch 2) 4) 4,
        [.call "answer" [.var "n" 5] 5], 4⟩] none 4],
    none, 2⟩

/-- A function that answers by a further call, and never uses its variable. -/
def answer : Function :=
  ⟨"answer", none, [⟨.pinch, "n", 7⟩], [.variables .pinch [⟨"idle", none, 7⟩]],
    [.call "knock" [.binary .add (.var "n" 8) (.literal (.pinch 1) 8) 8] 8], none, 7⟩

/-- A program whose functions call each other. -/
def knocking : Program where
  globals := [.variables .pinch [⟨"knocks", some (.pinch 0), 1⟩]]
  functions := [knock, answer]
  locals := []
  body := [.call "knock" [.literal (.pinch 0) 10] 10, .serve [.var "knocks" 11] 11]
  exitCode := 0
  exitLine := 12

theorem run_functions_perm_knocking :
    (knocking.run .standard (.ofAnswers [])).globalValue? "knocks" = some (.pinch 3) ∧
      ({ knocking with functions := [answer, knock] }.run .standard
        (.ofAnswers [])).globalValue? "knocks" = some (.pinch 3) ∧
      ({ knocking with functions := [answer, knock] }.run .standard (.ofAnswers [])).diagnostics =
        (knocking.run .standard (.ofAnswers [])).diagnostics := by
  have hvalue : (knocking.run .standard (.ofAnswers [])).globalValue? "knocks" =
      some (.pinch 3) := rfl
  obtain ⟨hdiagnostics, -, -, -, hvalues⟩ := run_functions_perm .standard knocking [answer, knock]
    (.swap knock answer []) (by decide) (by decide) (.ofAnswers [])
  exact ⟨hvalue, (hvalues "knocks").1.trans hvalue, hdiagnostics⟩

end Program

end Bistro
