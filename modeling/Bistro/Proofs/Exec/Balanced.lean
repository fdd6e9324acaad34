import Bistro.Proofs.Exec.Congruence
import Bistro.Proofs.Exec.WellTyped

/-!
# Scopes are balanced

Whatever happens inside a construct, behind it the same scopes are open as before, the findings
belong to the same site again, and the same number of calls is in progress.  An expression changes
nothing but values and marks of use, and a statement declares nothing around it, except for a
counting loop that declares its variable.  At all times as many calls are in progress as scopes of
calls are open.

## Main definitions

* `Machine.Agrees`, `Exec.Restores` — a step goes back to the scopes, the site and the number of
  calls that it began with, as far as a view of the scopes shows.
* `Exec.MayDeclare` — a step that may declare one name in the innermost scope.
* `Statement.Leaves` — what a statement leaves of the scopes.
* `Machine.Counted`, `Exec.Counts` — as many calls are in progress as scopes of calls are open.

## Main results

* `Exec.run_closeScope` — what closing a scope does.
* `Exec.restores_primitive`, `Exec.restores_invoke` — steps and calls go back to where they began.
* `Exec.leaves_execute` — what a statement leaves.
* `Exec.counts_invoke` — calls are counted.
* `Exec.scopes_balanced` — **scopes are balanced on every path.**
-/

namespace Bistro

/-! ### What single steps do -/

theorem Diagnostics.site_record {σ : Type} [DecidableEq σ] (key : Option σ) (d : Diagnostic)
    (ds : Diagnostics σ) : (ds.record key d).site = ds.site := by
  unfold Diagnostics.record
  split <;> rfl

/-- The findings when a scope is closed: its unused variables are among them, unless it is that of
the entry point. -/
def Scope.warn (scope : Scope) (ds : Diagnostics Site) : Diagnostics Site :=
  if scope.kind = .global || scope.kind = .entry then ds
  else scope.unused.foldl
    (fun ds b => ds.pushOnce ((Finding.unusedVariable b.name).onLine b.line)) ds

theorem Scope.site_warn (scope : Scope) (ds : Diagnostics Site) :
    (scope.warn ds).site = ds.site := by
  unfold Scope.warn
  split
  · rfl
  · induction scope.unused generalizing ds with
    | nil => rfl
    | cons b bs ih =>
      rw [List.foldl_cons, ih]
      exact Diagnostics.site_record none _ ds

namespace Exec

theorem run_forM_reportOnce (finding : Binding → Finding) (bs : List Binding) (m : Machine) :
    (bs.forM fun b => reportOnce (finding b) b.line).run m =
      let warned := bs.foldl (fun ds b => ds.pushOnce ((finding b).onLine b.line)) m.diagnostics
      ((), { m with diagnostics := warned }) := by
  induction bs generalizing m with
  | nil => rfl
  | cons b bs ih => exact ih _

/-- A step that begins with a look at the state goes on with the one it is in. -/
theorem run_get_bind {α : Type} (f : Machine → Exec α) (m : Machine) :
    (get >>= f).run m = (f m).run m :=
  rfl

theorem run_atSite {α : Type} (site : Site) (x : Exec α) (m : Machine) :
    (atSite site x).run m =
      let r := x.run { m with diagnostics := m.diagnostics.enter site }
      (r.1, { r.2 with diagnostics := r.2.diagnostics.enter m.diagnostics.site }) :=
  rfl

theorem run_declare (b : Binding) (m : Machine) :
    (declare b).run m =
      match m.scopes.declare b with
      | .ok scopes => ((), { m with scopes })
      | .error _ => (report (.duplicateName b.name) b.line).run m := by
  rw [declare, run_get_bind]
  cases m.scopes.declare b <;> rfl

/-- Closing a scope takes the innermost one away and warns of its unused variables. -/
theorem run_closeScope {m : Machine} {scope : Scope} {outer : List Scope}
    (h : m.scopes.inner = scope :: outer) :
    closeScope.run m = ((), { m with
      scopes := { m.scopes with inner := outer }
      diagnostics := scope.warn m.diagnostics }) := by
  have hpop : m.scopes.pop? = some (scope, { m.scopes with inner := outer }) := by
    rw [ScopeStack.pop?, h]
  rw [closeScope, run_get_bind, hpop]
  unfold Scope.warn
  by_cases hkind : (scope.kind = .global || scope.kind = .entry) = true
  · simp only [hkind]
    rfl
  · simp only [hkind]
    exact run_forM_reportOnce _ _ _

/-- The global scope stays open. -/
theorem run_closeScope_nil {m : Machine} (h : m.scopes.inner = []) :
    closeScope.run m = ((), m) := by
  have hpop : m.scopes.pop? = none := by rw [ScopeStack.pop?, h]
  rw [closeScope, run_get_bind, hpop]
  rfl

theorem run_declareFunction (f : Function) (m : Machine) :
    (declareFunction f).run m =
      match m.scopes.declareGlobal (.function f) with
      | .ok scopes => ((), { m with scopes })
      | .error _ => (report (.duplicateFunction f.name) f.line).run m := by
  rw [declareFunction, run_get_bind]
  cases m.scopes.declareGlobal (.function f) <;> rfl

end Exec

/-! ### Going back to where a step began -/

/-- Two states have the same site and the same number of calls, and their scopes look the same. -/
structure Machine.Agrees {σ : Type} (view : ScopeStack → σ) (m n : Machine) : Prop where
  scopes : view n.scopes = view m.scopes
  callDepth : n.callDepth = m.callDepth
  site : n.diagnostics.site = m.diagnostics.site

namespace Exec

variable {α β σ : Type} {x : Exec α} {view : ScopeStack → σ}

/-- A step goes back to the site and the number of calls that it began with, and to the scopes as
far as they are seen. -/
def Restores (view : ScopeStack → σ) (x : Exec α) : Prop :=
  ∀ m, Machine.Agrees view m (x.run m).2

theorem Restores.pure (a : α) : Restores view (pure a : Exec α) := fun _ => ⟨rfl, rfl, rfl⟩

theorem Restores.bind {f : α → Exec β} (hx : Restores view x) (hf : ∀ a, Restores view (f a)) :
    Restores view (x >>= f) := by
  intro m
  have hfirst := hx m
  have hsecond := hf (x.run m).1 (x.run m).2
  exact ⟨hsecond.scopes.trans hfirst.scopes, hsecond.callDepth.trans hfirst.callDepth,
    hsecond.site.trans hfirst.site⟩

theorem Restores.loosen (hx : Restores ScopeStack.bare x) : Restores ScopeStack.frame x :=
  fun m => ⟨ScopeStack.frame_of_bare (hx m).scopes, (hx m).callDepth, (hx m).site⟩

theorem Restores.shape (hx : Restores ScopeStack.frame x) : Restores ScopeStack.shape x :=
  fun m => ⟨ScopeStack.shape_of_frame (hx m).scopes, (hx m).callDepth, (hx m).site⟩

theorem Restores.report (f : Finding) (line : Nat) : Restores view (report f line) :=
  fun m => ⟨rfl, rfl, Diagnostics.site_record _ _ m.diagnostics⟩

theorem Restores.declare (b : Binding) : Restores ScopeStack.frame (declare b) := by
  intro m
  rw [run_declare]
  cases hd : m.scopes.declare b with
  | ok scopes => exact ⟨ScopeStack.frame_declare hd, rfl, rfl⟩
  | error e => exact Restores.report _ _ m

/-- Behind a step at a site of its own the former site is the present one again. -/
theorem Restores.atSite (hx : Restores view x) (site : Site) : Restores view (atSite site x) :=
  fun m =>
    have hstep := hx { m with diagnostics := m.diagnostics.enter site }
    ⟨hstep.scopes, hstep.callDepth, rfl⟩

/-- What a step declares in a scope of its own is gone behind it. -/
theorem Restores.inScope (hx : Restores ScopeStack.frame x) (kind : Scope.Kind) :
    Restores ScopeStack.bare (inScope (·.push kind) x) := by
  intro m
  have hstep := hx { m with scopes := m.scopes.push kind }
  obtain ⟨scope, outer, hinner, -, hbare⟩ := ScopeStack.exists_inner hstep.scopes
  show Machine.Agrees _ m (closeScope.run (x.run { m with scopes := m.scopes.push kind }).2).2
  rw [run_closeScope hinner]
  exact ⟨hbare, hstep.callDepth, (Scope.site_warn _ _).trans hstep.site⟩

/-- A call is counted while it is in progress, and behind it the scopes are as before. -/
theorem Restores.inCall (hx : Restores ScopeStack.frame x) :
    Restores ScopeStack.bare (inCall x) := by
  intro m
  have hstep :=
    hx { m with scopes := m.scopes.pushFunction, callDepth := m.callDepth + 1 }
  obtain ⟨scope, outer, hinner, -, hbare⟩ := ScopeStack.exists_inner hstep.scopes
  have hclose := run_closeScope hinner
  have hcalls := hstep.callDepth
  refine ⟨?_, ?_, ?_⟩
  · show ScopeStack.bare (closeScope.run _).2.scopes = _
    rw [hclose]
    exact hbare
  · show (closeScope.run _).2.callDepth - 1 = _
    rw [hclose]
    show (x.run _).2.callDepth - 1 = _
    rw [hcalls]
    exact Nat.add_sub_cancel m.callDepth 1
  · show (closeScope.run _).2.diagnostics.site = _
    rw [hclose]
    exact (Scope.site_warn _ _).trans hstep.site

/-- Every step goes back to where it began: to the declarations of all scopes, or of all but the
innermost one if it may declare names there. -/
theorem restores_primitive :
    Primitive (fun _ x _ => Restores ScopeStack.bare x)
      (fun _ x _ => Restores ScopeStack.frame x) where
  pure a := .pure a
  bind hx hf := hx.bind hf
  row hx hf := hx.bind hf
  loosen hx := hx.loosen
  report f line := .report f line
  lookup name m := ⟨ScopeStack.bare_adjust Binding.valueOnly_marked name m.scopes, rfl, rfl⟩
  adjust hf name m := ⟨ScopeStack.bare_adjust hf name m.scopes, rfl, rfl⟩
  serve _ _ _ := ⟨rfl, rfl, rfl⟩
  ask _ _ := ⟨rfl, rfl, rfl⟩
  declare b := .declare b
  atSite site hx := hx.atSite site
  rowAtSite site hx := hx.atSite site
  inScope _ hx := hx.inScope _

variable (limits : Limits) (depth : Nat)

theorem restores_invoke :
    CallsAlike (fun _ x _ => Restores ScopeStack.bare x) (invoke limits depth)
      (invoke limits depth) :=
  Congruence.invoke (R := fun _ _ x _ => Restores ScopeStack.bare x) limits
    (fun _ => restores_primitive) (fun _ _ _ hx => hx.inCall) depth

theorem restores_evaluate (e : Expr) :
    Restores ScopeStack.bare (evaluate limits (invoke limits depth) e) :=
  (restores_primitive.congruence limits).evaluate (restores_invoke limits depth) e

theorem restores_execute (site : Site) (st : Statement) :
    (st.declares = false →
      Restores ScopeStack.bare (execute limits (invoke limits depth) site st)) ∧
    Restores ScopeStack.frame (execute limits (invoke limits depth) site st) :=
  (restores_primitive.congruence limits).execute (restores_invoke limits depth) site st

theorem restores_executeAll (site : Site) (i : Nat) (sts : List Statement) :
    Restores ScopeStack.frame (executeAll limits (invoke limits depth) site i sts) :=
  (restores_primitive.congruence limits).executeAll (restores_invoke limits depth) site i sts

theorem restores_declareAll (site : Site) (i : Nat) (ds : List Declaration) :
    Restores ScopeStack.frame (declareAll limits site i ds) :=
  (restores_primitive.congruence limits).declareAll site i ds

/-! ### What a statement leaves -/

/-- A step that may declare a binding in the innermost scope, and declares nothing else. -/
def MayDeclare (b : Binding) (x : Exec α) : Prop :=
  ∀ m, (x.run m).2.scopes.bare = m.scopes.bare ∨
    m.scopes.bare.declare b.bare = .ok (x.run m).2.scopes.bare

variable {b : Binding} {f : α → Exec β}

theorem MayDeclare.declare (b : Binding) : MayDeclare b (declare b) := by
  intro m
  rw [run_declare]
  cases hd : m.scopes.declare b with
  | ok scopes => exact .inr (ScopeStack.bare_declare hd)
  | error e => exact .inl rfl

/-- Other steps may come before the declaration. -/
theorem MayDeclare.after (hx : Restores ScopeStack.bare x) (hf : ∀ a, MayDeclare b (f a)) :
    MayDeclare b (x >>= f) := by
  intro m
  have hfirst := (hx m).scopes
  have hsecond := hf (x.run m).1 (x.run m).2
  rwa [hfirst] at hsecond

/-- Other steps may come behind the declaration. -/
theorem MayDeclare.before (hx : MayDeclare b x) (hf : ∀ a, Restores ScopeStack.bare (f a)) :
    MayDeclare b (x >>= f) := by
  intro m
  have hfirst := hx m
  have hsecond := (hf (x.run m).1 (x.run m).2).scopes
  rwa [← hsecond] at hfirst

theorem MayDeclare.atSite (hx : MayDeclare b x) (site : Site) : MayDeclare b (atSite site x) :=
  fun m => hx { m with diagnostics := m.diagnostics.enter site }

theorem mayDeclare_loopVariable (var : String) (initial : Option Value) (line : Nat) :
    MayDeclare (.scalar var .pinch line) (declareLoopVariable var initial line) := by
  -- whichever value the variable has at first, its bare binding is the same
  have hdeclare : ∀ value : Option Value, MayDeclare (.scalar var .pinch line)
      (Exec.declare { Binding.scalar var .pinch line with value } >>=
        fun _ => return value.isSome) := by
    intro value
    have hvalue := MayDeclare.declare { Binding.scalar var .pinch line with value }
    exact MayDeclare.before hvalue fun _ => .pure _
  unfold declareLoopVariable
  cases initial with
  | none => exact MayDeclare.after (.pure none) hdeclare
  | some v => exact MayDeclare.after (restores_primitive.checkType _ _ _ _) hdeclare

/-- A counting loop that declares its variable declares nothing else. -/
theorem mayDeclare_forLoop (site : Site) (var : String) (init condition : Expr) (stepVar : String)
    (step : StepOp) (body : List Statement) (line : Nat) :
    MayDeclare (.scalar var .pinch line) (execute limits (invoke limits depth) site
      (.forLoop true var init condition stepVar step body line)) := by
  have hcalls := restores_invoke limits depth
  refine MayDeclare.atSite (MayDeclare.after (restores_evaluate limits depth init) fun initial =>
    MayDeclare.before (mayDeclare_loopVariable var initial line) fun begun => ?_) site
  cases begun with
  | false => exact .pure _
  | true =>
    exact (restores_primitive.congruence limits).countingLoop hcalls
      (restores_executeAll limits depth site 0 body) condition stepVar step line

end Exec

/-- What a statement leaves of the scopes, the site and the number of calls. -/
structure Statement.Leaves (st : Statement) (m n : Machine) : Prop where
  /-- As many scopes are open as before. -/
  depth : n.scopes.depth = m.scopes.depth
  /-- They have the same kinds and link to the same scopes. -/
  shape : n.scopes.shape = m.scopes.shape
  callDepth : n.callDepth = m.callDepth
  site : n.diagnostics.site = m.diagnostics.site
  /-- The same names are declared in them, with the same kinds and lines, but for the variable that
  a counting loop declares in the innermost one. -/
  declared : n.scopes.bare = m.scopes.bare ∨
    ∃ var init condition stepVar step body line,
      st = .forLoop true var init condition stepVar step body line ∧
      m.scopes.bare.declare (.scalar var .pinch line) = .ok n.scopes.bare

namespace Exec

theorem declared_execute (limits : Limits) (depth : Nat) (site : Site) (st : Statement)
    (m : Machine) :
    ((execute limits (invoke limits depth) site st).run m).2.scopes.bare = m.scopes.bare ∨
      ∃ var init condition stepVar step body line,
        st = .forLoop true var init condition stepVar step body line ∧
        m.scopes.bare.declare (.scalar var .pinch line) =
          .ok ((execute limits (invoke limits depth) site st).run m).2.scopes.bare := by
  cases hst : st.declares with
  | false => exact .inl (((restores_execute limits depth site st).1 hst) m).scopes
  | true =>
    cases st with
    | forLoop declares var init condition stepVar step body line =>
      obtain rfl : declares = true := hst
      have hloop := mayDeclare_forLoop limits depth site var init condition stepVar step body line m
      exact hloop.imp_right fun hd => ⟨var, init, condition, stepVar, step, body, line, rfl, hd⟩
    | _ => cases hst

theorem leaves_execute (limits : Limits) (depth : Nat) (site : Site) (st : Statement)
    (m : Machine) :
    st.Leaves m ((execute limits (invoke limits depth) site st).run m).2 := by
  have hshape := (restores_execute limits depth site st).2.shape m
  refine ⟨?_, hshape.scopes, hshape.callDepth, hshape.site, declared_execute limits depth site st m⟩
  rw [← ScopeStack.length_shape, hshape.scopes, ScopeStack.length_shape]

end Exec

/-! ### Counting calls -/

/-- As many calls are in progress as scopes of calls are open, and `depth` more are permitted. -/
def Machine.Counted (limits : Limits) (depth : Nat) (m : Machine) : Prop :=
  m.callDepth = m.scopes.openCalls ∧ m.callDepth + depth = limits.maxCallDepth

/-- As many calls are in progress as scopes of calls are open, and no more than permitted. -/
def Machine.CallsBounded (limits : Limits) (m : Machine) : Prop :=
  m.callDepth = m.scopes.openCalls ∧ m.callDepth ≤ limits.maxCallDepth

namespace Machine

variable {limits : Limits} {depth : Nat} {m n : Machine}

theorem Counted.callsBounded (h : m.Counted limits depth) : m.CallsBounded limits :=
  ⟨h.1, by have := h.2; omega⟩

theorem Counted.of_shape (h : m.Counted limits depth)
    (hshape : n.scopes.shape = m.scopes.shape) (hcalls : n.callDepth = m.callDepth) :
    n.Counted limits depth := by
  refine ⟨?_, hcalls ▸ h.2⟩
  rw [hcalls, ScopeStack.openCalls, hshape]
  exact h.1

theorem Counted.push (h : m.Counted limits depth) {kind : Scope.Kind} (hkind : kind ≠ .function)
    (link : Scope.Link) :
    Counted limits depth
      { m with scopes := { m.scopes with inner := .opened kind link :: m.scopes.inner } } := by
  refine ⟨?_, h.2⟩
  rw [ScopeStack.openCalls_push, if_neg hkind]
  exact h.1

theorem Counted.pushFunction (h : m.Counted limits (depth + 1)) :
    Counted limits depth
      { m with scopes := m.scopes.pushFunction, callDepth := m.callDepth + 1 } := by
  obtain ⟨hopen, hlimit⟩ := h
  refine ⟨?_, ?_⟩
  · rw [ScopeStack.pushFunction, ScopeStack.openCalls_push, ← hopen]
    rfl
  · show m.callDepth + 1 + depth = limits.maxCallDepth
    omega

end Machine

namespace Exec

open Machine (Counted CallsBounded)

variable {α β : Type} {x : Exec α} {limits : Limits} {depth : Nat}

/-- A step in which at most `depth` more calls are nested counts them. -/
def Counts (limits : Limits) (depth : Nat) (x : Exec α) : Prop :=
  Triple (CallsBounded limits) (Counted limits depth) x fun _ => Counted limits depth

theorem Keeps.counts (h : Keeps (Counted limits depth) x) : Counts limits depth x :=
  fun m hm => ⟨fun n hn => ((h m hm).1 n hn).callsBounded, (h m hm).2⟩

/-- A step that changes the state once counts calls if it goes back to the scopes it began with. -/
theorem Counts.modifyGet {f : Machine → α × Machine}
    (h : Restores ScopeStack.shape (modifyGet f : Exec α)) :
    Counts limits depth (modifyGet f : Exec α) := by
  refine Keeps.counts (Triple.modifyGet fun m hm => ?_)
  have hcounted := hm.of_shape (h m).scopes (h m).callDepth
  exact ⟨hcounted, hcounted⟩

theorem Counts.declare (b : Binding) : Counts limits depth (declare b) := by
  refine Keeps.counts (Triple.bind_get fun m hm => ?_)
  cases hd : m.scopes.declare b with
  | ok scopes =>
    have hcounted : Counted limits depth { m with scopes } :=
      hm.of_shape (ScopeStack.shape_of_frame (ScopeStack.frame_declare hd)) rfl
    exact Triple.set fun _ _ => ⟨hcounted, hcounted⟩
  | error e =>
    refine Triple.modify ?_
    rintro n rfl
    exact ⟨hm, hm⟩

theorem Counts.atSite (hx : Counts limits depth x) (site : Site) :
    Counts limits depth (atSite site x) := by
  have henter : ∀ site : Site, Counts limits depth
      (modify fun m => { m with diagnostics := m.diagnostics.enter site } : Exec PUnit) :=
    fun site => Keeps.counts (.modify fun m hm => hm)
  refine Triple.bind_get fun m hm => ?_
  have hrest := Triple.bind (henter site) fun _ => Triple.bind hx fun a =>
    Triple.bind (henter m.diagnostics.site) fun _ => (Keeps.pure a).counts
  refine hrest.mono ?_ fun _ _ h => h
  rintro n rfl
  exact hm

/-- The states that closing a scope passes through differ in the findings only. -/
theorem passes_closeScope {m n : Machine} {scope : Scope} {outer : List Scope}
    (h : m.scopes.inner = scope :: outer) (hn : closeScope.passes m n) :
    ∃ diagnostics,
      n = { m with scopes := { m.scopes with inner := outer }, diagnostics := diagnostics } := by
  let closed (n : Machine) : Prop := ∃ diagnostics,
    n = { m with scopes := { m.scopes with inner := outer }, diagnostics := diagnostics }
  have hpop : m.scopes.pop? = some (scope, { m.scopes with inner := outer }) := by
    rw [ScopeStack.pop?, h]
  have hset : Triple closed (· = m)
      (set { m with scopes := { m.scopes with inner := outer } } : Exec PUnit) fun _ => closed :=
    Triple.set fun _ _ => ⟨⟨_, rfl⟩, _, rfl⟩
  have hwarn : ∀ b : Binding, Keeps closed (reportOnce (.unusedVariable b.name) b.line) := by
    intro b
    refine Keeps.modify ?_
    rintro _ ⟨d, rfl⟩
    exact ⟨_, rfl⟩
  suffices hclose : Triple closed (· = m) closeScope fun _ => closed from (hclose m rfl).1 n hn
  refine Triple.bind_get fun k hk => ?_
  obtain rfl := hk.symm
  rw [hpop]
  refine hset.bind fun _ => ?_
  split
  · exact Keeps.pure _
  · exact Keeps.forM hwarn _

theorem Counts.inScope (hrestores : Restores ScopeStack.frame x) (hx : Counts limits depth x)
    {kind : Scope.Kind} (hkind : kind ≠ .function) :
    Counts limits depth (inScope (·.push kind) x) := by
  intro m hm
  have hpushed := hm.push hkind .outer
  have hend := (hrestores.inScope kind).loosen.shape m
  have hstep := hrestores { m with scopes := m.scopes.push kind }
  obtain ⟨scope, outer, hinner, -, hbare⟩ := ScopeStack.exists_inner hstep.scopes
  refine ⟨?_, hm.of_shape hend.scopes hend.callDepth⟩
  rintro n (rfl | hn | hn | hn)
  · exact hpushed.callsBounded
  · exact (hx _ hpushed).1 n hn
  · obtain ⟨d, rfl⟩ := passes_closeScope hinner hn
    have hshape := ScopeStack.shape_of_frame (ScopeStack.frame_of_bare hbare)
    exact Counted.callsBounded (hm.of_shape hshape hstep.callDepth)
  · exact False.elim hn

/-- Inside a call one more is in progress, so one less may be nested. -/
theorem Counts.inCall (hrestores : Restores ScopeStack.frame x) (hx : Counts limits depth x) :
    Counts limits (depth + 1) (inCall x) := by
  intro m hm
  have hpushed := hm.pushFunction
  have hend := hrestores.inCall.loosen.shape m
  have hcounted := hm.of_shape hend.scopes hend.callDepth
  refine ⟨?_, hcounted⟩
  rintro n (rfl | hn | rfl | hn)
  · exact hpushed.callsBounded
  · exact (hx _ hpushed).1 n hn
  · exact hcounted.callsBounded
  · exact False.elim hn

/-- Every step counts the calls in it. -/
theorem counts_primitive (limits : Limits) (depth : Nat) :
    Primitive (fun _ x _ => Restores ScopeStack.frame x ∧ Counts limits depth x)
      (fun _ x _ => Restores ScopeStack.frame x ∧ Counts limits depth x) := by
  have hone : ∀ {α : Type} {f : Machine → α × Machine},
      Restores ScopeStack.bare (modifyGet f : Exec α) →
      Restores ScopeStack.frame (modifyGet f : Exec α) ∧
        Counts limits depth (modifyGet f : Exec α) :=
    fun h => ⟨h.loosen, .modifyGet h.loosen.shape⟩
  exact
  { pure := fun a => ⟨.pure a, (Keeps.pure a).counts⟩
    bind := fun hx hf => ⟨hx.1.bind fun a => (hf a).1, Triple.bind hx.2 fun a => (hf a).2⟩
    row := fun hx hf => ⟨hx.1.bind fun a => (hf a).1, Triple.bind hx.2 fun a => (hf a).2⟩
    loosen := fun hx => hx
    report := fun f line => hone (restores_primitive.report f line)
    lookup := fun name => hone (restores_primitive.lookup name)
    adjust := fun hf name => hone (restores_primitive.adjust hf name)
    serve := fun text line => hone (restores_primitive.serve text line)
    ask := fun name => hone (restores_primitive.ask name)
    declare := fun b => ⟨.declare b, .declare b⟩
    atSite := fun site hx => ⟨hx.1.atSite site, hx.2.atSite site⟩
    rowAtSite := fun site hx => ⟨hx.1.atSite site, hx.2.atSite site⟩
    inScope := fun hkind hx => ⟨(hx.1.inScope _).loosen, .inScope hx.1 hx.2 hkind⟩ }

/-- Calls are counted, however deep they are nested. -/
theorem counts_invoke (limits : Limits) (depth : Nat) :
    CallsAlike (fun _ x _ => Restores ScopeStack.frame x ∧ Counts limits depth x)
      (invoke limits depth) (invoke limits depth) :=
  Congruence.invoke (R := fun depth _ x _ => Restores ScopeStack.frame x ∧ Counts limits depth x)
    limits (counts_primitive limits) (fun _ _ _ hx => ⟨hx.1.inCall.loosen, .inCall hx.1 hx.2⟩) depth

/-! ### Runs -/

theorem Counts.forM {f : α → Exec PUnit} (h : ∀ a, Counts limits depth (f a)) (as : List α) :
    Counts limits depth (as.forM f) := by
  induction as with
  | nil => exact (Keeps.pure _).counts
  | cons a as ih => exact Triple.bind (h a) fun _ => ih

theorem counts_declareFunction (f : Function) : Counts limits depth (declareFunction f) := by
  refine Keeps.counts (Triple.bind_get fun m hm => ?_)
  cases hd : m.scopes.declareGlobal (.function f) with
  | ok scopes =>
    have hcounted : Counted limits depth { m with scopes } :=
      hm.of_shape (ScopeStack.shape_declareGlobal hd) rfl
    exact Triple.set fun _ _ => ⟨hcounted, hcounted⟩
  | error e =>
    refine Triple.modify ?_
    rintro n rfl
    exact ⟨hm, hm⟩

theorem counts_runProgram (limits : Limits) (p : Program) :
    Counts limits limits.maxCallDepth (runProgram limits p) := by
  have hsteps := (counts_primitive limits limits.maxCallDepth).congruence limits
  refine Triple.bind (hsteps.declareAll _ 0 p.globals).2 fun _ => ?_
  refine Triple.bind (Counts.forM counts_declareFunction p.functions) fun _ => ?_
  have hentry : Counts limits limits.maxCallDepth
      (modify fun m => { m with scopes := m.scopes.pushEntry } : Exec PUnit) :=
    Keeps.counts (.modify fun m hm => hm.push (by decide) .global)
  refine Triple.bind hentry fun _ => ?_
  refine Triple.bind (hsteps.declareAll _ 0 p.locals).2 fun _ => ?_
  refine Triple.bind (hsteps.executeAll (counts_invoke limits _) _ 0 p.body).2 fun _ => ?_
  unfold checkExit
  split
  · exact (Keeps.pure _).counts
  · exact (hsteps.report _ _).2

theorem counted_initial (limits : Limits) (input : Input) :
    Counted limits limits.maxCallDepth (.initial input) :=
  ⟨rfl, Nat.zero_add _⟩

end Exec

theorem Program.Reaches.callsBounded {limits : Limits} {p : Program} {input : Input} {m : Machine}
    (h : p.Reaches limits input m) : m.CallsBounded limits := by
  have hinitial := Exec.counted_initial limits input
  rcases h with rfl | hpass
  · exact hinitial.callsBounded
  · exact (Exec.counts_runProgram limits p _ hinitial).1 m hpass

namespace Exec

theorem Restores.forM {α σ : Type} {view : ScopeStack → σ} {f : α → Exec PUnit}
    (h : ∀ a, Restores view (f a)) (as : List α) : Restores view (as.forM f) := by
  induction as with
  | nil => exact .pure _
  | cons a as ih => exact (h a).bind fun _ => ih

theorem restores_declareFunction (f : Function) :
    Restores ScopeStack.shape (declareFunction f) := by
  intro m
  rw [run_declareFunction]
  cases hd : m.scopes.declareGlobal (.function f) with
  | ok scopes => exact ⟨ScopeStack.shape_declareGlobal hd, rfl, rfl⟩
  | error e => exact Restores.report _ _ m

theorem restores_checkExit (limits : Limits) (code : Int) (line : Nat) :
    Restores ScopeStack.shape (checkExit limits code line) := by
  unfold checkExit
  split
  · exact .pure _
  · exact .report _ _

/-- A run leaves the scope of the entry point and the global one, and no call in progress. -/
theorem shape_run (limits : Limits) (p : Program) (input : Input) :
    (p.run limits input).scopes.shape = [(.entry, .global), (.global, .outer)] ∧
      (p.run limits input).callDepth = 0 := by
  -- what comes before the scope of the entry point is opened, and what comes behind it
  let before : Exec Unit := do
    declareAll limits ⟨.globals, []⟩ 0 p.globals
    p.functions.forM declareFunction
  let behind : Exec Unit := do
    declareAll limits (Site.child ⟨.entry, []⟩ 0) 0 p.locals
    executeAll limits (invoke limits limits.maxCallDepth) (Site.child ⟨.entry, []⟩ 1) 0 p.body
    checkExit limits p.exitCode p.exitLine
  have hbefore : Restores ScopeStack.shape before :=
    (restores_declareAll limits _ 0 p.globals).shape.bind fun _ =>
      Restores.forM restores_declareFunction p.functions
  have hbehind : Restores ScopeStack.shape behind :=
    (restores_declareAll limits _ 0 p.locals).shape.bind fun _ =>
      (restores_executeAll limits _ _ 0 p.body).shape.bind fun _ =>
        restores_checkExit limits _ _
  let m : Machine := (before.run (.initial input)).2
  have hfirst : Machine.Agrees ScopeStack.shape (.initial input) m := hbefore (.initial input)
  have hlast := hbehind { m with scopes := m.scopes.pushEntry }
  have hrun : p.run limits input = (behind.run { m with scopes := m.scopes.pushEntry }).2 := rfl
  rw [hrun]
  refine ⟨?_, hlast.callDepth.trans hfirst.callDepth⟩
  calc _ = (.entry, .global) :: m.scopes.shape := hlast.scopes
    _ = [(.entry, .global), (.global, .outer)] := by rw [hfirst.scopes]; rfl

/-! ### Every path -/

/-- **Scopes are balanced on every path.**  A statement leaves the open scopes and what is declared
in them, the site and the number of calls, whatever happens in it; only a counting loop may declare
its variable.  An expression changes nothing in the scopes but values and marks of use.  In every
state of a run as many calls are in progress as scopes of calls are open, and no more than
permitted; at the end there is none, and only the scope of the entry point and the global one are
open.

To enter a call and to leave it count as one step each.  The states inside this bookkeeping, in
which the call is counted and its scope not open yet, or closed and the call counted still, are not
among those that a run passes through; nothing looks at either between the two. -/
theorem scopes_balanced (limits : Limits) :
    (∀ depth site st m, Statement.Leaves st m
      ((execute limits (invoke limits depth) site st).run m).2) ∧
    (∀ depth e m, Machine.Agrees ScopeStack.bare m
      ((evaluate limits (invoke limits depth) e).run m).2) ∧
    ∀ p input,
      (∀ m, Program.Reaches limits p input m →
        m.callDepth = m.scopes.openCalls ∧ m.callDepth ≤ limits.maxCallDepth) ∧
      (p.run limits input).scopes.shape = [(.entry, .global), (.global, .outer)] ∧
      (p.run limits input).callDepth = 0 := by
  refine ⟨leaves_execute limits, restores_evaluate limits, fun p input => ⟨?_, ?_⟩⟩
  · intro m hm
    exact hm.callsBounded
  · exact shape_run limits p input

/-- A function that calls itself as long as it may, with a loop inside. -/
def nestedProgram : Program where
  globals := [.variables .pinch [⟨"tally", some (.pinch 0), 1⟩]]
  functions := [⟨"stir", none, [⟨.pinch, "n", 2⟩], [],
    [.step "tally" .increment 3,
      .forLoop true "i" (.literal (.pinch 0) 4)
        (.binary .less (.var "i" 4) (.literal (.pinch 1) 4) 4) "i" .increment
        [.call "stir" [.var "i" 5] 5] 4],
    none, 2⟩]
  locals := []
  body := [.call "stir" [.literal (.pinch 1) 7] 7]
  exitCode := 0
  exitLine := 8

theorem scopes_balanced_nested :
    (nestedProgram.run { Limits.standard with maxCallDepth := 3 } (.ofAnswers [])).globalValue?
        "tally" = some (.pinch 3) ∧
      (nestedProgram.run { Limits.standard with maxCallDepth := 3 } (.ofAnswers [])).callDepth =
        (nestedProgram.run { Limits.standard with maxCallDepth := 3 }
          (.ofAnswers [])).scopes.openCalls := by
  have hbalanced := (scopes_balanced { Limits.standard with maxCallDepth := 3 }).2.2
    nestedProgram (.ofAnswers [])
  exact ⟨rfl, (hbalanced.1 _ (nestedProgram.reaches_run _ _)).1⟩

end Exec

end Bistro
