import Bistro.Proofs.Exec.Lasting

/-!
# What a step reports

A finding that was recorded before at the same site is not recorded again, so the records do not
show whether a step reports an error.  But no step looks at the records: with others, it gives the
same result and leads to the same state, but for the records.  What a step reports is therefore seen
if it is taken while nothing is recorded.

## Main definitions

* `Machine.recording` — the state with other records.
* `Exec.Heedless` — a step that does not look at the records.
* `Exec.ReportsError` — a step reports an error, be it one that was recorded before.

## Main results

* `Exec.heedless_primitive`, `Exec.heedless_invoke` — no step looks at the records.
* `Exec.Heedless.failed_run_iff` — an error is recorded behind a step if there was one before, or if
  the step reports one.
* `Exec.Heedless.reportsError_bind` — what two steps report.
-/

namespace Bistro

/-- The state with other records, at the same site. -/
def Machine.recording (m : Machine) (records : List (Diagnostic × Option Site)) : Machine :=
  { m with diagnostics := { m.diagnostics with records } }

theorem Machine.not_failed_recording (m : Machine) : ¬(m.recording []).Failed := nofun

/-- Other findings at the same site are other records. -/
theorem Machine.recording_of_site {m : Machine} {ds : Diagnostics Site}
    (h : ds.site = m.diagnostics.site) : { m with diagnostics := ds } = m.recording ds.records := by
  obtain ⟨records, site⟩ := ds
  obtain rfl : site = m.diagnostics.site := h
  rfl

theorem hasErrors_warn (scope : Scope) (ds : Diagnostics Site) :
    (scope.warn ds).hasErrors = ds.hasErrors := by
  unfold Scope.warn
  split
  · rfl
  · induction scope.unused generalizing ds with
    | nil => rfl
    | cons b bs ih =>
      -- an unused variable is no error
      have hwarning : ((Finding.unusedVariable b.name).onLine b.line).isError = false := rfl
      rw [List.foldl_cons, ih, Diagnostics.pushOnce, Diagnostics.hasErrors_record, hwarning,
        Bool.or_false]

namespace Exec

open Machine (Failed)

variable {α β : Type} {x y : Exec α} {m : Machine}

/-- A step reports an error, be it one that was recorded before: it records one if nothing is
recorded yet. -/
def ReportsError (x : Exec α) (m : Machine) : Prop := (x.run (m.recording [])).2.Failed

/-- A step does not look at the records. -/
structure Heedless (x : Exec α) : Prop where
  /-- With other records it does the same. -/
  same : ∀ m records, ∃ records',
    x.run (m.recording records) = ((x.run m).1, (x.run m).2.recording records')
  /-- Its own errors are recorded behind it, and those from before. -/
  failed_run_iff : ∀ m, (x.run m).2.Failed ↔ m.Failed ∨ x.ReportsError m

theorem Heedless.congr (hx : Heedless x) (h : ∀ m, y.run m = x.run m) : Heedless y := by
  refine ⟨fun m records => ?_, fun m => ?_⟩
  · rw [h, h]
    exact hx.same m records
  · rw [ReportsError, h, h]
    exact hx.failed_run_iff m

/-- Of two steps one reports an error if the first one does, or the second one from where the first
one leads. -/
theorem Heedless.reportsError_bind {f : α → Exec β} (hx : Heedless x)
    (hf : Heedless (f (x.run m).1)) : ReportsError (x >>= f) m ↔
      ReportsError x m ∨ ReportsError (f (x.run m).1) (x.run m).2 := by
  obtain ⟨records, hfirst⟩ := hx.same m []
  rw [ReportsError, run_bind, ReportsError, hfirst]
  exact hf.failed_run_iff ((x.run m).2.recording records)

theorem Heedless.bind {f : α → Exec β} (hx : Heedless x) (hf : ∀ a, Heedless (f a)) :
    Heedless (x >>= f) := by
  refine ⟨fun m records => ?_, fun m => ?_⟩
  · obtain ⟨records', hfirst⟩ := hx.same m records
    obtain ⟨records'', hsecond⟩ := (hf (x.run m).1).same (x.run m).2 records'
    exact ⟨records'', by rw [run_bind, hfirst, hsecond]; rfl⟩
  · rw [hx.reportsError_bind (hf _), ← or_assoc, ← hx.failed_run_iff]
    exact (hf _).failed_run_iff _

/-- A step that leaves the records as they are. -/
theorem Heedless.modifyGet {f : Machine → α × Machine}
    (h : ∀ m records, f (m.recording records) = ((f m).1, (f m).2.recording records)) :
    Heedless (modifyGet f : Exec α) := by
  refine ⟨fun m records => ⟨records, h m records⟩, fun m => ?_⟩
  have hkept : (f m).2 = (f m).2.recording m.diagnostics.records :=
    congrArg Prod.snd (h m m.diagnostics.records)
  have hnone : ¬Failed (f (m.recording [])).2 := by
    rw [h]
    exact Machine.not_failed_recording _
  show Failed (f m).2 ↔ m.Failed ∨ Failed (f (m.recording [])).2
  rw [or_iff_left hnone, hkept]
  rfl

theorem Heedless.pure (a : α) : Heedless (pure a : Exec α) := by
  refine ⟨fun m records => ⟨records, rfl⟩, fun m => ?_⟩
  exact (or_iff_left (Machine.not_failed_recording m)).symm

theorem Heedless.report (f : Finding) (line : Nat) : Heedless (report f line) := by
  refine ⟨fun m records => ?_, fun m => ?_⟩
  · have hsite : ∀ ds : Diagnostics Site, (ds.push (f.onLine line)).site = ds.site :=
      fun ds => Diagnostics.site_record _ _ ds
    exact ⟨_, Prod.ext rfl (Machine.recording_of_site (m := ((Exec.report f line).run m).2)
      ((hsite (m.recording records).diagnostics).trans (hsite m.diagnostics).symm))⟩
  · have hpush : ∀ ds : Diagnostics Site,
        (ds.push (f.onLine line)).hasErrors = (ds.hasErrors || (f.onLine line).isError) :=
      fun ds => Diagnostics.hasErrors_record _ _ ds
    show (m.diagnostics.push (f.onLine line)).hasErrors = true ↔ m.diagnostics.hasErrors = true ∨
      ((m.recording []).diagnostics.push (f.onLine line)).hasErrors = true
    rw [hpush, hpush, Bool.or_eq_true]
    rfl

theorem Heedless.declare (b : Binding) : Heedless (declare b) := by
  have hreport := Heedless.report (.duplicateName b.name) b.line
  have hscopes : ∀ (m : Machine) records, (m.recording records).scopes = m.scopes :=
    fun _ _ => rfl
  refine ⟨fun m records => ?_, fun m => ?_⟩
  · have hsame := hreport.same m records
    simp only [run_declare, hscopes]
    cases m.scopes.declare b with
    | ok scopes => exact ⟨records, rfl⟩
    | error e => exact hsame
  · have hfailed := hreport.failed_run_iff m
    simp only [ReportsError, run_declare, hscopes] at hfailed ⊢
    cases m.scopes.declare b with
    | ok scopes => exact (or_iff_left (Machine.not_failed_recording m)).symm
    | error e => exact hfailed

theorem Heedless.atSite (hx : Heedless x) (site : Site) : Heedless (atSite site x) := by
  refine ⟨fun m records => ?_, fun m => ?_⟩
  · obtain ⟨records', hsame⟩ := hx.same { m with diagnostics := m.diagnostics.enter site } records
    exact ⟨records', congrArg
      (fun r : α × Machine => (r.1, { r.2 with
        diagnostics := r.2.diagnostics.enter m.diagnostics.site })) hsame⟩
  · exact hx.failed_run_iff { m with diagnostics := m.diagnostics.enter site }

theorem Heedless.closeScope : Heedless closeScope := by
  refine ⟨fun m records => ?_, fun m => ?_⟩
  · cases hinner : m.scopes.inner with
    | nil =>
      rw [run_closeScope_nil hinner, run_closeScope_nil (m := m.recording records) hinner]
      exact ⟨records, rfl⟩
    | cons scope outer =>
      rw [run_closeScope hinner, run_closeScope (m := m.recording records) hinner]
      have hsite := Scope.site_warn scope
      exact ⟨_, Prod.ext rfl (Machine.recording_of_site
        (m := { m with
          scopes := { m.scopes with inner := outer }, diagnostics := scope.warn m.diagnostics })
        ((hsite (m.recording records).diagnostics).trans (hsite m.diagnostics).symm))⟩
  · unfold ReportsError
    cases hinner : m.scopes.inner with
    | nil =>
      rw [run_closeScope_nil hinner, run_closeScope_nil (m := m.recording []) hinner]
      exact (or_iff_left (Machine.not_failed_recording m)).symm
    | cons scope outer =>
      rw [run_closeScope hinner, run_closeScope (m := m.recording []) hinner]
      show (scope.warn _).hasErrors = true ↔ _ ∨ (scope.warn _).hasErrors = true
      rw [hasErrors_warn, hasErrors_warn]
      exact (or_iff_left (Machine.not_failed_recording m)).symm

theorem Heedless.inScope (hx : Heedless x) (opened : ScopeStack → ScopeStack) :
    Heedless (inScope opened x) :=
  Heedless.bind (.modifyGet fun _ _ => rfl) fun _ => hx.bind fun a =>
    Heedless.closeScope.bind fun _ => .pure a

theorem Heedless.inCall (hx : Heedless x) : Heedless (inCall x) := by
  refine Heedless.bind (.modifyGet fun _ _ => rfl) fun _ => hx.bind fun a => ?_
  -- the scope is closed and the call ended in one change, which are two here
  have hclose : Heedless (Exec.closeScope >>= fun _ =>
      modify fun m => { m with callDepth := m.callDepth - 1 } : Exec PUnit) :=
    Heedless.closeScope.bind fun _ => .modifyGet fun _ _ => rfl
  exact Heedless.bind (hclose.congr fun _ => rfl) fun _ => .pure a

theorem heedless_primitive : Primitive (fun _ x _ => Heedless x) (fun _ x _ => Heedless x) where
  pure a := .pure a
  bind hx hf := hx.bind hf
  row hx hf := hx.bind hf
  loosen hx := hx
  report f line := .report f line
  lookup _ := .modifyGet fun _ _ => rfl
  adjust _ _ := .modifyGet fun _ _ => rfl
  serve _ _ := .modifyGet fun _ _ => rfl
  ask _ := .modifyGet fun _ _ => rfl
  declare b := .declare b
  atSite site hx := hx.atSite site
  rowAtSite site hx := hx.atSite site
  inScope _ hx := hx.inScope _

variable (limits : Limits) (depth : Nat)

theorem heedless_invoke :
    CallsAlike (fun _ x _ => Heedless x) (invoke limits depth) (invoke limits depth) :=
  Congruence.invoke limits (fun _ => heedless_primitive) (fun _ _ _ hx => hx.inCall) depth

theorem heedless_evaluate (e : Expr) : Heedless (evaluate limits (invoke limits depth) e) :=
  (heedless_primitive.congruence limits).evaluate (heedless_invoke limits depth) e

theorem heedless_execute (site : Site) (st : Statement) :
    Heedless (execute limits (invoke limits depth) site st) :=
  ((heedless_primitive.congruence limits).execute (heedless_invoke limits depth) site st).2

end Exec

end Bistro
