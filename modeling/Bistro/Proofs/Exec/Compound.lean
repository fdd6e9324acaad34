import Bistro.Proofs.Exec.AllOrNothing

/-!
# Compound assignments and steps

The assignment of an operator's result to its first operand can be written in a short form, and
adding or subtracting one in a still shorter one.  The three forms find the variable, look at its
value, apply the operator and check the type in different orders.  They agree all the same: they
leave the same values, and where one reports an error so do the others.

The expansion reads the place, and what it reads is the former value that the short form goes on
from.  If there is none, both report an error, though not the same one; only a short form whose
operand is silent, because something was compared there with what is not a number, reports none.

## Main definitions

* `Place.expr`, `Place.read?` — the expression for the value in a place, and what it gives.

## Main results

* `Exec.Glances.result_congr`, `Exec.Glances.reportsError_congr` — what an expression without calls
  gives and reports depends on what is seen.
* `Exec.assignOutcome_expanded` — what a short form and its expansion come to.
* `Exec.stepOutcome_eq` — what a step comes to.
* `Exec.compound_agrees` — **compound assignments and steps agree with their expansions.**
* `Exec.silent_compound` — a silent operand that tells them apart.
-/

namespace Bistro

/-- The expression for the value in a place. -/
def Place.expr : Place → Nat → Expr
  | .var name, line => .var name line
  | .element name index, line => .element name index line

theorem Place.callFree_expr (target : Place) (line : Nat) : (target.expr line).callFree = true := by
  cases target <;> rfl

/-- What reading a place gives for the binding of its name. -/
def Place.read? (target : Place) (b : Binding) : Option Value :=
  match target, b.kind with
  | .var _, .function _ => none
  | .var _, _ => b.value
  | .element _ index, .array _ _ => Exec.elementAt? b.value index
  | .element _ _, _ => none

theorem Diagnostics.hasErrors_pushAll {σ : Type} [DecidableEq σ] (ds : List Diagnostic)
    (all : Diagnostics σ) :
    (all.pushAll ds).hasErrors = (all.hasErrors || ds.any Diagnostic.isError) := by
  induction ds generalizing all with
  | nil => exact (Bool.or_false _).symm
  | cons d ds ih =>
    show ((all.push d).pushAll ds).hasErrors = _
    rw [ih, push, hasErrors_record, List.any_cons, Bool.or_assoc]

namespace Exec

open Machine (Failed)

variable {α : Type} {m m' : Machine} {limits : Limits} {target : Place}

/-! ### What looks report -/

theorem Glances.result_congr {x : Exec α} (hx : Glances x)
    (h : m'.scopes.view = m.scopes.view) : (x.run m').1 = (x.run m).1 := by
  obtain ⟨look, hlook⟩ := hx
  rw [hlook, hlook, h]

/-- Neither marks nor findings nor the site make a difference to what a look reports. -/
theorem Glances.reportsError_congr {x : Exec α} (hx : Glances x)
    (h : m'.scopes.view = m.scopes.view) : x.ReportsError m' ↔ x.ReportsError m := by
  obtain ⟨look, hlook⟩ := hx
  have hreports : ∀ m : Machine,
      x.ReportsError m ↔ (look m.scopes.view).findings.any Diagnostic.isError = true := by
    intro m
    rw [ReportsError, hlook, Failed]
    show ((m.recording []).diagnostics.pushAll (look m.scopes.view).findings).hasErrors = true ↔ _
    rw [Diagnostics.hasErrors_pushAll]
    rfl
  rw [hreports, hreports, h]

theorem Decides.run_fst {good : Option α → Prop} {x : Exec (Option α)} (h : Decides good x)
    (m : Machine) : (x.run m).1 = x.result? := by
  unfold result?
  rcases h with ⟨r, -, hrun⟩ | ⟨f, line, -, hrun⟩
  · rw [hrun, hrun]
  · rw [hrun, hrun]

/-- A step that gives a value or rejects reports an error exactly if it gives none. -/
theorem Decides.reportsError_iff {x : Exec (Option α)} (h : Decides (·.isSome) x) (m : Machine) :
    x.ReportsError m ↔ x.result? = none := by
  unfold ReportsError
  rcases h.cases with ⟨a, hresult, hrun⟩ | ⟨hresult, f, line, hf, hrun⟩
  · rw [hrun, hresult]
    exact iff_of_false m.not_failed_recording nofun
  · rw [hrun, hresult]
    exact iff_of_true (failed_report hf line _) rfl

theorem Outcome.Leads.failed_iff {o : Outcome} {m m' : Machine} (h : o.Leads target m m')
    (hm : ¬m.Failed) : m'.Failed ↔ o = .error := by
  cases o with
  | error => exact iff_of_true h.failed rfl
  | nothing =>
    rw [Failed, h.2]
    simpa [Failed] using hm
  | put v =>
    rw [Failed, h.2]
    simpa [Failed] using hm

theorem reportsError_assign_iff (op : AssignOp) (v : Option Value) (line : Nat) (m : Machine) :
    (assign limits target op v line).ReportsError m ↔
      assignOutcome limits target op v line (m.scopes.view target.name) = .error :=
  (leads_assign limits target op v line (m.recording [])).failed_iff m.not_failed_recording

/-- What an outcome leaves of the scopes. -/
def Outcome.stored (target : Place) (s : ScopeStack) : Outcome → ScopeStack
  | .put v => s.adjust target.name (target.put v)
  | _ => s

theorem Outcome.Leads.scopes {o : Outcome} (h : o.Leads target m m') :
    m'.scopes = o.stored target m.scopes := by
  cases o with
  | error => exact h.1
  | nothing => exact h.1
  | put v => exact h.1

/-- The same outcome for the same values leaves the same values. -/
theorem Outcome.sameValues_stored (o : Outcome) {s s' : ScopeStack} (h : s.SameValues s') :
    (o.stored target s).SameValues (o.stored target s') := by
  cases o with
  | error => exact h
  | nothing => exact h
  | put v =>
    refine h.adjust (target.valueOnly_put v) (fun b b' hvalue => ?_) target.name
    rw [Place.value_put, Place.value_put, hvalue]

/-! ### Reading a place -/

/-- Reading a place gives what is read of the binding, or it is rejected. -/
theorem evaluate_expr_cases (limits : Limits) (call : Call) (target : Place) (line : Nat)
    (m : Machine) :
    (∃ v, (m.scopes.view target.name).bind target.read? = some v ∧
      (evaluate limits call (target.expr line)).run m = (some v, m.noted [target.name] [])) ∨
    ((m.scopes.view target.name).bind target.read? = none ∧ ∃ f, f.kind.severity = .error ∧
      (evaluate limits call (target.expr line)).run m =
        (none, ((report f line).run (m.noted [target.name] [])).2)) := by
  cases target with
  | var name =>
    rw [Place.expr, evaluate, readVariable, run_bind, run_lookup_eq, Place.name]
    cases m.scopes.view name with
    | none => exact .inr ⟨rfl, _, rfl, rfl⟩
    | some b =>
      obtain ⟨_, kind, value, _, _⟩ := b
      cases kind with
      | function f => exact .inr ⟨rfl, _, rfl, rfl⟩
      | scalar type =>
        cases value with
        | none => exact .inr ⟨rfl, _, rfl, rfl⟩
        | some v => exact .inl ⟨v, rfl, rfl⟩
      | array type dimension =>
        cases value with
        | none => exact .inr ⟨rfl, _, rfl, rfl⟩
        | some v => exact .inl ⟨v, rfl, rfl⟩
  | element name index =>
    rw [Place.expr, evaluate, readElement, run_bind, run_lookup_eq, Place.name]
    cases m.scopes.view name with
    | none => exact .inr ⟨rfl, _, rfl, rfl⟩
    | some b =>
      obtain ⟨_, kind, value, _, _⟩ := b
      cases kind with
      | function f => exact .inr ⟨rfl, _, rfl, rfl⟩
      | scalar type => exact .inr ⟨rfl, _, rfl, rfl⟩
      | array type dimension =>
        simp only [Option.map_some, Option.bind_some, Binding.marked, Place.read?]
        cases elementAt? value index with
        | none => exact .inr ⟨rfl, _, rfl, rfl⟩
        | some v => exact .inl ⟨v, rfl, rfl⟩

theorem run_evaluate_expr (limits : Limits) (call : Call) (target : Place) (line : Nat)
    (m : Machine) : ((evaluate limits call (target.expr line)).run m).1 =
      (m.scopes.view target.name).bind target.read? := by
  rcases evaluate_expr_cases limits call target line m with ⟨v, hv, hrun⟩ | ⟨hnone, f, -, hrun⟩
  · rw [hrun, hv]
  · rw [hrun, hnone]

theorem reportsError_evaluate_expr (limits : Limits) (call : Call) (target : Place) (line : Nat)
    (m : Machine) : (evaluate limits call (target.expr line)).ReportsError m ↔
      (m.scopes.view target.name).bind target.read? = none := by
  unfold ReportsError
  have hview : (m.recording []).scopes.view = m.scopes.view := rfl
  rcases evaluate_expr_cases limits call target line (m.recording []) with
    ⟨v, hv, hrun⟩ | ⟨hnone, f, hf, hrun⟩
  · rw [hview] at hv
    rw [hrun, hv]
    exact iff_of_false m.not_failed_recording nofun
  · rw [hview] at hnone
    rw [hrun, hnone]
    exact iff_of_true (failed_report hf line _) rfl

/-! ### Operators on any line -/

/-- What arithmetic gives does not depend on the line it stands on. -/
theorem result?_arithmetic (limits : Limits) (op : BinaryOp) (left right : Value)
    (line line' : Nat) : (arithmetic limits op left right line).result? =
      (arithmetic limits op left right line').result? := by
  unfold arithmetic
  split
  · split <;> rfl
  · unfold integerArithmetic
    split
    · rfl
    · split
      · rfl
      · split <;> rfl
  · split
    · unfold fractionArithmetic
      split
      · rfl
      · split <;> rfl
    · rfl

variable {op : AssignOp} {binary : BinaryOp}

theorem applyBinary_eq_arithmetic (hop : op.binary? = some binary) (limits : Limits)
    (left right : Value) (line : Nat) : applyBinary limits binary left right line =
      arithmetic limits binary left right line := by
  cases op with
  | assign => cases hop
  | add | sub | mul | div | mod =>
    obtain rfl := Option.some.inj hop
    rfl

theorem ne_assign (hop : op.binary? = some binary) : op ≠ .assign := by
  rintro rfl
  cases hop

/-! ### What both forms come to -/

theorem checked_congr {type : ValueType} {x y : Exec (Option Value)} (h : x.result? = y.result?) :
    Outcome.checked type x = Outcome.checked type y := by
  unfold Outcome.checked
  rw [h]

theorem result?_combine (hop : op.binary? = some binary) (current w : Value) (name : String)
    (line l : Nat) : (combine limits op (some current) w name line).result? =
      (applyBinary limits binary current w l).result? := by
  simp only [combine, hop]
  rw [applyBinary_eq_arithmetic hop, applyBinary_eq_arithmetic hop]
  exact result?_arithmetic limits binary current w line l

/-- The short form comes to an error if there is no value to begin with. -/
theorem checked_combine_none (hop : op.binary? = some binary) (type : ValueType) (w : Value)
    (name : String) (line : Nat) :
    Outcome.checked type (combine limits op none w name line) = .error := by
  have hunset : (combine limits op none w name line).result? = none := by
    simp only [combine, hop]
    rfl
  unfold Outcome.checked
  rw [hunset]

/-- Where the operator gives nothing, the short form comes to an error; otherwise it comes to the
same as the assignment of what the operator gives. -/
theorem checked_combine (hop : op.binary? = some binary) (type : ValueType) (current w : Value)
    (name : String) (line line' l : Nat) :
    let sum := (applyBinary limits binary current w l).result?
    (sum = none ∧
      Outcome.checked type (combine limits op (some current) w name line) = .error) ∨
    ∃ next, sum = some next ∧
      Outcome.checked type (combine limits op (some current) w name line) =
        Outcome.checked type (combine limits .assign (some current) next name line') := by
  intro sum
  have hcombine : (combine limits op (some current) w name line).result? = sum :=
    result?_combine hop current w name line l
  cases hsum : sum with
  | none =>
    refine .inl ⟨rfl, ?_⟩
    unfold Outcome.checked
    rw [hcombine, hsum]
  | some next => exact .inr ⟨next, rfl, checked_congr (hcombine.trans hsum)⟩

/-- Where the expansion computes nothing, the short form comes to an error; otherwise both come to
the same. -/
theorem assignOutcome_expanded (hop : op.binary? = some binary) {b : Option Binding}
    (hb : ∀ b', b = some b' → b'.WellTyped) (w : Value) (line line' l : Nat) :
    let sum := (applyBinary? limits binary (b.bind target.read?) (some w) l).result?
    (sum = none ∧ assignOutcome limits target op (some w) line b = .error) ∨
    ∃ next, sum = some next ∧ assignOutcome limits target op (some w) line b =
      assignOutcome limits target .assign (some next) line' b := by
  cases b with
  | none => exact .inl ⟨rfl, rfl⟩
  | some b =>
    have htyped := hb b rfl
    obtain ⟨_, kind, value, _, _⟩ := b
    cases target with
    | var name =>
      cases kind with
      | function f => exact .inl ⟨rfl, rfl⟩
      | scalar type =>
        cases value with
        | some current => exact checked_combine hop type current w name line line' l
        | none => exact .inl ⟨rfl, checked_combine_none hop type w name line⟩
      | array type dimension =>
        -- no operator applies to a whole array, which always has a value
        obtain ⟨items, rfl, -, -⟩ := htyped.exists_items rfl
        refine .inl ⟨?_, ?_⟩
        · show (applyBinary limits binary (.recipe items) w l).result? = none
          rw [applyBinary_eq_arithmetic hop]
          cases w <;> rfl
        · simp [assignOutcome, Place.slot?, Slot.outcome, ne_assign hop]
    | element name index =>
      cases kind with
      | function f => exact .inl ⟨rfl, rfl⟩
      | scalar type => exact .inl ⟨rfl, rfl⟩
      | array type dimension =>
        simp only [assignOutcome, Option.bind_some, Place.read?, Place.slot?]
        cases elementAt? value index with
        | none => exact .inl ⟨rfl, rfl⟩
        | some current => exact checked_combine hop type current w name line line' l

/-- A step comes to the same as the assignment with one. -/
theorem stepOutcome_eq (limits : Limits) (name : String) (op : StepOp) (line line' : Nat)
    (b : Option Binding) : stepOutcome limits op line b =
      assignOutcome limits (.var name) op.compound (some (.pinch 1)) line' b := by
  have hop := op.binary?_compound
  cases b with
  | none => rfl
  | some b =>
    obtain ⟨_, kind, value, _, _⟩ := b
    cases kind with
    | function f => rfl
    | array type dimension =>
      simp [stepOutcome, assignOutcome, Place.slot?, Slot.outcome, ne_assign hop]
    | scalar type =>
      cases value with
      | none => exact (checked_combine_none hop type _ name line').symm
      | some current =>
        have hchecked :
            Outcome.checked type (applyBinary limits op.binary current (.pinch 1) line) =
              Outcome.checked type
                (combine limits op.compound (some current) (.pinch 1) name line') :=
          checked_congr (result?_combine hop current (.pinch 1) name line' line).symm
        rw [stepOutcome]
        split
        · exact hchecked
        · next hnumeric =>
          -- nothing but a number can be added to
          refine Eq.trans ?_ hchecked
          rw [applyBinary_eq_arithmetic hop]
          cases current with
          | pinch n => exact absurd rfl hnumeric
          | skim x => exact absurd rfl hnumeric
          | pasta s | bool b | recipe items => rfl

theorem result?_applyBinary?_none (binary : BinaryOp) (c : Option Value) (l : Nat) :
    (applyBinary? limits binary c none l).result? = none := by
  cases c <;> rfl

/-- Without a value to assign there is no difference. -/
theorem assignOutcome_none (op op' : AssignOp) (line line' : Nat) (b : Option Binding) :
    assignOutcome limits target op none line b = assignOutcome limits target op' none line' b := by
  unfold assignOutcome
  cases b.bind target.slot? <;> rfl

theorem stored_assignOutcome_none (op : AssignOp) (line : Nat) (b : Option Binding)
    (s : ScopeStack) : (assignOutcome limits target op none line b).stored target s = s := by
  unfold assignOutcome
  cases b.bind target.slot? <;> rfl

/-! ### The expansion -/

variable {e : Expr}

theorem callFree_expanded (he : e.callFree = true) (target : Place) (binary : BinaryOp)
    (l l' : Nat) : (Expr.binary binary (target.expr l) e l').callFree = true := by
  rw [Expr.callFree, target.callFree_expr, he, Bool.and_self]

variable (limits) (target) (depth : Nat)

theorem run_evaluate_expanded (binary : BinaryOp) (he : e.callFree = true) (l l' : Nat)
    (m : Machine) :
    ((evaluate limits (invoke limits depth) (.binary binary (target.expr l) e l')).run m).1 =
      (applyBinary? limits binary ((m.scopes.view target.name).bind target.read?)
        ((evaluate limits (invoke limits depth) e).run m).1 l').result? := by
  have hglances := glances_evaluate limits (invoke limits depth) e he
  have hread := glances_evaluate limits (invoke limits depth) _ (target.callFree_expr l)
  have hview := (hread.onlyLooked m).scopes.view
  rw [evaluate, run_bind, run_bind, run_evaluate_expr, hglances.result_congr hview]
  exact (decides_applyBinary? _ _ _ _ _).run_fst _

/-- The expansion reports an error if the place cannot be read, if the other operand reports one, or
if the operator does. -/
theorem reportsError_evaluate_expanded (binary : BinaryOp) (he : e.callFree = true) (l l' : Nat)
    (m : Machine) :
    (evaluate limits (invoke limits depth) (.binary binary (target.expr l) e l')).ReportsError m ↔
      (m.scopes.view target.name).bind target.read? = none ∨
      (evaluate limits (invoke limits depth) e).ReportsError m ∨
      (applyBinary? limits binary ((m.scopes.view target.name).bind target.read?)
        ((evaluate limits (invoke limits depth) e).run m).1 l').ReportsError m := by
  have hglances := glances_evaluate limits (invoke limits depth) e he
  have hoperand := heedless_evaluate limits depth e
  have happly := fun c r => (heedless_primitive.congruence limits).applyBinary? binary c r l'
  have hread := glances_evaluate limits (invoke limits depth) _ (target.callFree_expr l)
  have hview := (hread.onlyLooked m).scopes.view
  rw [evaluate, (heedless_evaluate limits depth (target.expr l)).reportsError_bind
    (hoperand.bind fun r => happly _ r), hoperand.reportsError_bind (happly _ _),
    reportsError_evaluate_expr, run_evaluate_expr, hglances.reportsError_congr hview,
    hglances.result_congr hview]
  -- the operator does not look at the state at all
  refine or_congr_right (or_congr_right ?_)
  refine (decides_applyBinary? limits binary _ _ l').glances.reportsError_congr ?_
  exact ((hglances.onlyLooked _).scopes.view).trans hview

/-! ### Statements -/

/-- An assignment at its site reports an error if its right-hand side does or it comes to one. -/
theorem reportsError_execute_assign (site : Site) (op : AssignOp) (he : e.callFree = true)
    (line : Nat) (m : Machine) :
    (execute limits (invoke limits depth) site (.assign target op e line)).ReportsError m ↔
      (evaluate limits (invoke limits depth) e).ReportsError m ∨
        assignOutcome limits target op ((evaluate limits (invoke limits depth) e).run m).1 line
          (m.scopes.view target.name) = .error := by
  have hglances := glances_evaluate limits (invoke limits depth) e he
  have hview := (hglances.onlyLooked (m.at site)).scopes.view
  have hsite : (m.at site).scopes.view = m.scopes.view := rfl
  have hassign : ∀ v, Heedless (assign limits target op v line) :=
    fun v => (heedless_primitive.congruence limits).assign target op v line
  have hboth := (heedless_evaluate limits depth e).reportsError_bind (m := m.at site)
    (f := fun v => assign limits target op v line) (hassign _)
  rw [reportsError_assign_iff, hview, hglances.reportsError_congr hsite,
    hglances.result_congr hsite] at hboth
  exact hboth

/-- What an assignment at its site leaves of the scopes. -/
theorem scopes_execute_assign (site : Site) (op : AssignOp) (he : e.callFree = true) (line : Nat)
    (m : Machine) : ∃ s, m.scopes.SameValues s ∧
      ((execute limits (invoke limits depth) site (.assign target op e line)).run m).2.scopes =
        (assignOutcome limits target op ((evaluate limits (invoke limits depth) e).run m).1 line
          (m.scopes.view target.name)).stored target s := by
  have hglances := glances_evaluate limits (invoke limits depth) e he
  have hlooked := (hglances.onlyLooked (m.at site)).scopes
  have hsite : (m.at site).scopes.view = m.scopes.view := rfl
  have hleads := leads_assign limits target op
    ((evaluate limits (invoke limits depth) e).run (m.at site)).1 line
    ((evaluate limits (invoke limits depth) e).run (m.at site)).2
  have hscopes := hleads.scopes
  rw [hlooked.view, hsite] at hscopes
  rw [← hglances.result_congr hsite]
  exact ⟨_, hlooked.trans (ScopeStack.sameValues_mark [target.name] _), hscopes⟩

theorem scopes_execute_step (site : Site) (name : String) (op : StepOp) (line : Nat) (m : Machine) :
    ((execute limits (invoke limits depth) site (.step name op line)).run m).2.scopes =
      (stepOutcome limits op line (m.scopes.view name)).stored (.var name)
        (m.scopes.mark [name]) :=
  (leads_takeStep limits name op line (m.at site)).scopes

theorem reportsError_execute_step (site : Site) (name : String) (op : StepOp) (line : Nat)
    (m : Machine) :
    (execute limits (invoke limits depth) site (.step name op line)).ReportsError m ↔
      stepOutcome limits op line (m.scopes.view name) = .error :=
  (leads_takeStep limits name op line ((m.at site).recording [])).failed_iff
    (m.at site).not_failed_recording

variable {limits} {depth} {target}

/-- A place that can be stored into but not read has no value. -/
theorem valueAt?_eq_none {b : Binding} {slot : Slot} (hb : m.scopes.view target.name = some b)
    (hslot : target.slot? b = some slot) (hread : target.read? b = none) :
    m.scopes.valueAt? target = none := by
  rw [valueAt?_eq_part?, hb, Option.bind_some]
  obtain ⟨_, kind, value, _, _⟩ := b
  cases target with
  | var name =>
    cases kind with
    | function f => cases hslot
    | scalar type => exact hread
    | array type dimension => exact hread
  | element name index =>
    cases kind with
    | array type dimension => exact hread
    | function f => cases hslot
    | scalar type => cases hslot

/-- If the place cannot be read and the operand has no value, the short form reports an error, too,
unless the operand lost its value in silence. -/
theorem reports_of_unread
    (hcond : (m.scopes.valueAt? target).isSome = true ∨
      ¬(evaluate limits (invoke limits depth) e).Silent m)
    (hread : (m.scopes.view target.name).bind target.read? = none)
    (hnone : ((evaluate limits (invoke limits depth) e).run m).1 = none) (op : AssignOp)
    (line : Nat) :
    (evaluate limits (invoke limits depth) e).ReportsError m ∨
      assignOutcome limits target op none line (m.scopes.view target.name) = .error := by
  cases hslot : (m.scopes.view target.name).bind target.slot? with
  | none =>
    right
    unfold assignOutcome
    rw [hslot]
  | some slot =>
    left
    obtain ⟨b, hb, hslot⟩ := Option.bind_eq_some_iff.1 hslot
    rw [hb, Option.bind_some] at hread
    have hunset := valueAt?_eq_none hb hslot hread
    rcases hcond with hsome | hsilent
    · rw [hunset] at hsome
      cases hsome
    · by_contra hreports
      exact hsilent ⟨hnone, hreports⟩

theorem wellTyped_view {p : Program} {input : Input} (hm : p.Reaches limits input m) (name : String)
    (b : Binding) (hb : m.scopes.view name = some b) : b.WellTyped := by
  obtain ⟨b', hb', rfl⟩ := Option.map_eq_some_iff.1 hb
  have htyped : b'.WellTyped := hm.wellTyped.peek? hb'
  exact htyped

section
variable {p : Program} {input : Input} (hm : p.Reaches limits input m)
  (hop : op.binary? = some binary) (he : e.callFree = true) (depth) (site site' : Site)
  (line line' l l' : Nat)
include hm hop he

theorem sameValues_compound :
    let x := execute limits (invoke limits depth) site (.assign target op e line)
    let y := execute limits (invoke limits depth) site'
      (.assign target .assign (.binary binary (target.expr l) e l') line')
    (x.run m).2.scopes.SameValues (y.run m).2.scopes := by
  obtain ⟨s, hs, hx⟩ := scopes_execute_assign limits target depth site op he line m
  obtain ⟨s', hs', hy⟩ := scopes_execute_assign limits target depth site' .assign
    (callFree_expanded he target binary l l') line' m
  have hsame := hs.symm.trans hs'
  dsimp only
  rw [hx, hy, run_evaluate_expanded limits target depth binary he]
  cases ((evaluate limits (invoke limits depth) e).run m).1 with
  | none =>
    rw [result?_applyBinary?_none, assignOutcome_none op .assign line line']
    exact Outcome.sameValues_stored _ hsame
  | some w =>
    rcases assignOutcome_expanded hop (wellTyped_view hm target.name) w line line' l' with
      ⟨hsum, herror⟩ | ⟨next, hsum, heq⟩
    · rw [hsum, herror, stored_assignOutcome_none]
      exact hsame
    · rw [hsum, heq]
      exact Outcome.sameValues_stored _ hsame

theorem reportsError_compound
    (hcond : (m.scopes.valueAt? target).isSome = true ∨
      ¬(evaluate limits (invoke limits depth) e).Silent m) :
    (execute limits (invoke limits depth) site (.assign target op e line)).ReportsError m ↔
      (execute limits (invoke limits depth) site'
        (.assign target .assign (.binary binary (target.expr l) e l') line')).ReportsError m := by
  have hunread : _ → ((evaluate limits (invoke limits depth) e).run m).1 = none → _ :=
    reports_of_unread hcond
  rw [reportsError_execute_assign limits target depth site op he,
    reportsError_execute_assign limits target depth site' .assign
      (callFree_expanded he target binary l l'),
    reportsError_evaluate_expanded limits target depth binary he,
    run_evaluate_expanded limits target depth binary he]
  cases hr : ((evaluate limits (invoke limits depth) e).run m).1 with
  | none =>
    have hsilent : ¬(applyBinary? limits binary ((m.scopes.view target.name).bind target.read?) none
        l').ReportsError m := by
      cases (m.scopes.view target.name).bind target.read? <;> exact m.not_failed_recording
    rw [result?_applyBinary?_none, or_iff_left hsilent, assignOutcome_none op .assign line line']
    have hunread := fun hread => hunread hread hr .assign line'
    exact ⟨fun h => h.imp_left .inr, fun h => h.elim (fun h => h.elim hunread .inl) .inr⟩
  | some w =>
    rcases assignOutcome_expanded hop (wellTyped_view hm target.name) w line line' l' with
      ⟨hsum, herror⟩ | ⟨next, hsum, heq⟩
    · refine iff_of_true (.inr herror) (.inl ?_)
      cases hread : (m.scopes.view target.name).bind target.read? with
      | none => exact .inl rfl
      | some current =>
        rw [hread] at hsum
        have happly := decides_applyBinary_of_binary? hop limits current w l'
        exact .inr (.inr ((happly.reportsError_iff m).2 hsum))
    · cases hread : (m.scopes.view target.name).bind target.read? with
      | none =>
        rw [hread] at hsum
        cases hsum
      | some current =>
        rw [hread] at hsum
        have happly := decides_applyBinary_of_binary? hop limits current w l'
        have hsilent : ¬(applyBinary? limits binary (some current) (some w) l').ReportsError m := by
          intro hreports
          cases hsum.symm.trans ((happly.reportsError_iff m).1 hreports)
        have hsome : some current ≠ none := Option.some_ne_none current
        rw [hsum, heq, or_iff_left hsilent, or_iff_right hsome]

end

section
variable (limits) (depth) (name : String) (op : StepOp) (site site' : Site) (line line' l : Nat)
  (m : Machine)

theorem sameValues_step :
    ((execute limits (invoke limits depth) site (.step name op line)).run m).2.scopes.SameValues
      ((execute limits (invoke limits depth) site'
        (.assign (.var name) op.compound (.literal (.pinch 1) l) line')).run m).2.scopes := by
  obtain ⟨s, hs, hy⟩ := scopes_execute_assign limits (.var name) depth site' op.compound
    (e := .literal (.pinch 1) l) rfl line' m
  rw [scopes_execute_step, hy, stepOutcome_eq limits name op line line']
  exact Outcome.sameValues_stored _
    ((ScopeStack.sameValues_mark [name] m.scopes).symm.trans hs)

theorem reportsError_step :
    (execute limits (invoke limits depth) site (.step name op line)).ReportsError m ↔
      (execute limits (invoke limits depth) site'
        (.assign (.var name) op.compound (.literal (.pinch 1) l) line')).ReportsError m := by
  rw [reportsError_execute_step, reportsError_execute_assign limits (.var name) depth site'
    op.compound (e := .literal (.pinch 1) l) rfl, stepOutcome_eq limits name op line line']
  exact (or_iff_right m.not_failed_recording).symm

end

/-- **Compound assignments and steps agree with their expansions.**  In every state of a run:

* `P op= e` and `P = P op e`, with an expression `e` without calls, leave the same values in all
  variables and arrays, and one reports an error exactly if the other does, unless the place has no
  value and `e` loses its own in silence;
* in a regular program, as all are that come from a source text, no expression is silent;
* a step and the compound assignment of one do the same, whatever the name stands for.

The statements may stand at different sites and on any lines. -/
theorem compound_agrees (limits : Limits) (p : Program) (input : Input) (m : Machine)
    (hm : p.Reaches limits input m) (depth : Nat) (site site' : Site) :
    (∀ target op binary e line line' l l', AssignOp.binary? op = some binary →
      Expr.callFree e = true →
      let x := execute limits (invoke limits depth) site (.assign target op e line)
      let y := execute limits (invoke limits depth) site'
        (.assign target .assign (.binary binary (target.expr l) e l') line')
      (x.run m).2.scopes.SameValues (y.run m).2.scopes ∧
        ((m.scopes.valueAt? target).isSome = true ∨
            ¬(evaluate limits (invoke limits depth) e).Silent m →
          (x.ReportsError m ↔ y.ReportsError m) ∧
          ((x.run m).2.Failed ↔ (y.run m).2.Failed))) ∧
    (p.Regular → ∀ e, Word.AllRegular (Expr.words e) →
      ¬(evaluate limits (invoke limits depth) e).Silent m) ∧
    ∀ name op line line' l,
      let x := execute limits (invoke limits depth) site (.step name op line)
      let y := execute limits (invoke limits depth) site'
        (.assign (.var name) op.compound (.literal (.pinch 1) l) line')
      (x.run m).2.scopes.SameValues (y.run m).2.scopes ∧
        (x.ReportsError m ↔ y.ReportsError m) ∧ ((x.run m).2.Failed ↔ (y.run m).2.Failed) := by
  have hfailed : ∀ st st', ((execute limits (invoke limits depth) site st).ReportsError m ↔
      (execute limits (invoke limits depth) site' st').ReportsError m) →
      (((execute limits (invoke limits depth) site st).run m).2.Failed ↔
        ((execute limits (invoke limits depth) site' st').run m).2.Failed) := by
    intro st st' h
    rw [(heedless_execute limits depth site st).failed_run_iff,
      (heedless_execute limits depth site' st').failed_run_iff, h]
  refine ⟨fun target op binary e line line' l l' hop he => ⟨?_, fun hcond => ?_⟩,
    fun hp e he => ?_, fun name op line line' l => ⟨?_, ?_⟩⟩
  · exact sameValues_compound depth hm hop he site site' line line' l l'
  · have hreports := reportsError_compound depth hm hop he site site' line line' l l' hcond
    exact ⟨hreports, hfailed _ _ hreports⟩
  · exact not_silent_evaluate limits depth (hm.regular hp) he
  · exact sameValues_step limits depth name op site site' line line' l m
  · have hreports := reportsError_step limits depth name op site site' line line' l m
    exact ⟨hreports, hfailed _ _ hreports⟩

/-- The second element of a full tray is increased by twice itself, in either form; a step of the
whole tray is reported, as is the addition of one to it. -/
theorem compound_agrees_tray :
    let m := trayProgram.run .standard (.ofAnswers [])
    let here : Site := ⟨.entry, [1]⟩
    let there : Site := ⟨.entry, [2]⟩
    let target : Place := .element "tray" 1
    let twice : Expr := .binary .mul (.element "tray" 1 4) (.literal (.pinch 2) 4) 4
    let x := execute .standard (invoke .standard 3) here (.assign target .add twice 4)
    let y := execute .standard (invoke .standard 3) there
      (.assign target .assign (.binary .add (target.expr 5) twice 5) 5)
    let step := execute .standard (invoke .standard 3) here (.step "tray" .increment 6)
    (x.run m).2.scopes.SameValues (y.run m).2.scopes ∧ (x.ReportsError m ↔ y.ReportsError m) ∧
      (x.run m).2.scopes.value? 0 "tray" = some (.recipe [.pinch 0, .pinch 21]) ∧
      ¬(evaluate .standard (invoke .standard 3) twice).Silent m ∧
      (step.ReportsError m ↔ (execute .standard (invoke .standard 3) there
        (.assign (.var "tray") .add (.literal (.pinch 1) 7) 7)).ReportsError m) ∧
      step.ReportsError m := by
  intro m here there target twice x y step
  obtain ⟨hcompound, hsilent, hsteps⟩ := compound_agrees .standard trayProgram (.ofAnswers []) m
    (trayProgram.reaches_run _ _) 3 here there
  have hboth := hcompound target .add .add twice 4 5 5 5 rfl rfl
  have htwice := hsilent regular_trayProgram twice
    (by simp [twice, Expr.words, Word.Regular, Literal.toValue, Value.Regular])
  have hstep := hsteps "tray" .increment 6 7 7
  exact ⟨hboth.1, (hboth.2 (.inl rfl)).1, rfl, htwice, hstep.2.1, rfl⟩

/-- The comparison with what is not a number is added to a variable without a value: the short form
reports nothing, and its expansion that the variable has no value. -/
theorem silent_compound :
    let m := unsetProgram.run .standard (.ofAnswers [])
    let target : Place := .var "n"
    let x := execute .standard (invoke .standard 3) ⟨.entry, [1]⟩
      (.assign target .add nanBelowZero 2)
    let y := execute .standard (invoke .standard 3) ⟨.entry, [2]⟩
      (.assign target .assign (.binary .add (target.expr 2) nanBelowZero 2) 2)
    unsetProgram.Reaches .standard (.ofAnswers []) m ∧ nanBelowZero.callFree = true ∧
      m.scopes.view "n" = some ⟨"n", .scalar .pinch, none, false, 1⟩ ∧
      ¬x.ReportsError m ∧ y.ReportsError m := by
  intro m target x y
  exact ⟨unsetProgram.reaches_run _ _, rfl, rfl, nofun, rfl⟩

end Exec

end Bistro
