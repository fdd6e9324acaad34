import Bistro.Proofs.Exec.Balanced
import Bistro.Proofs.Scope.Values

/-!
# Steps that only look

An expression without calls looks names up and reports findings, and it does nothing else.  What it
gives, which names it looks up and what it reports is decided by what the names resolve to; marks of
use and earlier findings make no difference.  So evaluating it a second time gives the same again,
and since marks are left once and a finding is recorded once at a site, nothing changes any more.

## Main definitions

* `Expr.callFree` — an expression without calls.
* `Diagnostics.pushAll` — a row of findings is recorded.
* `Machine.noted` — names are looked up and findings recorded.
* `Exec.Glances` — a step that only looks.
* `Exec.Decides` — a step that gives a result or rejects, whatever the state.
* `Machine.OnlyLooked` — all but marks and findings is the same.

## Main results

* `Machine.noted_noted` — to note the same things again changes nothing.
* `Exec.decides_arithmetic`, `Exec.decides_applyBinary` — operators.
* `Exec.glances_evaluate` — expressions without calls only look.
* `Exec.evaluate_repeatable` — **evaluating an expression without calls changes nothing but marks
  and findings, and a second time nothing at all.**
-/

namespace Bistro

/-- Whether an expression has no calls in it. -/
def Expr.callFree : Expr → Bool
  | .literal _ _ | .var _ _ | .element _ _ _ => true
  | .call _ _ _ => false
  | .binary _ left right _ => left.callFree && right.callFree
  | .not operand _ | .doubleNot operand _ => operand.callFree

/-! ### Rows of findings -/

namespace Diagnostics

variable {σ : Type} [DecidableEq σ] {ds : List Diagnostic} {all : Diagnostics σ}

/-- Records a row of findings for the present site. -/
def pushAll (ds : List Diagnostic) (all : Diagnostics σ) : Diagnostics σ :=
  ds.foldl (fun all d => all.push d) all

theorem pushAll_append (ds more : List Diagnostic) (all : Diagnostics σ) :
    all.pushAll (ds ++ more) = (all.pushAll ds).pushAll more := List.foldl_append

theorem site_pushAll (ds : List Diagnostic) (all : Diagnostics σ) :
    (all.pushAll ds).site = all.site := by
  induction ds generalizing all with
  | nil => rfl
  | cons d ds ih => exact (ih _).trans (site_record _ d all)

/-- New records come before the old ones, and none of these is lost. -/
theorem exists_records_pushAll (ds : List Diagnostic) (all : Diagnostics σ) :
    ∃ new, (all.pushAll ds).records = new ++ all.records := by
  induction ds generalizing all with
  | nil => exact ⟨[], rfl⟩
  | cons d ds ih =>
    obtain ⟨new, hnew⟩ := ih (all.push d)
    refine ⟨?_, hnew.trans ?_⟩
    · exact new ++ if (d, some all.site) ∈ all.records then [] else [(d, some all.site)]
    · unfold push record
      split <;> simp

theorem mem_records_push (d : Diagnostic) (all : Diagnostics σ) :
    (d, some all.site) ∈ (all.push d).records := by
  unfold push record
  split
  · assumption
  · exact List.mem_cons_self

theorem mem_records_pushAll {d : Diagnostic} (hd : d ∈ ds) (all : Diagnostics σ) :
    (d, some all.site) ∈ (all.pushAll ds).records := by
  induction ds generalizing all with
  | nil => cases hd
  | cons first ds ih =>
    rcases List.mem_cons.1 hd with rfl | hd
    · obtain ⟨new, hnew⟩ := exists_records_pushAll ds (all.push d)
      show _ ∈ ((all.push d).pushAll ds).records
      rw [hnew]
      exact List.mem_append_right new (mem_records_push d all)
    · have hrest := ih hd (all.push first)
      rwa [push, site_record] at hrest

/-- What was recorded at the present site is not recorded again. -/
theorem pushAll_eq_self (h : ∀ d ∈ ds, (d, some all.site) ∈ all.records) :
    all.pushAll ds = all := by
  induction ds with
  | nil => rfl
  | cons d ds ih =>
    rw [List.forall_mem_cons] at h
    have hsame : all.push d = all := if_pos h.1
    show (all.push d).pushAll ds = all
    rw [hsame, ih h.2]

theorem pushAll_pushAll (ds : List Diagnostic) (all : Diagnostics σ) :
    (all.pushAll ds).pushAll ds = all.pushAll ds := by
  refine pushAll_eq_self fun d hd => ?_
  rw [site_pushAll]
  exact mem_records_pushAll hd all

end Diagnostics

/-! ### Steps that only look -/

/-- The state after some names were looked up and some findings recorded. -/
def Machine.noted (m : Machine) (names : List String) (findings : List Diagnostic) : Machine :=
  { m with scopes := m.scopes.mark names, diagnostics := m.diagnostics.pushAll findings }

namespace Machine

theorem view_noted (m : Machine) (names : List String) (findings : List Diagnostic) :
    (m.noted names findings).scopes.view = m.scopes.view :=
  (ScopeStack.sameValues_mark names m.scopes).view

theorem noted_append (m : Machine) (names names' : List String) (ds ds' : List Diagnostic) :
    (m.noted names ds).noted names' ds' = m.noted (names ++ names') (ds ++ ds') := by
  simp only [noted, ScopeStack.mark_append, Diagnostics.pushAll_append]

/-- To note the same things again changes nothing. -/
theorem noted_noted (m : Machine) (names : List String) (findings : List Diagnostic) :
    (m.noted names findings).noted names findings = m.noted names findings := by
  simp only [noted, ScopeStack.mark_mark, Diagnostics.pushAll_pushAll]

end Machine

namespace Exec

variable {α β : Type}

/-- What a look comes to. -/
structure Glance (α : Type) where
  /-- What it gives. -/
  value : α
  /-- The names that are looked up. -/
  names : List String
  /-- What is reported. -/
  findings : List Diagnostic

/-- A step that only looks: what it gives, looks up and reports is decided by what the names resolve
to, and it does nothing else. -/
def Glances (x : Exec α) : Prop :=
  ∃ look : (String → Option Binding) → Glance α, ∀ m, x.run m =
    ((look m.scopes.view).value,
      m.noted (look m.scopes.view).names (look m.scopes.view).findings)

theorem Glances.pure (a : α) : Glances (pure a : Exec α) := ⟨fun _ => ⟨a, [], []⟩, fun _ => rfl⟩

theorem Glances.bind {x : Exec α} {f : α → Exec β} (hx : Glances x) (hf : ∀ a, Glances (f a)) :
    Glances (x >>= f) := by
  obtain ⟨look, hlook⟩ := hx
  have hnext := fun a => (hf a).choose_spec
  refine ⟨fun view =>
    let first := look view
    let second := (hf first.value).choose view
    ⟨second.value, first.names ++ second.names, first.findings ++ second.findings⟩, fun m => ?_⟩
  rw [run_bind, hlook, hnext, Machine.view_noted, Machine.noted_append]

theorem run_lookup_eq (name : String) (m : Machine) :
    (lookup name).run m = ((m.scopes.view name).map Binding.marked, m.noted [name] []) := by
  refine Prod.ext ?_ rfl
  rw [ScopeStack.view, Option.map_map]
  exact ScopeStack.peek?_adjust Binding.marked name m.scopes

theorem Glances.lookup (name : String) : Glances (lookup name) :=
  ⟨fun view => ⟨(view name).map Binding.marked, [name], []⟩, run_lookup_eq name⟩

/-- A step that only looks gives the same a second time, and then changes nothing. -/
theorem Glances.repeatable {x : Exec α} (hx : Glances x) (m : Machine) :
    x.run (x.run m).2 = x.run m := by
  obtain ⟨look, hlook⟩ := hx
  rw [hlook m, hlook, Machine.view_noted, Machine.noted_noted]

/-! ### Steps that give a result or reject -/

/-- A step that gives a good result, whatever the state, or one that rejects. -/
def Decides (good : Option α → Prop) (x : Exec (Option α)) : Prop :=
  (∃ r, good r ∧ ∀ m, x.run m = (r, m)) ∨
  ∃ f line, f.kind.severity = .error ∧ ∀ m, x.run m = (none, ((report f line).run m).2)

variable {good good' : Option α → Prop} {x : Exec (Option α)}

theorem Decides.result {r : Option α} (hr : good r) : Decides good (Pure.pure r) :=
  .inl ⟨r, hr, fun _ => rfl⟩

theorem Decides.reject {f : Finding} (hf : f.kind.severity = .error) (line : Nat) :
    Decides good (reject f line) :=
  .inr ⟨f, line, hf, fun _ => rfl⟩

theorem Decides.mono (h : Decides good x) (hgood : ∀ r, good r → good' r) : Decides good' x :=
  h.imp_left fun ⟨r, hr, hrun⟩ => ⟨r, hgood r hr, hrun⟩

theorem Decides.map (h : Decides good x) (g : α → β) :
    Decides (fun _ => True) (x >>= fun r => return r.map g) := by
  rcases h with ⟨r, -, hrun⟩ | ⟨f, line, hf, hrun⟩
  · exact .inl ⟨r.map g, trivial, fun m => by rw [run_bind, hrun]; rfl⟩
  · exact .inr ⟨f, line, hf, fun m => by rw [run_bind, hrun]; rfl⟩

theorem Decides.glances (h : Decides (fun _ => True) x) : Glances x := by
  rcases h with ⟨r, -, hrun⟩ | ⟨f, line, -, hrun⟩
  · exact ⟨fun _ => ⟨r, [], []⟩, hrun⟩
  · exact ⟨fun _ => ⟨none, [], [f.onLine line]⟩, hrun⟩

/-! ### Operators -/

theorem decides_integerArithmetic (limits : Limits) (op : BinaryOp) (a b : Int) (line : Nat) :
    Decides (·.isSome) (integerArithmetic limits op a b line) := by
  unfold integerArithmetic
  split
  · exact .reject rfl line
  · split
    · exact .reject rfl line
    · split
      · exact .result rfl
      · exact .reject rfl line

theorem decides_fractionArithmetic (op : BinaryOp) (x y : Binary64) (line : Nat) :
    Decides (·.isSome) (fractionArithmetic op x y line) := by
  unfold fractionArithmetic
  split
  · exact .reject rfl line
  · split
    · exact .result rfl
    · exact .reject rfl line

theorem decides_arithmetic (limits : Limits) (op : BinaryOp) (left right : Value) (line : Nat) :
    Decides (·.isSome) (arithmetic limits op left right line) := by
  unfold arithmetic
  split
  · split
    · exact .result rfl
    · exact .reject rfl line
  · exact decides_integerArithmetic _ _ _ _ _
  · split
    · exact decides_fractionArithmetic _ _ _ _
    · exact .reject rfl line

theorem decides_equality (op : BinaryOp) (left right : Value) (line : Nat) :
    Decides (fun _ => True) (equality op left right line) := by
  unfold equality
  split
  · exact .result trivial
  · split
    · exact .result trivial
    · split
      · exact .result trivial
      · exact .reject rfl line

theorem decides_order (op : BinaryOp) (left right : Value) (line : Nat) :
    Decides (fun _ => True) (order op left right line) := by
  unfold order
  split
  · exact .result trivial
  · exact .result trivial
  · split
    · exact .result trivial
    · exact .reject rfl line

theorem decides_applyBinary (limits : Limits) (op : BinaryOp) (left right : Value) (line : Nat) :
    Decides (fun _ => True) (applyBinary limits op left right line) := by
  have hequality := decides_equality op left right line
  have horder := decides_order op left right line
  unfold applyBinary
  cases op with
  | add | sub | mul | div | mod => exact (decides_arithmetic _ _ _ _ _).mono fun _ _ => trivial
  | equal | notEqual => exact hequality.map _
  | less | greater | lessEqual | greaterEqual => exact horder.map _
  | both | either =>
    dsimp only
    split
    · exact .result trivial
    · exact .reject rfl line

theorem decides_applyBinary? (limits : Limits) (op : BinaryOp) (left right : Option Value)
    (line : Nat) : Decides (fun _ => True) (applyBinary? limits op left right line) := by
  unfold applyBinary?
  split
  · exact decides_applyBinary _ _ _ _ _
  · exact .result trivial

theorem decides_applyNegation (symbol : String) (f : Bool → Bool) (v : Option Value) (line : Nat) :
    Decides (fun _ => True) (applyNegation symbol f v line) := by
  unfold applyNegation
  split
  · exact .result trivial
  · exact .result trivial
  · exact .reject rfl line

/-! ### Expressions -/

theorem glances_readVariable (name : String) (line : Nat) : Glances (readVariable name line) := by
  refine (Glances.lookup name).bind fun r => Decides.glances ?_
  cases r with
  | none => exact .reject rfl line
  | some b =>
    dsimp only
    split
    · exact .reject rfl line
    · split
      · exact .result trivial
      · exact .reject rfl line

theorem glances_readElement (name : String) (index : Int) (line : Nat) :
    Glances (readElement name index line) := by
  refine (Glances.lookup name).bind fun r => Decides.glances ?_
  cases r with
  | none => exact .reject rfl line
  | some b =>
    dsimp only
    split
    · split
      · exact .result trivial
      · exact .reject rfl line
    · exact .reject rfl line

/-- Expressions without calls only look. -/
theorem glances_evaluate (limits : Limits) (call : Call) (e : Expr) (he : e.callFree = true) :
    Glances (evaluate limits call e) := by
  match e with
  | .literal v line => exact .pure _
  | .var name line => exact glances_readVariable name line
  | .element name index line => exact glances_readElement name index line
  | .call name args line => cases he
  | .binary op left right line =>
    rw [Expr.callFree, Bool.and_eq_true] at he
    refine (glances_evaluate limits call left he.1).bind fun l => ?_
    refine (glances_evaluate limits call right he.2).bind fun r => ?_
    exact (decides_applyBinary? limits op l r line).glances
  | .not operand line =>
    exact (glances_evaluate limits call operand he).bind fun v =>
      (decides_applyNegation _ _ v line).glances
  | .doubleNot operand line =>
    exact (glances_evaluate limits call operand he).bind fun v =>
      (decides_applyNegation _ _ v line).glances

end Exec

/-! ### Evaluating twice -/

/-- All but marks of use and findings is the same: the scopes with their declarations, all values,
the output, the input, the number of calls and the site.  No finding is lost. -/
structure Machine.OnlyLooked (m n : Machine) : Prop where
  scopes : m.scopes.SameValues n.scopes
  output : n.output = m.output
  input : n.input = m.input
  callDepth : n.callDepth = m.callDepth
  site : n.diagnostics.site = m.diagnostics.site
  records : ∃ new, n.diagnostics.records = new ++ m.diagnostics.records

theorem Machine.onlyLooked_noted (m : Machine) (names : List String) (findings : List Diagnostic) :
    m.OnlyLooked (m.noted names findings) :=
  ⟨ScopeStack.sameValues_mark names m.scopes, rfl, rfl, rfl,
    Diagnostics.site_pushAll findings m.diagnostics,
    Diagnostics.exists_records_pushAll findings m.diagnostics⟩

theorem Exec.Glances.onlyLooked {α : Type} {x : Exec α} (hx : Glances x) (m : Machine) :
    m.OnlyLooked (x.run m).2 := by
  obtain ⟨look, hlook⟩ := hx
  rw [hlook m]
  exact m.onlyLooked_noted _ _

namespace Exec

/-- **Evaluating an expression without calls is pure and repeatable.**  From every state it changes
no value, no declaration, no scope, neither output nor input, and no number of calls; it leaves
marks of use and findings.  Evaluating it again from there, at the same site, gives the same result
and leaves the whole state as it is, with all marks and findings. -/
theorem evaluate_repeatable (limits : Limits) (call : Call) (e : Expr) (he : e.callFree = true)
    (m : Machine) :
    let r := (evaluate limits call e).run m
    m.OnlyLooked r.2 ∧ (evaluate limits call e).run r.2 = r := by
  have hglances := glances_evaluate limits call e he
  exact ⟨hglances.onlyLooked m, hglances.repeatable m⟩

/-- After a tray of two was filled, its third element and an unknown name are added: two errors are
found, and no more when this is evaluated again. -/
theorem evaluate_repeatable_tray :
    let m := trayProgram.run .standard (.ofAnswers [])
    let e : Expr := .binary .add (.element "tray" 2 4) (.var "bowl" 4) 4
    let x := evaluate .standard (invoke .standard 3) e
    e.callFree = true ∧ (x.run m).1 = none ∧ (x.run m).2.diagnostics.records.length = 2 ∧
      m.OnlyLooked (x.run m).2 ∧ x.run (x.run m).2 = x.run m := by
  intro m e x
  exact ⟨rfl, rfl, rfl, evaluate_repeatable .standard (invoke .standard 3) e rfl m⟩

end Exec

end Bistro
