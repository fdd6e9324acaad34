import Bistro.Proofs.Exec.Balanced

/-!
# Wider limits change no run without errors

Where a limit is reached, an error is reported, and an error that was recorded stays.  So a run that
ends without errors has met no limit on its way, and under wider limits it goes the same way to the
same end.

## Main definitions

* `Limits.Within` — limits that permit no more than others.
* `Machine.Clean` — no error is recorded.
* `Exec.Follows` — a step that does what another one does whenever that one ends without errors.

## Main results

* `Diagnostics.hasErrors_record` — recorded errors stay.
* `Exec.follows_congruence` — all steps under wider limits follow those under narrower ones.
* `Exec.follows_invoke` — calls that may be nested deeper follow the others.
* `Exec.run_of_wider_limits` — **wider limits change no run without errors.**
-/

namespace Bistro

/-- Limits that permit no more than others do: for loops, calls, arrays, integers and the result of
the entry point. -/
structure Limits.Within (limits limits' : Limits) : Prop where
  loops : limits.maxLoopIterations ≤ limits'.maxLoopIterations
  calls : limits.maxCallDepth ≤ limits'.maxCallDepth
  arrays : limits.maxArrayLength ≤ limits'.maxArrayLength
  integers : ∀ n, limits.integerRange.contains n = true → limits'.integerRange.contains n = true
  exitCodes : ∀ code ∈ limits.acceptedExitCodes, code ∈ limits'.acceptedExitCodes

/-! ### Recorded errors stay -/

/-- There is an error behind a record if there was one before or a new one is recorded. -/
theorem Diagnostics.hasErrors_record {σ : Type} [DecidableEq σ] (key : Option σ) (d : Diagnostic)
    (ds : Diagnostics σ) : (ds.record key d).hasErrors = (ds.hasErrors || d.isError) := by
  unfold Diagnostics.record
  split
  · next hmem =>
    -- a diagnostic that is dropped was recorded before
    cases hd : d.isError with
    | false => rw [Bool.or_false]
    | true =>
      rw [Bool.or_true]
      exact List.any_eq_true.2 ⟨(d, key), hmem, hd⟩
  · simp only [Diagnostics.hasErrors, List.any_cons, Bool.or_comm]

/-- No error is recorded. -/
def Machine.Clean (m : Machine) : Prop := m.diagnostics.hasErrors = false

namespace Exec

open Machine (Clean)

variable {α β : Type} {x x' y : Exec α} {limits limits' : Limits}

theorem clean_report {f : Finding} {line : Nat} {m : Machine}
    (h : ((report f line).run m).2.Clean) : m.Clean ∧ (f.onLine line).isError = false := by
  have hrecord := Diagnostics.hasErrors_record (some m.diagnostics.site) (f.onLine line)
    m.diagnostics
  have hor : (m.diagnostics.hasErrors || (f.onLine line).isError) = false := hrecord.symm.trans h
  exact Bool.or_eq_false_iff.1 hor

theorem clean_warn {scope : Scope} {ds : Diagnostics Site}
    (h : (scope.warn ds).hasErrors = false) : ds.hasErrors = false := by
  unfold Scope.warn at h
  split at h
  · exact h
  · generalize scope.unused = unused at h
    induction unused generalizing ds with
    | nil => exact h
    | cons b bs ih =>
      have hrecord := Diagnostics.hasErrors_record none
        ((Finding.unusedVariable b.name).onLine b.line) ds
      have hor := hrecord.symm.trans (ih h)
      exact (Bool.or_eq_false_iff.1 hor).1

/-! ### Following -/

/-- Whenever a step ends without errors, it began without, and the other step does the same. -/
def Follows (x x' : Exec α) : Prop := ∀ m, (x.run m).2.Clean → m.Clean ∧ x'.run m = x.run m

theorem Follows.pure (a : α) : Follows (pure a) (pure a) := fun _ hm => ⟨hm, rfl⟩

theorem Follows.bind {f f' : α → Exec β} (hx : Follows x x') (hf : ∀ a, Follows (f a) (f' a)) :
    Follows (x >>= f) (x' >>= f') := by
  intro m hend
  obtain ⟨hmid, hsecond⟩ := hf _ _ hend
  obtain ⟨hm, hfirst⟩ := hx m hmid
  refine ⟨hm, ?_⟩
  rw [run_bind, run_bind, hfirst, hsecond]

/-- A step that does not touch the findings. -/
theorem Follows.modifyGet {f : Machine → α × Machine}
    (hf : ∀ m, (f m).2.diagnostics.hasErrors = m.diagnostics.hasErrors) :
    Follows (modifyGet f) (modifyGet f) :=
  fun m hend => ⟨(hf m).symm.trans hend, rfl⟩

theorem Follows.report (f : Finding) (line : Nat) : Follows (report f line) (report f line) :=
  fun _ hend => ⟨(clean_report hend).1, rfl⟩

/-- Behind an error anything follows, as there is no end without errors. -/
theorem Follows.of_error {f : Finding} (hf : f.kind.severity = .error) (line : Nat)
    {g g' : Unit → Exec α} (hg : ∀ a, Follows (g a) (g' a)) (y : Exec α) :
    Follows (Exec.report f line >>= g) y := by
  intro m hend
  obtain ⟨hreported, -⟩ := hg _ _ hend
  have hno := (clean_report hreported).2
  have hyes : (f.onLine line).isError = true := decide_eq_true hf
  rw [hyes] at hno
  cases hno

theorem Follows.of_reject {f : Finding} (hf : f.kind.severity = .error) (line : Nat)
    (y : Exec (Option α)) : Follows (reject f line) y :=
  .of_error hf line (fun _ => .pure none) y

theorem Follows.of_report {f : Finding} (hf : f.kind.severity = .error) (line : Nat)
    (y : Exec Unit) : Follows (Exec.report f line) y :=
  fun m hend => Follows.of_error hf line (fun _ => .pure ()) y m hend

theorem Follows.declare (b : Binding) : Follows (declare b) (declare b) := by
  intro m hend
  rw [run_declare] at hend
  refine ⟨?_, rfl⟩
  cases hd : m.scopes.declare b with
  | ok scopes =>
    rw [hd] at hend
    exact hend
  | error e =>
    rw [hd] at hend
    exact (clean_report hend).1

theorem Follows.atSite (hx : Follows x x') (site : Site) :
    Follows (atSite site x) (atSite site x') := by
  intro m hend
  obtain ⟨hm, hstep⟩ := hx { m with diagnostics := m.diagnostics.enter site } hend
  refine ⟨hm, ?_⟩
  rw [run_atSite, run_atSite, hstep]

/-- Closing a scope adds warnings only. -/
theorem clean_closeScope {m : Machine} (h : (closeScope.run m).2.Clean) : m.Clean := by
  cases hinner : m.scopes.inner with
  | cons scope outer =>
    rw [run_closeScope hinner] at h
    exact clean_warn h
  | nil =>
    rw [run_closeScope_nil hinner] at h
    exact h

theorem Follows.closeScope : Follows closeScope closeScope := fun _ hend =>
  ⟨clean_closeScope hend, rfl⟩

theorem Follows.inScope (hx : Follows x x') (opened : ScopeStack → ScopeStack) :
    Follows (inScope opened x) (inScope opened x') :=
  (Follows.modifyGet fun _ => rfl).bind fun _ => hx.bind fun a =>
    Follows.closeScope.bind fun _ => .pure a

theorem Follows.inCall (hx : Follows x x') : Follows (inCall x) (inCall x') := by
  refine (Follows.modifyGet fun _ => rfl).bind fun _ => hx.bind fun a => ?_
  refine Follows.bind (fun m hend => ?_) fun _ => .pure a
  exact ⟨clean_closeScope hend, rfl⟩

/-- Every step follows itself. -/
theorem follows_primitive : Primitive (fun _ => Follows) (fun _ => Follows) where
  pure a := .pure a
  bind hx hf := hx.bind hf
  row hx hf := hx.bind hf
  loosen hx := hx
  report f line := .report f line
  lookup _ := .modifyGet fun _ => rfl
  adjust _ _ := .modifyGet fun _ => rfl
  serve _ _ := .modifyGet fun _ => rfl
  ask _ := .modifyGet fun _ => rfl
  declare b := .declare b
  atSite site hx := hx.atSite site
  rowAtSite site hx := hx.atSite site
  inScope _ hx := hx.inScope _

/-! ### Where limits are looked at -/

theorem follows_integerArithmetic (h : limits.Within limits') (op : BinaryOp) (a b : Int)
    (line : Nat) :
    Follows (integerArithmetic limits op a b line) (integerArithmetic limits' op a b line) := by
  unfold integerArithmetic
  split
  · exact follows_primitive.reject _ _
  · cases integerResult op a b with
    | none => exact follows_primitive.reject _ _
    | some n =>
      cases hn : limits.integerRange.contains n with
      | true =>
        simp only [hn, h.integers n hn, if_true]
        exact .pure _
      | false =>
        simp only [hn, Bool.false_eq_true, if_false]
        exact .of_reject rfl line _

theorem readInput?_of_within (h : limits.Within limits') {type : ValueType} {text : String}
    {v : Value} (hv : readInput? type text limits.integerRange = some v) :
    readInput? type text limits'.integerRange = some v := by
  cases type with
  | pinch =>
    simp only [readInput?] at hv ⊢
    obtain ⟨n, hn, rfl⟩ := Option.map_eq_some_iff.1 hv
    obtain ⟨hread, hrange⟩ := Option.filter_eq_some_iff.1 hn
    have hn' : (Number.readInteger? (Text.trim text)).filter limits'.integerRange.contains =
        some n := Option.filter_eq_some_iff.2 ⟨hread, h.integers n hrange⟩
    rw [hn', Option.map_some]
  | skim => exact hv
  | pasta => exact hv
  | bool => exact hv
  | recipe => exact hv

theorem follows_readInput (h : limits.Within limits') (name : String) (line : Nat) :
    Follows (readInput limits name line) (readInput limits' name line) := by
  refine Follows.bind (follows_primitive.lookup name) fun r => ?_
  cases r with
  | none => exact .report _ _
  | some b =>
    dsimp only
    split
    · next type _ =>
      refine Follows.bind (follows_primitive.ask name) fun r => ?_
      cases r with
      | none => exact .report _ _
      | some text =>
        dsimp only
        cases hv : readInput? type text limits.integerRange with
        | some v =>
          simp only [readInput?_of_within h hv]
          exact follows_primitive.store _ _
        | none => exact .of_report rfl line _
    · exact .report _ _

theorem arrayLength?_of_within (h : limits.Within limits') {dimension : String} {n : Nat}
    (hn : arrayLength? limits dimension = some n) : arrayLength? limits' dimension = some n := by
  have harrays := h.arrays
  unfold arrayLength? at hn ⊢
  split at hn
  · next k _ =>
    split at hn
    · next hk =>
      have hk' : (decide (1 ≤ k) && decide (k ≤ (limits'.maxArrayLength : Int))) = true := by
        simp only [Bool.and_eq_true, decide_eq_true_eq] at hk ⊢
        omega
      rw [if_pos hk']
      exact hn
    · cases hn
  · cases hn

theorem follows_declareArray (h : limits.Within limits') (a : ArrayDeclaration) :
    Follows (declareArray limits a) (declareArray limits' a) := by
  have hself := follows_primitive.declareArray limits a
  unfold declareArray at hself ⊢
  dsimp only at hself ⊢
  cases hn : arrayLength? limits a.dimension with
  | none => exact .of_error rfl _ (fun _ => .declare _) _
  | some n =>
    rw [hn] at hself
    rw [arrayLength?_of_within h hn]
    exact hself

/-- A loop that ends without errors has not used up its passes. -/
theorem Follows.repeatWhile {test test' pass pass' : Exec Bool} (htest : Follows test test')
    (hpass : Follows pass pass') {f : Finding} (hf : f.kind.severity = .error) (line : Nat)
    (stopped' : Exec Unit) {passes passes' : Nat} (hle : passes ≤ passes') :
    Follows (repeatWhile test pass (Exec.report f line) passes)
      (repeatWhile test' pass' stopped' passes') := by
  induction passes generalizing passes' with
  | zero =>
    -- no pass is left, so the test fails or the loop is stopped
    have hlast : ∀ more : Exec Unit, Follows
        (test >>= fun b => if b = true then Exec.report f line else Pure.pure ())
        (test' >>= fun b => if b = true then more else Pure.pure ()) := by
      intro more
      refine htest.bind fun b => ?_
      cases b with
      | false => exact .pure _
      | true => exact .of_report hf line _
    cases passes' with
    | zero => exact hlast _
    | succ passes' => exact hlast _
  | succ passes ih =>
    obtain ⟨more, rfl⟩ : ∃ more, passes' = more + 1 := ⟨passes' - 1, by omega⟩
    refine htest.bind fun b => ?_
    cases b with
    | false => exact .pure _
    | true =>
      refine hpass.bind fun goesOn => ?_
      cases goesOn with
      | false => exact .pure _
      | true => exact ih (by omega)

theorem Follows.repeatUntil {pass pass' : Exec Unit} {test test' : Exec Bool}
    (hpass : Follows pass pass') (htest : Follows test test') {f : Finding}
    (hf : f.kind.severity = .error) (line : Nat) (stopped' : Exec Unit) {passes passes' : Nat}
    (hle : passes ≤ passes') :
    Follows (repeatUntil pass test (Exec.report f line) passes)
      (repeatUntil pass' test' stopped' passes') := by
  induction passes generalizing passes' with
  | zero => exact .of_report hf line _
  | succ passes ih =>
    obtain ⟨more, rfl⟩ : ∃ more, passes' = more + 1 := ⟨passes' - 1, by omega⟩
    refine hpass.bind fun _ => htest.bind fun b => ?_
    cases b with
    | false => exact .pure _
    | true => exact ih (by omega)

/-- All steps under wider limits follow those under narrower ones. -/
theorem follows_congruence (h : limits.Within limits') :
    Congruence limits limits' (fun _ => Follows) (fun _ => Follows) where
  toPrimitive := follows_primitive
  integerArithmetic := follows_integerArithmetic h
  readInput := follows_readInput h
  declareArray := follows_declareArray h
  repeatWhile _ line htest hpass := htest.repeatWhile hpass rfl line _ h.loops
  repeatUntil _ line hpass htest := hpass.repeatUntil htest rfl line _ h.loops

/-- Calls that may be nested deeper follow the others. -/
theorem follows_invoke (h : limits.Within limits') {depth depth' : Nat} (hle : depth ≤ depth') :
    CallsAlike (fun _ => Follows) (invoke limits depth) (invoke limits' depth') := by
  induction depth generalizing depth' with
  | zero =>
    intro f line args
    unfold invoke
    split
    · exact follows_primitive.reject _ _
    · split
      · exact .pure _
      · exact .of_reject rfl line _
  | succ depth ih =>
    obtain ⟨more, rfl⟩ : ∃ more, depth' = more + 1 := ⟨depth' - 1, by omega⟩
    intro f line args
    unfold invoke
    split
    · exact follows_primitive.reject _ _
    · split
      · exact .pure _
      · refine Follows.bind (follows_primitive.checkArguments f line 1 _ _) fun checked => ?_
        split
        · exact .pure _
        · exact (follows_congruence h).runBody (ih (by omega)) (fun _ _ hx => hx.inCall) f _

/-! ### Runs -/

theorem follows_declareFunction (f : Function) :
    Follows (declareFunction f) (declareFunction f) := by
  intro m hend
  refine ⟨?_, rfl⟩
  rw [run_declareFunction] at hend
  cases hd : m.scopes.declareGlobal (.function f) with
  | ok scopes =>
    rw [hd] at hend
    exact hend
  | error e =>
    rw [hd] at hend
    exact (clean_report hend).1

theorem follows_checkExit (h : limits.Within limits') (code : Int) (line : Nat) :
    Follows (checkExit limits code line) (checkExit limits' code line) := by
  unfold checkExit
  by_cases hcode : code ∈ limits.acceptedExitCodes
  · rw [if_pos hcode, if_pos (h.exitCodes code hcode)]
    exact .pure _
  · rw [if_neg hcode]
    exact .of_report rfl line _

theorem follows_runProgram (h : limits.Within limits') (p : Program) :
    Follows (runProgram limits p) (runProgram limits' p) := by
  have hsteps := follows_congruence h
  refine Follows.bind (hsteps.declareAll _ 0 p.globals) fun _ => ?_
  refine Follows.bind (hsteps.forM follows_declareFunction p.functions) fun _ => ?_
  refine Follows.bind (.modifyGet fun _ => rfl) fun _ => ?_
  refine Follows.bind (hsteps.declareAll _ 0 p.locals) fun _ => ?_
  refine Follows.bind (hsteps.executeAll (follows_invoke h h.calls) _ 0 p.body) fun _ => ?_
  exact follows_checkExit h _ _

/-- **Wider limits change no run without errors.**  If a run under some limits ends without errors,
then under any wider limits it ends in the same state: with the same warnings, the same output, the
same requests for input and the same values. -/
theorem run_of_wider_limits (limits limits' : Limits) (hlimits : limits.Within limits')
    (p : Program) (input : Input)
    (hclean : (p.run limits input).diagnostics.hasErrors = false) :
    p.run limits' input = p.run limits input := by
  obtain ⟨-, hrun⟩ := follows_runProgram hlimits p (.initial input) hclean
  unfold Program.run
  rw [hrun]

/-- A program that asks for a number, and serves it twice with another added by a function.  The
function has a variable that it does not use. -/
def orderProgram : Program where
  globals := [.array ⟨.pinch, "menu", "2", some [.pinch 1, .pinch 2], 1⟩]
  functions := [⟨"portion", some .pinch, [⟨.pinch, "n", 2⟩],
    [.variables .pinch [⟨"idle", some (.pinch 0), 3⟩]], [],
    some (.binary .add (.var "n" 4) (.element "menu" 1 4) 4), 2⟩]
  locals := [.variables .pinch [⟨"guests", none, 6⟩]]
  body := [.make "guests" 7,
    .forLoop true "i" (.literal (.pinch 0) 8)
      (.binary .less (.var "i" 8) (.literal (.pinch 2) 8) 8) "i" .increment
      [.serve [.call "portion" [.var "guests" 9] 9] 9] 8]
  exitCode := 0
  exitLine := 11

/-- Limits that `orderProgram` can just keep to when it is given the number 3. -/
def tightLimits : Limits where
  maxLoopIterations := 2
  maxCallDepth := 1
  acceptedExitCodes := [0]
  integerRange := ⟨1, 5⟩
  maxRecoveryAttempts := 0
  maxSyntaxErrors := 0
  maxArrayLength := 2

theorem run_of_wider_limits_order :
    tightLimits.Within .standard ∧
      (orderProgram.run tightLimits (.ofAnswers ["3"])).diagnostics.hasErrors = false ∧
      orderProgram.run .standard (.ofAnswers ["3"]) =
        orderProgram.run tightLimits (.ofAnswers ["3"]) := by
  have hlimits : tightLimits.Within .standard := by
    refine ⟨by decide, by decide, by decide, fun n hn => ?_, fun _ hcode => hcode⟩
    obtain ⟨hlow, hhigh⟩ := Bool.and_eq_true_iff.1 hn
    have hlow : (1 : Int) ≤ n := of_decide_eq_true hlow
    have hhigh : n ≤ (5 : Int) := of_decide_eq_true hhigh
    have hwide : -999999999 ≤ n ∧ n ≤ 999999999 := by omega
    exact Bool.and_eq_true_iff.2 ⟨decide_eq_true hwide.1, decide_eq_true hwide.2⟩
  have hclean :
      (orderProgram.run tightLimits (.ofAnswers ["3"])).diagnostics.hasErrors = false := by decide
  exact ⟨hlimits, hclean, run_of_wider_limits _ _ hlimits _ _ hclean⟩

end Exec

end Bistro
