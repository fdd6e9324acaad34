import Bistro.Proofs.Exec.Balanced

/-!
# Every run halts

Calls are carried out with the number of calls that may still be nested in them, and loops with the
number of passes that are left; so what `Exec` describes ends by its form.  Here a run is described
once more in terms that promise no end: a function runs whenever it is called, a loop goes round as
long as its condition holds, and the limits are only compared with the calls in progress and with
the passes made so far.  Each expression, statement, call and pass is one level deeper than the one
it belongs to.  A run whose levels go on for ever has no result, however many of them it is given.

Every run has one, and it is the one that `Program.run` gives.  From a call to those in its body
fewer calls may still be nested; from a construct to its parts the depth stays and the syntax
becomes smaller; and from pass to pass of a loop both stay, while fewer passes are left.

## Main definitions

* `Course` — a step of a run that may have no result.
* `Course.evaluate`, `Course.execute`, `Course.whileLoop`, `Course.untilLoop`, `Course.invoke`,
  `Course.runProgram` — runs without a promise to end, on a number of levels.
* `Course.Halts` — a course has a result if it is given enough levels.
* `Course.Ends` — a course halts where a number of calls may still be nested, as a step does.

## Main results

* `Course.ends_whileLoop`, `Course.ends_untilLoop` — loops end, by the passes that are left.
* `Course.ends_evaluate`, `Course.ends_execute` — expressions and statements end if calls do.
* `Course.ends_invoke` — calls end, by the depth that is left.
* `Course.runProgram_halts` — **every run halts.**
-/

namespace Bistro

/-- A step of a run that may have no result. -/
abbrev Course (α : Type) := StateT Machine Option α

namespace Course

open Exec (report reject readVariable readElement resolveFunction checkType allValues)

variable {α β : Type}

/-! ### Runs without a promise to end -/

/-- A step that ends. -/
def of (x : Exec α) : Course α := fun m => some (x.run m)

/-- Takes a step at a site and goes back to the present one. -/
def atSite (site : Site) (step : Course α) : Course α := do
  let former := (← get).diagnostics.site
  modify fun m => { m with diagnostics := m.diagnostics.enter site }
  let a ← step
  modify fun m => { m with diagnostics := m.diagnostics.enter former }
  return a

/-- Takes a step in a scope of its own. -/
def inScope (kind : Scope.Kind) (step : Course α) : Course α := do
  modify fun m => { m with scopes := m.scopes.push kind }
  let a ← step
  of Exec.closeScope
  return a

/-- Takes a step in the scope of a call. -/
def inCall (step : Course α) : Course α := do
  modify fun m => { m with scopes := m.scopes.pushFunction, callDepth := m.callDepth + 1 }
  let a ← step
  of Exec.closeScope
  modify fun m => { m with callDepth := m.callDepth - 1 }
  return a

/-- The values of a row of expressions. -/
def evaluateAll (evaluate : Expr → Course (Option Value)) :
    List Expr → Course (List (Option Value))
  | [] => return []
  | e :: rest => do
    let v ← evaluate e
    let vs ← evaluateAll evaluate rest
    return v :: vs

/-- Whether a condition holds.  What is no truth value does not. -/
def test (evaluate : Expr → Course (Option Value)) (condition : Expr) : Course Bool := do
  match ← evaluate condition with
  | some (.bool b) => return b
  | some other => do
    of (report (.invalidCondition other.type) condition.line)
    return false
  | none => return false

/-- Executes a row of statements inside `site`, the first of them being the one with number `i`. -/
def executeAll (execute : Site → Statement → Course Unit) (site : Site) (i : Nat) :
    List Statement → Course Unit
  | [] => return
  | st :: rest => do
    execute (site.child i) st
    executeAll execute site (i + 1) rest

/-- Executes a block that may be missing, in a scope of its own. -/
def executeOptional (execute : Site → Statement → Course Unit) (site : Site) :
    Option (List Statement) → Course Unit
  | none => return
  | some body => inScope .branch (executeAll execute site 0 body)

/-- Executes the first branch whose condition holds, from the one with number `i` on, or else does
`otherwise`. -/
def executeBranches (evaluate : Expr → Course (Option Value))
    (execute : Site → Statement → Course Unit) (site : Site) (i : Nat) :
    List Branch → Course Unit → Course Unit
  | [], otherwise => otherwise
  | ⟨condition, body, _⟩ :: rest, otherwise => do
    if ← test evaluate condition then
      inScope .branch (executeAll execute (site.child i) 0 body)
    else executeBranches evaluate execute site (i + 1) rest otherwise

/-- Executes the first arm with the value of the variable, from the one with number `i` on, or else
does `otherwise`. -/
def executeCases (execute : Site → Statement → Course Unit) (site : Site) (subject : String)
    (v : Value) (i : Nat) : List Case → Course Unit → Course Unit
  | [], otherwise => otherwise
  | ⟨value, body, line⟩ :: rest, otherwise =>
    if value.toValue.type ≠ v.type then do
      of (report (.caseMismatch value.toValue.render v.type subject) line)
      executeCases execute site subject v (i + 1) rest otherwise
    else if value.toValue.equals v then
      inScope .branch (executeAll execute (site.child i) 0 body)
    else executeCases execute site subject v (i + 1) rest otherwise

/-- The result of a function, which must be of the declared type. -/
def functionResult (evaluate : Expr → Course (Option Value)) (f : Function) (site : Site) :
    Course (Option Value) :=
  match f.result, f.returns with
  | some e, some type => atSite site do
    let some v ← evaluate e | return none
    of (checkType type.valueType v (.result f.name) e.line)
  | _, _ => return none

/-- Runs the body of a function with the values of its parameters. -/
def runBody (limits : Limits) (evaluate : Expr → Course (Option Value))
    (execute : Site → Statement → Course Unit) (f : Function) (values : List Value) :
    Course (Option Value) :=
  let site : Site := ⟨.function f.name, []⟩
  inCall do
    of (Exec.bindParameters f.parameters values)
    of (Exec.declareAll limits (site.child 0) 0 f.locals)
    executeAll execute (site.child 1) 0 f.body
    functionResult evaluate f (site.child 2)

mutual
/-- The value of an expression. -/
def evaluate (limits : Limits) (levels : Nat) (e : Expr) : Course (Option Value) :=
  match levels, e with
  | 0, _ => failure
  | _ + 1, .literal v _ => return some v.toValue
  | _ + 1, .var name line => of (readVariable name line)
  | _ + 1, .element name index line => of (readElement name index line)
  | levels + 1, .call name args line => do
    match ← of (resolveFunction name line) with
    | none => return none
    | some f =>
      if f.returns.isNone then of (reject (.voidFunction name) line)
      else
        let values ← evaluateAll (evaluate limits levels) args
        invoke limits levels f line values
  | levels + 1, .binary op left right line => do
    let left ← evaluate limits levels left
    let right ← evaluate limits levels right
    of (Exec.applyBinary? limits op left right line)
  | levels + 1, .not operand line => do
    let v ← evaluate limits levels operand
    of (Exec.applyNegation "!" (!·) v line)
  | levels + 1, .doubleNot operand line => do
    let v ← evaluate limits levels operand
    of (Exec.applyNegation "!!" id v line)
termination_by structural levels

/-- Executes a statement at its site. -/
def execute (limits : Limits) (levels : Nat) (site : Site) (st : Statement) : Course Unit :=
  match levels, st with
  | 0, _ => failure
  | levels + 1, .call name args line => atSite site do
    let some f ← of (resolveFunction name line) | return
    let values ← evaluateAll (evaluate limits levels) args
    let _ ← invoke limits levels f line values
  | levels + 1, .assign target op value line => atSite site do
    let v ← evaluate limits levels value
    of (Exec.assign limits target op v line)
  | _ + 1, .step name op line => atSite site do
    let _ ← of (Exec.takeStep limits name op line)
  | levels + 1, .taste branches otherwise _ => atSite site
    (executeBranches (evaluate limits levels) (execute limits levels) site 0 branches
      (executeOptional (execute limits levels) (site.child branches.length) otherwise))
  | levels + 1, .flip subject cases otherwise line => atSite site do
    let some v ← of (readVariable subject line) | return
    executeCases (execute limits levels) site subject v 0 cases
      (executeOptional (execute limits levels) (site.child cases.length) otherwise)
  | levels + 1, .forLoop declares var init condition stepVar step body line => atSite site do
    let initial ← evaluate limits levels init
    if ← of (Exec.beginFor declares var initial line) then
      whileLoop limits levels "for" site condition body (Exec.takeStep limits stepVar step line)
        line 0
  | levels + 1, .simmer condition body line => atSite site
    (whileLoop limits levels "simmer" site condition body (return true) line 0)
  | levels + 1, .keepmix body condition line => atSite site
    (untilLoop limits levels site body condition line 0)
  | levels + 1, .serve parts line => atSite site do
    let some values := allValues (← evaluateAll (evaluate limits levels) parts) | return
    let text := values.foldl (fun text v => text ++ v.render) ""
    modify fun m => { m with output := m.output.serve text line }
  | _ + 1, .make target line => atSite site (of (Exec.readInput limits target line))
termination_by structural levels

/-- Tests before each pass through the body.  `advance` is done behind each pass and tells whether
the loop goes on.  The loop is stopped if it has used up its passes. -/
def whileLoop (limits : Limits) (levels : Nat) (keyword : String) (site : Site) (condition : Expr)
    (body : List Statement) (advance : Exec Bool) (line iterations : Nat) : Course Unit :=
  match levels with
  | 0 => failure
  | levels + 1 => do
    if ← test (evaluate limits levels) condition then
      if limits.maxLoopIterations ≤ iterations then
        of (report (.loopStopped keyword limits.maxLoopIterations) line)
      else
        inScope .loop (executeAll (execute limits levels) site 0 body)
        if ← of advance then
          whileLoop limits levels keyword site condition body advance line (iterations + 1)
termination_by structural levels

/-- Tests after each pass through the body.  The loop is stopped if it has used up its passes. -/
def untilLoop (limits : Limits) (levels : Nat) (site : Site) (body : List Statement)
    (condition : Expr) (line iterations : Nat) : Course Unit :=
  match levels with
  | 0 => failure
  | levels + 1 => do
    if limits.maxLoopIterations ≤ iterations then
      of (report (.loopStopped "keepmix" limits.maxLoopIterations) line)
    else
      inScope .loop (executeAll (execute limits levels) site 0 body)
      if ← test (evaluate limits levels) condition then
        untilLoop limits levels site body condition line (iterations + 1)
termination_by structural levels

/-- Calls a function, unless as many calls are in progress as may be nested. -/
def invoke (limits : Limits) (levels : Nat) (f : Function) (line : Nat)
    (args : List (Option Value)) : Course (Option Value) :=
  match levels with
  | 0 => failure
  | levels + 1 => do
    if args.length ≠ f.parameters.length then
      of (reject (.argumentCount f.name f.parameters.length args.length) line)
    else match allValues args with
      | none => return none
      | some values =>
        if limits.maxCallDepth ≤ (← get).callDepth then
          of (reject (.callRefused f.name limits.maxCallDepth) line)
        else match allValues (← of (Exec.checkArguments f line 1 f.parameters values)) with
          | none => return none
          | some values =>
            runBody limits (evaluate limits levels) (execute limits levels) f values
termination_by structural levels
end

/-- Runs a program. -/
def runProgram (limits : Limits) (levels : Nat) (p : Program) : Course Unit := do
  of (Exec.declareAll limits ⟨.globals, []⟩ 0 p.globals)
  of (p.functions.forM Exec.declareFunction)
  modify fun m => { m with scopes := m.scopes.pushEntry }
  let site : Site := ⟨.entry, []⟩
  of (Exec.declareAll limits (site.child 0) 0 p.locals)
  executeAll (execute limits levels) (site.child 1) 0 p.body
  of (Exec.checkExit limits p.exitCode p.exitLine)

/-! ### Courses that end -/

/-- A course has a result if it is given enough levels, and always the same. -/
def Halts (c : Nat → Course α) (m : Machine) (r : α × Machine) : Prop :=
  ∃ n, ∀ levels, n ≤ levels → c levels m = some r

/-- From every state in which `depth` more calls may be nested, a course halts with what a step
gives, and with as many calls in progress as before. -/
def Ends (limits : Limits) (depth : Nat) (c : Nat → Course α) (x : Exec α) : Prop :=
  ∀ m, m.callDepth + depth = limits.maxCallDepth →
    Halts c m (x.run m) ∧ (x.run m).2.callDepth = m.callDepth

/-- All calls end where `depth` more may be nested. -/
def CallsEnd (limits : Limits) (depth : Nat) : Prop :=
  ∀ f line args, Ends limits depth (fun levels => invoke limits levels f line args)
    (Exec.invoke limits depth f line args)

theorem callDepth_closeScope (m : Machine) :
    (Exec.closeScope.run m).2.callDepth = m.callDepth := by
  cases hinner : m.scopes.inner with
  | nil => rw [Exec.run_closeScope_nil hinner]
  | cons scope outer => rw [Exec.run_closeScope hinner]

variable {limits : Limits} {depth : Nat} {c : Nat → Course α} {x : Exec α}

namespace Ends

theorem pure (a : α) : Ends limits depth (fun _ => pure a) (Pure.pure a) :=
  fun _ _ => ⟨⟨0, fun _ _ => rfl⟩, rfl⟩

theorem bind {d : α → Nat → Course β} {f : α → Exec β} (hx : Ends limits depth c x)
    (hf : ∀ a, Ends limits depth (d a) (f a)) :
    Ends limits depth (fun levels => c levels >>= fun a => d a levels) (x >>= f) := by
  intro m hm
  obtain ⟨⟨n, hfirst⟩, hkept⟩ := hx m hm
  obtain ⟨⟨n', hsecond⟩, hkept'⟩ := hf (x.run m).1 (x.run m).2 (by rw [hkept, hm])
  refine ⟨⟨max n n', fun levels hlevels => ?_⟩, hkept'.trans hkept⟩
  have hc := hfirst levels (by omega)
  have hd := hsecond levels (by omega)
  calc (c levels >>= fun a => d a levels) m
      = (c levels m).bind fun r => d r.1 levels r.2 := rfl
    _ = some ((x >>= f).run m) := by rw [hc, Option.bind_some, hd]; rfl

/-- A step ends as itself. -/
theorem of {σ : Type} {view : ScopeStack → σ} (hx : Exec.Restores view x) :
    Ends limits depth (fun _ => of x) x :=
  fun m _ => ⟨⟨0, fun _ _ => rfl⟩, (hx m).callDepth⟩

theorem report (f : Finding) (line : Nat) :
    Ends limits depth (fun _ => Course.of (Exec.report f line)) (Exec.report f line) :=
  .of (Exec.restores_primitive.report f line)

theorem reject (f : Finding) (line : Nat) :
    Ends limits depth (fun _ => Course.of (Exec.reject f line))
      (Exec.reject f line : Exec (Option α)) :=
  .of (Exec.restores_primitive.reject f line)

/-- One more level is enough for what one level deeper ends. -/
theorem of_succ (hx : Ends limits depth (fun levels => c (levels + 1)) x) :
    Ends limits depth c x := by
  intro m hm
  obtain ⟨⟨n, hend⟩, hkept⟩ := hx m hm
  refine ⟨⟨n + 1, fun levels hlevels => ?_⟩, hkept⟩
  obtain ⟨levels, rfl⟩ : ∃ k, levels = k + 1 := ⟨levels - 1, by omega⟩
  exact hend levels (by omega)

/-- A course that begins with a look at the state knows how many calls may be nested. -/
theorem of_get {d : Machine → Nat → Course α}
    (h : ∀ m, m.callDepth + depth = limits.maxCallDepth → Ends limits depth (d m) x) :
    Ends limits depth (fun levels => get >>= fun m => d m levels) x :=
  fun m hm => h m hm m hm

theorem atSite (hx : Ends limits depth c x) (site : Site) :
    Ends limits depth (fun levels => atSite site (c levels)) (Exec.atSite site x) := by
  intro m hm
  obtain ⟨⟨n, hend⟩, hkept⟩ := hx { m with diagnostics := m.diagnostics.enter site } hm
  refine ⟨⟨n, fun levels hlevels => ?_⟩, hkept⟩
  show (c levels { m with diagnostics := m.diagnostics.enter site }).bind _ = _
  rw [hend levels hlevels, Exec.run_atSite]
  rfl

theorem inScope (hx : Ends limits depth c x) (kind : Scope.Kind) :
    Ends limits depth (fun levels => inScope kind (c levels)) (Exec.inScope (·.push kind) x) := by
  intro m hm
  obtain ⟨⟨n, hend⟩, hkept⟩ := hx { m with scopes := m.scopes.push kind } hm
  refine ⟨⟨n, fun levels hlevels => ?_⟩, (callDepth_closeScope _).trans hkept⟩
  show (c levels { m with scopes := m.scopes.push kind }).bind _ = _
  rw [hend levels hlevels]
  rfl

/-- Inside a call one less can be nested. -/
theorem inCall (hx : Ends limits depth c x) :
    Ends limits (depth + 1) (fun levels => inCall (c levels)) (Exec.inCall x) := by
  intro m hm
  have hentered : m.callDepth + 1 + depth = limits.maxCallDepth := by omega
  obtain ⟨⟨n, hend⟩, hkept⟩ :=
    hx { m with scopes := m.scopes.pushFunction, callDepth := m.callDepth + 1 } hentered
  refine ⟨⟨n, fun levels hlevels => ?_⟩, ?_⟩
  · show (c levels { m with
      scopes := m.scopes.pushFunction, callDepth := m.callDepth + 1 }).bind _ = _
    rw [hend levels hlevels]
    rfl
  · have hclosed := (callDepth_closeScope _).trans hkept
    show (Exec.closeScope.run (x.run { m with
      scopes := m.scopes.pushFunction, callDepth := m.callDepth + 1 }).2).2.callDepth - 1 = _
    rw [hclosed]
    exact Nat.add_sub_cancel ..

end Ends

/-! ### Loops -/

/-- The passes that are left decrease from pass to pass. -/
theorem ends_whileLoop {keyword : String} {site : Site} {condition : Expr} {body : List Statement}
    {tested advance : Exec Bool} {pass : Exec Unit} {line : Nat}
    (htest : Ends limits depth (fun levels => test (evaluate limits levels) condition) tested)
    (hpass : Ends limits depth
      (fun levels => inScope .loop (executeAll (execute limits levels) site 0 body)) pass)
    (hadvance : Ends limits depth (fun _ => of advance) advance) {passes iterations : Nat}
    (hleft : iterations + passes = limits.maxLoopIterations) :
    Ends limits depth
      (fun levels => whileLoop limits levels keyword site condition body advance line iterations)
      (Exec.repeatWhile tested (do pass; advance)
        (report (.loopStopped keyword limits.maxLoopIterations) line) passes) := by
  induction passes generalizing iterations with
  | zero =>
    have hspent : limits.maxLoopIterations ≤ iterations := by omega
    refine .of_succ ?_
    simp only [whileLoop, if_pos hspent]
    refine htest.bind fun b => ?_
    cases b with
    | false => exact .pure _
    | true => exact .report _ _
  | succ passes ih =>
    have hroom : ¬ limits.maxLoopIterations ≤ iterations := by omega
    refine .of_succ ?_
    simp only [whileLoop, if_neg hroom]
    refine htest.bind fun b => ?_
    cases b with
    | false => exact .pure _
    | true =>
      -- a pass of `repeatWhile` is the block together with what is done behind it
      simp only [if_true, ← bind_assoc]
      refine (hpass.bind fun _ => hadvance).bind fun goesOn => ?_
      cases goesOn with
      | false => exact .pure _
      | true => exact ih (by omega)

theorem ends_untilLoop {site : Site} {condition : Expr} {body : List Statement}
    {tested : Exec Bool} {pass : Exec Unit} {line : Nat}
    (hpass : Ends limits depth
      (fun levels => inScope .loop (executeAll (execute limits levels) site 0 body)) pass)
    (htest : Ends limits depth (fun levels => test (evaluate limits levels) condition) tested)
    {passes iterations : Nat} (hleft : iterations + passes = limits.maxLoopIterations) :
    Ends limits depth (fun levels => untilLoop limits levels site body condition line iterations)
      (Exec.repeatUntil pass tested
        (report (.loopStopped "keepmix" limits.maxLoopIterations) line) passes) := by
  induction passes generalizing iterations with
  | zero =>
    have hspent : limits.maxLoopIterations ≤ iterations := by omega
    refine .of_succ ?_
    simp only [untilLoop, if_pos hspent]
    exact .report _ _
  | succ passes ih =>
    have hroom : ¬ limits.maxLoopIterations ≤ iterations := by omega
    refine .of_succ ?_
    simp only [untilLoop, if_neg hroom]
    refine hpass.bind fun _ => htest.bind fun b => ?_
    cases b with
    | false => exact .pure _
    | true => exact ih (by omega)

/-! ### Expressions and statements -/

mutual
theorem ends_evaluate (hcall : CallsEnd limits depth) (e : Expr) :
    Ends limits depth (fun levels => evaluate limits levels e)
      (Exec.evaluate limits (Exec.invoke limits depth) e) := by
  have hcommon := Exec.restores_primitive.congruence limits
  refine .of_succ ?_
  match e with
  | .literal _ _ => exact .pure _
  | .var name line => exact .of (hcommon.readVariable name line)
  | .element name index line => exact .of (hcommon.readElement name index line)
  | .call name args line =>
    refine Ends.bind (.of (hcommon.resolveFunction name line)) fun r => ?_
    cases r with
    | none => exact .pure _
    | some f =>
      dsimp only
      split
      · exact .reject _ _
      · exact (ends_evaluateAll hcall args).bind fun values => hcall _ _ _
  | .binary op left right line =>
    refine (ends_evaluate hcall left).bind fun l => (ends_evaluate hcall right).bind fun r => ?_
    exact .of (hcommon.applyBinary? op l r line)
  | .not operand line =>
    exact (ends_evaluate hcall operand).bind fun v =>
      .of (hcommon.applyNegation "!" (!·) v line)
  | .doubleNot operand line =>
    exact (ends_evaluate hcall operand).bind fun v =>
      .of (hcommon.applyNegation "!!" id v line)

theorem ends_evaluateAll (hcall : CallsEnd limits depth) (es : List Expr) :
    Ends limits depth (fun levels => evaluateAll (evaluate limits levels) es)
      (Exec.evaluateAll limits (Exec.invoke limits depth) es) := by
  match es with
  | [] => exact .pure _
  | e :: rest =>
    exact (ends_evaluate hcall e).bind fun v => (ends_evaluateAll hcall rest).bind fun vs => .pure _
end

theorem ends_test (hcall : CallsEnd limits depth) (condition : Expr) :
    Ends limits depth (fun levels => test (evaluate limits levels) condition)
      (Exec.test limits (Exec.invoke limits depth) condition) := by
  refine (ends_evaluate hcall condition).bind fun r => ?_
  match r with
  | none => exact .pure _
  | some (.bool b) => exact .pure _
  | some (.pinch _) | some (.skim _) | some (.pasta _) | some (.recipe _) =>
    exact (Ends.report _ _).bind fun _ => .pure _

mutual
theorem ends_execute (hcall : CallsEnd limits depth) (site : Site) (st : Statement) :
    Ends limits depth (fun levels => execute limits levels site st)
      (Exec.execute limits (Exec.invoke limits depth) site st) := by
  have hcommon := Exec.restores_primitive.congruence limits
  refine .of_succ ?_
  match st with
  | .call name args line =>
    refine Ends.atSite (Ends.bind (.of (hcommon.resolveFunction name line)) fun r => ?_) site
    cases r with
    | none => exact .pure _
    | some f =>
      exact (ends_evaluateAll hcall args).bind fun values => (hcall _ _ _).bind fun _ => .pure _
  | .assign target op value line =>
    exact Ends.atSite ((ends_evaluate hcall value).bind fun v =>
      .of (hcommon.assign target op v line)) site
  | .step name op line =>
    exact Ends.atSite (Ends.bind (.of (hcommon.takeStep name op line)) fun _ => .pure _) site
  | .taste branches otherwise line =>
    exact Ends.atSite (ends_executeBranches hcall site 0 branches
      (ends_executeOptional hcall _ otherwise)) site
  | .flip subject cases otherwise line =>
    refine Ends.atSite (Ends.bind (.of (hcommon.readVariable subject line)) fun r => ?_) site
    cases r with
    | none => exact .pure _
    | some v =>
      exact ends_executeCases hcall site subject v 0 cases (ends_executeOptional hcall _ otherwise)
  | .forLoop declares var init condition stepVar step body line =>
    refine Ends.atSite ((ends_evaluate hcall init).bind fun initial =>
      Ends.bind (.of (hcommon.beginFor declares var initial line)) fun begun => ?_) site
    cases begun with
    | false => exact .pure _
    | true =>
      exact ends_whileLoop (ends_test hcall condition)
        ((ends_executeAll hcall site 0 body).inScope .loop)
        (.of (hcommon.takeStep stepVar step line)) (Nat.zero_add _)
  | .simmer condition body line =>
    exact Ends.atSite (ends_whileLoop (ends_test hcall condition)
      ((ends_executeAll hcall site 0 body).inScope .loop) (.pure true) (Nat.zero_add _)) site
  | .keepmix body condition line =>
    exact Ends.atSite (ends_untilLoop ((ends_executeAll hcall site 0 body).inScope .loop)
      (ends_test hcall condition) (Nat.zero_add _)) site
  | .serve parts line =>
    refine Ends.atSite ((ends_evaluateAll hcall parts).bind fun values => ?_) site
    cases allValues values with
    | none => exact .pure _
    | some values => exact .of (hcommon.serve _ line)
  | .make target line => exact Ends.atSite (.of (hcommon.readInput target line)) site

theorem ends_executeAll (hcall : CallsEnd limits depth) (site : Site) (i : Nat)
    (sts : List Statement) :
    Ends limits depth (fun levels => executeAll (execute limits levels) site i sts)
      (Exec.executeAll limits (Exec.invoke limits depth) site i sts) := by
  match sts with
  | [] => exact .pure _
  | st :: rest =>
    exact (ends_execute hcall _ st).bind fun _ => ends_executeAll hcall site (i + 1) rest

theorem ends_executeOptional (hcall : CallsEnd limits depth) (site : Site)
    (body : Option (List Statement)) :
    Ends limits depth (fun levels => executeOptional (execute limits levels) site body)
      (Exec.executeOptional limits (Exec.invoke limits depth) site body) := by
  match body with
  | none => exact .pure _
  | some body => exact (ends_executeAll hcall site 0 body).inScope .branch

theorem ends_executeBranches (hcall : CallsEnd limits depth) (site : Site) (i : Nat)
    (branches : List Branch) {o : Nat → Course Unit} {otherwise : Exec Unit}
    (ho : Ends limits depth o otherwise) :
    Ends limits depth
      (fun levels => executeBranches (evaluate limits levels) (execute limits levels) site i
        branches (o levels))
      (Exec.executeBranches limits (Exec.invoke limits depth) site i branches otherwise) := by
  match branches with
  | [] => exact ho
  | ⟨condition, body, _⟩ :: rest =>
    refine (ends_test hcall condition).bind fun b => ?_
    cases b with
    | true => exact (ends_executeAll hcall _ 0 body).inScope .branch
    | false => exact ends_executeBranches hcall site (i + 1) rest ho

theorem ends_executeCases (hcall : CallsEnd limits depth) (site : Site) (subject : String)
    (v : Value) (i : Nat) (cases : List Case) {o : Nat → Course Unit} {otherwise : Exec Unit}
    (ho : Ends limits depth o otherwise) :
    Ends limits depth
      (fun levels => executeCases (execute limits levels) site subject v i cases (o levels))
      (Exec.executeCases limits (Exec.invoke limits depth) site subject v i cases otherwise) := by
  match cases with
  | [] => exact ho
  | ⟨value, body, line⟩ :: rest =>
    have hrest := ends_executeCases hcall site subject v (i + 1) rest ho
    simp only [executeCases, Exec.executeCases]
    split
    · exact (Ends.report _ _).bind fun _ => hrest
    · split
      · exact (ends_executeAll hcall _ 0 body).inScope .branch
      · exact hrest
end

/-! ### Calls -/

theorem ends_functionResult (hcall : CallsEnd limits depth) (f : Function) (site : Site) :
    Ends limits depth (fun levels => functionResult (evaluate limits levels) f site)
      (Exec.functionResult limits (Exec.invoke limits depth) f site) := by
  unfold functionResult Exec.functionResult
  cases f.result with
  | none => exact .pure _
  | some e =>
    cases f.returns with
    | none => exact .pure _
    | some type =>
      refine Ends.atSite ((ends_evaluate hcall e).bind fun r => ?_) site
      cases r with
      | none => exact .pure _
      | some v => exact .of (Exec.restores_primitive.checkType _ v _ _)

/-- The body of a function ends where one less call can be nested. -/
theorem ends_runBody (hcall : CallsEnd limits depth) (f : Function) (values : List Value) :
    Ends limits (depth + 1)
      (fun levels => runBody limits (evaluate limits levels) (execute limits levels) f values)
      (Exec.runBody limits (Exec.invoke limits depth) f values) := by
  refine Ends.inCall ?_
  refine Ends.bind (.of (Exec.restores_primitive.bindParameters f.parameters values)) fun _ => ?_
  refine Ends.bind (.of (Exec.restores_declareAll limits _ 0 f.locals)) fun _ => ?_
  exact (ends_executeAll hcall _ 0 f.body).bind fun _ => ends_functionResult hcall f _

/-- Calls end, as from each of them to those in its body less depth is left. -/
theorem ends_invoke (limits : Limits) (depth : Nat) : CallsEnd limits depth := by
  induction depth with
  | zero =>
    intro f line args
    refine .of_succ ?_
    simp only [invoke, Exec.invoke]
    split
    · exact .reject _ _
    · cases allValues args with
      | none => exact .pure _
      | some values =>
        refine .of_get fun m hm => ?_
        have hdeep : limits.maxCallDepth ≤ m.callDepth := by omega
        simp only [if_pos hdeep]
        exact .reject _ _
  | succ depth ih =>
    intro f line args
    refine .of_succ ?_
    simp only [invoke, Exec.invoke]
    split
    · exact .reject _ _
    · cases allValues args with
      | none => exact .pure _
      | some values =>
        refine .of_get fun m hm => ?_
        have hroom : ¬ limits.maxCallDepth ≤ m.callDepth := by omega
        have hchecked := Exec.restores_primitive.checkArguments f line 1 f.parameters values
        simp only [if_neg hroom]
        refine Ends.bind (.of hchecked) fun checked => ?_
        cases allValues checked with
        | none => exact .pure _
        | some values => exact ends_runBody ih f values

/-! ### Runs -/

/-- **Every run halts.**  Whatever the program, the limits and the input are, a run in which nothing
promises an end has a result on a finite number of levels, and it ends in the state that
`Program.run` gives. -/
theorem runProgram_halts (limits : Limits) (p : Program) (input : Input) :
    Halts (fun levels => runProgram limits levels p) (.initial input)
      ((), p.run limits input) := by
  have hends : Ends limits limits.maxCallDepth (fun levels => runProgram limits levels p)
      (Exec.runProgram limits p) := by
    have hfunctions := Exec.Restores.forM Exec.restores_declareFunction p.functions
    refine Ends.bind (.of (Exec.restores_declareAll limits _ 0 p.globals)) fun _ => ?_
    refine Ends.bind (.of hfunctions) fun _ => ?_
    refine Ends.bind (fun _ _ => ⟨⟨0, fun _ _ => rfl⟩, rfl⟩) fun _ => ?_
    refine Ends.bind (.of (Exec.restores_declareAll limits _ 0 p.locals)) fun _ => ?_
    refine Ends.bind (ends_executeAll (ends_invoke limits _) _ 0 p.body) fun _ => ?_
    exact .of (Exec.restores_checkExit limits p.exitCode p.exitLine)
  -- no call is in progress yet, so calls may be nested to the permitted depth
  exact (hends (.initial input) (Nat.zero_add _)).1

end Course

end Bistro
