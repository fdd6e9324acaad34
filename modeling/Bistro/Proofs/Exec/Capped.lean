import Bistro.Proofs.Exec.Balanced
import Bistro.Proofs.Exec.Completion

/-!
# Loops and their limit

What a loop does is a row of acts: it tests its condition, runs its body and, if it counts, takes a
step.  The three forms of loops differ in these rows: in the acts of a round after which the loop
goes on, in those by which it asks for another round, and in those it ends with.

A loop that makes as many rounds as it may and then asks for another one is stopped, and tells so.
Every other loop comes to an end of its own, and it has not run its body more often.  As acts have
one result only, the two cases exclude each other.

## Main definitions

* `LoopAct`, `LoopParts`, `LoopParts.Does` — acts, what a loop has to do for them, and what a row of
  acts leads to.
* `LoopForm` — the rows of a form of loops: `LoopForm.testFirst`, `LoopForm.bodyFirst` and
  `LoopForm.counting`.
* `LoopForm.Course` — what a loop with a limit leads to.
* `LoopForm.Endless` — a loop does not end of its own.
* `Exec.TakenInScope` — a step is taken in a scope of its own.
* `Exec.Begun` — whether a counting loop begins, and with what.

## Main results

* `LoopForm.Course.again`, `LoopForm.Course.ends` — a round before a loop, and a loop without one.
* `Exec.course_repeatWhile`, `Exec.course_repeatUntil` — loops that test first, and that test last.
* `Exec.begun_beginFor` — when a counting loop begins.
* `Exec.loops_capped` — **a loop runs its body as often as its condition asks for, up to the
  limit.**
-/

namespace Bistro

/-! ### Acts -/

/-- Something that a loop does, with its result. -/
inductive LoopAct
  | test (holds : Bool)
  | body
  | step (taken : Bool)
  deriving DecidableEq

namespace LoopAct

/-- The same act with another result. -/
def contrary : LoopAct → LoopAct → Bool
  | .test b, .test c => b != c
  | .step b, .step c => b != c
  | _, _ => false

/-- A test or a step after which there is no other round. -/
def fails : LoopAct → Bool
  | .test holds => !holds
  | .body => false
  | .step taken => !taken

/-- Two rows of acts begin alike up to an act that has different results in them. -/
def clash : List LoopAct → List LoopAct → Bool
  | a :: as, b :: bs => a.contrary b || (a == b && clash as bs)
  | _, _ => false

end LoopAct

/-- What a loop has to do for each of its acts. -/
structure LoopParts where
  test : Exec Bool
  body : Exec Unit
  step : Exec Bool

namespace LoopParts

variable {parts : LoopParts} {a b : LoopAct} {as bs : List LoopAct} {m k l n : Machine}

/-- An act with its result leads from one state to another. -/
def Act (parts : LoopParts) : LoopAct → Machine → Machine → Prop
  | .test holds, m, n => parts.test.run m = (holds, n)
  | .body, m, n => parts.body.run m = ((), n)
  | .step taken, m, n => parts.step.run m = (taken, n)

/-- The acts of a row, one behind the other, lead from one state to another. -/
def Does (parts : LoopParts) : List LoopAct → Machine → Machine → Prop
  | [], m, n => n = m
  | a :: as, m, n => ∃ k, parts.Act a m k ∧ parts.Does as k n

theorem Act.unique (h : parts.Act a m k) (h' : parts.Act a m l) : l = k := by
  cases a <;> exact (congrArg Prod.snd (h.symm.trans h')).symm

/-- From one state an act has one result. -/
theorem Act.not_contrary (h : parts.Act a m k) (h' : parts.Act b m l) : a.contrary b = false := by
  cases a with
  | body => rfl
  | test holds =>
    cases b with
    | test holds' => simpa [LoopAct.contrary] using congrArg Prod.fst (h.symm.trans h')
    | body => rfl
    | step taken => rfl
  | step taken =>
    cases b with
    | step taken' => simpa [LoopAct.contrary] using congrArg Prod.fst (h.symm.trans h')
    | test holds => rfl
    | body => rfl

theorem does_append : parts.Does (as ++ bs) m n ↔ ∃ k, parts.Does as m k ∧ parts.Does bs k n := by
  induction as generalizing m with
  | nil => exact ⟨fun h => ⟨m, rfl, h⟩, fun ⟨_, hk, h⟩ => hk ▸ h⟩
  | cons a as ih =>
    constructor
    · rintro ⟨k, ha, h⟩
      obtain ⟨l, has, hbs⟩ := ih.1 h
      exact ⟨l, ⟨k, ha, has⟩, hbs⟩
    · rintro ⟨l, ⟨k, ha, has⟩, hbs⟩
      exact ⟨k, ha, ih.2 ⟨l, has, hbs⟩⟩

theorem Does.unique (h : parts.Does as m k) (h' : parts.Does as m l) : l = k := by
  induction as generalizing m with
  | nil => exact Eq.trans h' (Eq.symm h)
  | cons a as ih =>
    obtain ⟨n, ha, h⟩ := h
    obtain ⟨n', ha', h'⟩ := h'
    obtain rfl := ha.unique ha'
    exact ih h h'

/-- What is done behind a row begins where the row leads to. -/
theorem Does.append_iff (h : parts.Does as m k) :
    parts.Does (as ++ bs) m n ↔ parts.Does bs k n := by
  rw [does_append]
  constructor
  · rintro ⟨l, h', hbs⟩
    obtain rfl := h.unique h'
    exact hbs
  · exact fun hbs => ⟨k, h, hbs⟩

/-- Of two rows that clash only one can be done. -/
theorem Does.not_of_clash (hclash : LoopAct.clash as bs = true) (h : parts.Does as m k)
    (cs : List LoopAct) : ¬∃ l, parts.Does (bs ++ cs) m l := by
  rintro ⟨l, h'⟩
  induction as generalizing bs m with
  | nil => cases hclash
  | cons a as ih =>
    cases bs with
    | nil => cases hclash
    | cons b bs =>
      obtain ⟨n, ha, h⟩ := h
      obtain ⟨n', hb, h'⟩ := h'
      -- both acts are done from one state, so they are the same and the rows clash behind them
      rw [LoopAct.clash, ha.not_contrary hb, Bool.false_or, Bool.and_eq_true, beq_iff_eq] at hclash
      obtain ⟨rfl, hclash⟩ := hclash
      obtain rfl := ha.unique hb
      exact ih hclash h h'

/-- If all tests hold and all steps are taken, none fails in a row. -/
theorem Does.not_fails (htest : ∀ k, (parts.test.run k).1 = true)
    (hstep : ∀ k, (parts.step.run k).1 = true) (h : parts.Does as m k) :
    ∀ a ∈ as, a.fails = false := by
  induction as generalizing m with
  | nil => exact List.forall_mem_nil _
  | cons a as ih =>
    obtain ⟨n, ha, h⟩ := h
    rw [List.forall_mem_cons]
    refine ⟨?_, ih h⟩
    cases a with
    | body => rfl
    | test holds =>
      have hrun : parts.test.run m = (holds, n) := ha
      have hholds : (parts.test.run m).1 = holds := congrArg Prod.fst hrun
      rw [LoopAct.fails, ← hholds, htest, Bool.not_true]
    | step taken =>
      have hrun : parts.step.run m = (taken, n) := ha
      have htaken : (parts.step.run m).1 = taken := congrArg Prod.fst hrun
      rw [LoopAct.fails, ← htaken, hstep, Bool.not_true]

end LoopParts

/-! ### Forms of loops -/

/-- The rows of acts of a form of loops. -/
structure LoopForm where
  /-- A round after which the loop goes on. -/
  round : List LoopAct
  /-- The acts by which the loop asks for a round before it runs the body in it. -/
  wish : List LoopAct
  /-- The acts with which the loop ends. -/
  endings : List (List LoopAct)
  body_round : round.count .body = 1 := by decide
  body_wish : wish.count .body = 0 := by decide
  body_ending : ∀ ending ∈ endings, ending.count .body ≤ 1 := by decide
  /-- A loop ends with a test or a step that fails. -/
  fails_ending : ∀ ending ∈ endings, ending.any LoopAct.fails = true := by decide
  /-- A loop that ends does not go on. -/
  clash_round : ∀ ending ∈ endings, LoopAct.clash ending round = true := by decide
  /-- A loop that ends before it runs its body does not ask for a round. -/
  clash_wish : ∀ ending ∈ endings, ending.count .body = 0 → LoopAct.clash ending wish = true := by
    decide

namespace LoopForm

/-- A loop with a test before each run of its body. -/
def testFirst : LoopForm where
  round := [.test true, .body]
  wish := [.test true]
  endings := [[.test false]]

/-- A loop with a test behind each run of its body.  What asks for a round is the end of the one
before, so nothing does before the first. -/
def bodyFirst : LoopForm where
  round := [.body, .test true]
  wish := []
  endings := [[.body, .test false]]

/-- A loop with a test before and a step behind each run of its body. -/
def counting : LoopForm where
  round := [.test true, .body, .step true]
  wish := [.test true]
  endings := [[.test false], [.test true, .body, .step false]]

/-- A number of rounds. -/
def rounds (form : LoopForm) (n : Nat) : List LoopAct := (List.replicate n form.round).flatten

/-- All rounds that there may be, and the wish for another. -/
def exhausting (form : LoopForm) (cap : Nat) : List LoopAct := form.rounds cap ++ form.wish

variable {form : LoopForm} {parts : LoopParts} {cap : Nat} {stopped : Exec Unit} {m k m' : Machine}

theorem rounds_succ (form : LoopForm) (n : Nat) :
    form.rounds (n + 1) = form.round ++ form.rounds n := by
  rw [rounds, List.replicate_succ, List.flatten_cons]
  rfl

theorem exhausting_succ (form : LoopForm) (cap : Nat) :
    form.exhausting (cap + 1) = form.round ++ form.exhausting cap := by
  rw [exhausting, rounds_succ, List.append_assoc]
  rfl

/-- A loop that is stopped has run its body as often as it may. -/
theorem count_body_exhausting (form : LoopForm) (cap : Nat) :
    (form.exhausting cap).count .body = cap := by
  induction cap with
  | zero => exact form.body_wish
  | succ cap ih => rw [exhausting_succ, List.count_append, form.body_round, ih, Nat.add_comm]

/-- The loop never comes to an end of its own: whatever number of rounds it makes, it does not end
behind them. -/
def Endless (form : LoopForm) (parts : LoopParts) (m : Machine) : Prop :=
  ∀ n, ∀ ending ∈ form.endings, ¬∃ k, parts.Does (form.rounds n ++ ending) m k

/-- A loop that may run its body `cap` times leads from one state to another.  Either it makes all
these rounds and asks for another, and then it is stopped; or it does not, and then it comes to an
end of its own behind some rounds. -/
def Course (form : LoopForm) (parts : LoopParts) (cap : Nat) (stopped : Exec Unit)
    (m m' : Machine) : Prop :=
  (∃ k, parts.Does (form.exhausting cap) m k ∧ m' = (stopped.run k).2) ∨
  (¬∃ k, parts.Does (form.exhausting cap) m k) ∧ ∃ n, ∃ ending ∈ form.endings,
    (form.rounds n ++ ending).count .body ≤ cap ∧ parts.Does (form.rounds n ++ ending) m m'

/-- A loop without a round. -/
theorem Course.ends {ending : List LoopAct} (hending : ending ∈ form.endings)
    (hbody : ending.count .body ≤ cap) (h : parts.Does ending m m') :
    form.Course parts cap stopped m m' := by
  refine .inr ⟨?_, 0, ending, hending, hbody, h⟩
  -- a loop that is stopped begins with a round, or with the wish for one if it may make none
  cases cap with
  | zero =>
    have hclash := form.clash_wish ending hending (Nat.le_zero.1 hbody)
    have hnot := h.not_of_clash hclash []
    rwa [List.append_nil] at hnot
  | succ cap =>
    rw [exhausting_succ]
    exact h.not_of_clash (form.clash_round ending hending) _

/-- A round before a loop makes a loop that may make one round more. -/
theorem Course.again (hround : parts.Does form.round m k) (h : form.Course parts cap stopped k m') :
    form.Course parts (cap + 1) stopped m m' := by
  rcases h with ⟨l, hdoes, rfl⟩ | ⟨hnot, n, ending, hending, hbody, hdoes⟩
  · refine .inl ⟨l, ?_, rfl⟩
    rw [exhausting_succ]
    exact hround.append_iff.2 hdoes
  · refine .inr ⟨?_, n + 1, ending, hending, ?_, ?_⟩
    · rintro ⟨l, hdoes⟩
      rw [exhausting_succ] at hdoes
      exact hnot ⟨l, hround.append_iff.1 hdoes⟩
    · rw [rounds_succ, List.append_assoc, List.count_append, form.body_round]
      omega
    · rw [rounds_succ, List.append_assoc]
      exact hround.append_iff.2 hdoes

/-- A loop that never ends of its own runs its body as often as it may. -/
theorem Course.of_endless (h : form.Course parts cap stopped m m')
    (hendless : form.Endless parts m) :
    ∃ k, parts.Does (form.exhausting cap) m k ∧ m' = (stopped.run k).2 := by
  rcases h with hstopped | ⟨-, n, ending, hending, -, hdoes⟩
  · exact hstopped
  · exact absurd ⟨m', hdoes⟩ (hendless n ending hending)

/-- A loop whose condition always holds and whose steps never fail does not end of its own. -/
theorem endless_of_holds (htest : ∀ k, (parts.test.run k).1 = true)
    (hstep : ∀ k, (parts.step.run k).1 = true) : form.Endless parts m := by
  rintro n ending hending ⟨k, h⟩
  obtain ⟨a, ha, hfails⟩ := List.any_eq_true.1 (form.fails_ending ending hending)
  rw [h.not_fails htest hstep a (List.mem_append_right _ ha)] at hfails
  cases hfails

end LoopForm

namespace Exec

variable {form : LoopForm} {parts : LoopParts} {stopped : Exec Unit}

/-! ### Loops -/

/-- A loop that tests before each pass.  A pass completes a round, or else the loop ends with it. -/
theorem course_repeatWhile {pass : Exec Bool} (hwish : form.wish = [.test true])
    (hfalse : [.test false] ∈ form.endings)
    (hround : ∀ m k l, parts.test.run m = (true, k) → pass.run k = (true, l) →
      parts.Does form.round m l)
    (hending : ∀ m k l, parts.test.run m = (true, k) → pass.run k = (false, l) →
      ∃ ending ∈ form.endings, parts.Does ending m l) (cap : Nat) (m : Machine) :
    form.Course parts cap stopped m ((repeatWhile parts.test pass stopped cap).run m).2 := by
  induction cap generalizing m with
  | zero =>
    rw [repeatWhile, run_bind]
    rcases htest : parts.test.run m with ⟨holds, k⟩
    cases holds with
    | false => exact .ends hfalse (Nat.zero_le _) ⟨k, htest, rfl⟩
    | true =>
      refine .inl ⟨k, ?_, rfl⟩
      show parts.Does form.wish m k
      rw [hwish]
      exact ⟨k, htest, rfl⟩
  | succ cap ih =>
    rw [repeatWhile, run_bind]
    rcases htest : parts.test.run m with ⟨holds, k⟩
    cases holds with
    | false => exact .ends hfalse (Nat.zero_le _) ⟨k, htest, rfl⟩
    | true =>
      simp only [if_true]
      rw [run_bind]
      rcases hpass : pass.run k with ⟨goesOn, l⟩
      cases goesOn with
      | true => exact (ih l).again (hround m k l htest hpass)
      | false =>
        obtain ⟨ending, hmem, hdoes⟩ := hending m k l htest hpass
        have hbody := form.body_ending ending hmem
        exact .ends hmem (hbody.trans (Nat.le_add_left 1 cap)) hdoes

theorem course_testFirst (parts : LoopParts) (stopped : Exec Unit) (cap : Nat) (m : Machine) :
    LoopForm.testFirst.Course parts cap stopped m
      ((repeatWhile parts.test (do parts.body; return true) stopped cap).run m).2 := by
  refine course_repeatWhile rfl (.head _) (fun m k l htest hpass => ?_)
    (fun m k l htest hpass => ?_) cap m
  · have hstate : (parts.body.run k).2 = l := congrArg Prod.snd hpass
    exact ⟨k, htest, l, Prod.ext rfl hstate, rfl⟩
  · cases congrArg Prod.fst hpass

theorem course_counting (parts : LoopParts) (stopped : Exec Unit) (cap : Nat) (m : Machine) :
    LoopForm.counting.Course parts cap stopped m
      ((repeatWhile parts.test (do parts.body; parts.step) stopped cap).run m).2 := by
  refine course_repeatWhile rfl (.head _) (fun m k l htest hpass => ?_)
    (fun m k l htest hpass => ?_) cap m
  · exact ⟨k, htest, (parts.body.run k).2, rfl, l, hpass, rfl⟩
  · exact ⟨_, .tail _ (.head _), k, htest, (parts.body.run k).2, rfl, l, hpass, rfl⟩

/-- A loop that tests behind each pass. -/
theorem course_repeatUntil (parts : LoopParts) (stopped : Exec Unit) (cap : Nat) (m : Machine) :
    LoopForm.bodyFirst.Course parts cap stopped m
      ((repeatUntil parts.body parts.test stopped cap).run m).2 := by
  induction cap generalizing m with
  | zero => exact .inl ⟨m, rfl, rfl⟩
  | succ cap ih =>
    rw [repeatUntil, run_bind, run_bind]
    rcases htest : parts.test.run (parts.body.run m).2 with ⟨holds, k⟩
    have hacts : parts.Does [.body, .test holds] m k := ⟨(parts.body.run m).2, rfl, k, htest, rfl⟩
    cases holds with
    | false => exact .ends (.head _) (Nat.le_add_left 1 cap) hacts
    | true => exact (ih k).again hacts

/-! ### Tests and bodies -/

/-- A condition holds exactly if its value is the truth. -/
theorem test_eq_true_iff (limits : Limits) (call : Call) (condition : Expr) (k l : Machine) :
    (test limits call condition).run k = (true, l) ↔
      (evaluate limits call condition).run k = (some (.bool true), l) := by
  unfold test
  rw [run_bind]
  rcases (evaluate limits call condition).run k with ⟨v, n⟩
  cases v with
  | none => simp [Pure.pure, Exec.pure]
  | some v =>
    cases v with
    | bool b => cases b <;> simp [Pure.pure, Exec.pure]
    | pinch _ | skim _ | pasta _ | recipe _ => simp [run_bind, Pure.pure, Exec.pure]

/-- A step is taken in a scope of its own: the scope is opened before it, is the innermost one
behind it, and is then closed with warnings of what is unused.  All declarations are as before. -/
def TakenInScope (kind : Scope.Kind) (x : Exec Unit) (m m' : Machine) : Prop :=
  let inside := (x.run { m with scopes := m.scopes.push kind }).2
  ∃ scope outer, inside.scopes.inner = scope :: outer ∧ scope.kind = kind ∧
    m' = { inside with
      scopes := { inside.scopes with inner := outer }
      diagnostics := scope.warn inside.diagnostics } ∧
    m'.scopes.bare = m.scopes.bare

theorem takenInScope_inScope {x : Exec Unit} (hx : Restores ScopeStack.frame x)
    (kind : Scope.Kind) (m : Machine) :
    TakenInScope kind x m ((inScope (·.push kind) x).run m).2 := by
  have hstep := hx { m with scopes := m.scopes.push kind }
  obtain ⟨scope, outer, hinner, hkind, hbare⟩ := ScopeStack.exists_inner hstep.scopes
  have hclose := congrArg Prod.snd (run_closeScope hinner)
  refine ⟨scope, outer, hinner, hkind, hclose, ?_⟩
  have hscopes := congrArg Machine.scopes hclose
  exact (congrArg ScopeStack.bare hscopes).trans hbare

/-! ### The beginning of a counting loop -/

/-- A declared name resolves to what it is declared to be. -/
theorem peek?_declare {b : Binding} {s s' : ScopeStack} (h : s.declare b = .ok s') :
    s'.peek? b.name = some b := by
  have hget : ∀ {scope scope' : Scope}, scope.declare b = .ok scope' →
      scope'.get? b.name = some b := by
    intro scope scope' hd
    rw [Scope.get?_declare hd, if_pos rfl]
  rcases ScopeStack.declare_cases h with
    ⟨scope, outer, scope', -, hd, rfl⟩ | ⟨global, hinner, hd, rfl⟩
  · rw [ScopeStack.peek?, ScopeStack.resolve?, hget hd]
  · rw [ScopeStack.peek?, hinner]
    exact hget hd

/-- Only a function in the innermost scope stands in the way of a variable. -/
theorem function_of_declare_error {b : Binding} {s : ScopeStack} {e : DuplicateName}
    (hb : b.isFunction = false) (h : s.declare b = .error e) :
    ∃ f, s.current.get? b.name = some f ∧ f.isFunction = true := by
  have hscope : ∀ {scope : Scope} {f : Scope → ScopeStack}, (scope.declare b).map f = .error e →
      ∃ f, scope.get? b.name = some f ∧ f.isFunction = true := by
    intro scope g hd
    unfold Scope.declare at hd
    cases hf : scope.get? b.name with
    | none =>
      rw [hf] at hd
      cases hd
    | some f =>
      simp only [hf, hb, Bool.or_false] at hd
      split at hd
      · next hfunction => exact ⟨f, rfl, hfunction⟩
      · cases hd
  unfold ScopeStack.current
  unfold ScopeStack.declare at h
  cases hinner : s.inner with
  | nil =>
    rw [hinner] at h
    exact hscope h
  | cons scope outer =>
    rw [hinner] at h
    exact hscope h

/-- A counting loop has a first value, which is an integer if it declares its variable, and
otherwise is of the type of the variable that there is. -/
def Begins (declares : Bool) (var : String) (initial : Option Value) (m : Machine) : Prop :=
  ∃ v, initial = some v ∧
    if declares then v.type = .pinch
    else ∃ b, m.scopes.peek? var = some b ∧ b.kind = .scalar v.type

/-- Whether a counting loop begins, and with what. -/
structure Begun (declares : Bool) (var : String) (initial : Option Value) (m : Machine)
    (r : Bool × Machine) : Prop where
  /-- When it does. -/
  begins_iff : r.1 = true ↔ Begins declares var initial m
  /-- Its variable then has the first value, unless a function of the same scope has its name. -/
  value : r.1 = true → r.2.scopes.valueAt? (.var var) = initial ∨
    declares = true ∧ ∃ f, m.scopes.current.get? var = some f ∧ f.isFunction = true

section
variable {declares : Bool} {var : String} {initial : Option Value} {m : Machine}

theorem not_begins_none : ¬Begins declares var none m := by
  rintro ⟨v, hv, -⟩
  cases hv

theorem Begun.of_not {r : Bool × Machine} (hr : r.1 = false)
    (h : ¬Begins declares var initial m) : Begun declares var initial m r := by
  have hne : r.1 ≠ true := by
    rw [hr]
    exact Bool.false_ne_true
  exact ⟨iff_of_false hne h, fun htrue => absurd htrue hne⟩

end

theorem begun_declareLoopVariable (var : String) (initial : Option Value) (line : Nat)
    (m : Machine) : Begun true var initial m ((declareLoopVariable var initial line).run m) := by
  cases initial with
  | none => exact .of_not rfl not_begins_none
  | some v =>
    unfold declareLoopVariable checkType
    by_cases hfits : v.fitsType .pinch = true
    · have htype : v.type = .pinch := of_decide_eq_true hfits
      simp only [hfits, if_true]
      refine ⟨iff_of_true rfl ⟨v, rfl, htype⟩, fun _ => ?_⟩
      let b : Binding := { Binding.scalar var .pinch line with value := some v }
      show ((declare b).run m).2.scopes.valueAt? (.var var) = some v ∨ _
      rw [run_declare]
      cases hd : m.scopes.declare b with
      | ok scopes => exact .inl (valueAt?_var (peek?_declare hd))
      | error e => exact .inr ⟨rfl, function_of_declare_error rfl hd⟩
    · have htype : v.type ≠ .pinch := of_decide_eq_false (eq_false_of_ne_true hfits)
      simp only [hfits]
      refine .of_not rfl ?_
      rintro ⟨w, hw, hpinch⟩
      obtain rfl := Option.some.inj hw
      exact htype hpinch

theorem begun_reuseLoopVariable (var : String) (initial : Option Value) (line : Nat)
    (m : Machine) : Begun false var initial m ((reuseLoopVariable var initial line).run m) := by
  have hlookup : ((lookup var).run m).1 = (m.scopes.peek? var).map Binding.marked :=
    ScopeStack.peek?_adjust _ _ _
  unfold reuseLoopVariable
  rw [run_bind, hlookup]
  cases hb : m.scopes.peek? var with
  | none =>
    refine .of_not rfl ?_
    rintro ⟨v, -, b, hb', -⟩
    cases hb.symm.trans hb'
  | some b =>
    -- the loop begins exactly if the value can be stored in the variable
    have hbegins : Begins false var initial m ↔
        ∃ v, initial = some v ∧ b.kind = .scalar v.type := by
      refine exists_congr fun v => and_congr_right fun _ => ?_
      constructor
      · rintro ⟨b', hb', hkind⟩
        obtain rfl := Option.some.inj (hb.symm.trans hb')
        exact hkind
      · exact fun hkind => ⟨b, hb, hkind⟩
    have hk : ((lookup var).run m).2.scopes.peek? var = some b.marked := by
      rw [hb] at hlookup
      exact hlookup
    obtain ⟨_, kind, value, _, _⟩ := b
    cases kind with
    | array element dimension =>
      refine .of_not rfl (hbegins.not.2 ?_)
      rintro ⟨v, -, hkind⟩
      cases hkind
    | function f =>
      refine .of_not rfl (hbegins.not.2 ?_)
      rintro ⟨v, -, hkind⟩
      cases hkind
    | scalar type =>
      cases initial with
      | none => exact .of_not rfl not_begins_none
      | some v =>
        simp only [Option.map_some, Binding.marked, checkType]
        by_cases hfits : v.fitsType type = true
        · obtain rfl : v.type = type := of_decide_eq_true hfits
          simp only [hfits, if_true]
          exact ⟨iff_of_true rfl (hbegins.2 ⟨v, rfl, rfl⟩),
            fun _ => .inl (valueAt?_adjust_withValue hk v)⟩
        · have htype : v.type ≠ type := of_decide_eq_false (eq_false_of_ne_true hfits)
          simp only [hfits]
          refine .of_not rfl (hbegins.not.2 ?_)
          rintro ⟨w, hw, hkind⟩
          obtain rfl := Option.some.inj hw
          exact htype (Binding.Kind.scalar.inj hkind).symm

theorem begun_beginFor (declares : Bool) (var : String) (initial : Option Value) (line : Nat)
    (m : Machine) : Begun declares var initial m ((beginFor declares var initial line).run m) := by
  cases declares with
  | true => exact begun_declareLoopVariable var initial line m
  | false => exact begun_reuseLoopVariable var initial line m

/-! ### Statements -/

/-- What a loop at a site has to do for its acts: it tests its condition, and runs its body in a
scope of its own.  The step matters in counting loops only. -/
def loopParts (limits : Limits) (depth : Nat) (site : Site) (condition : Expr)
    (body : List Statement) (step : Exec Bool) : LoopParts where
  test := test limits (invoke limits depth) condition
  body := inScope (·.push .loop) (executeAll limits (invoke limits depth) site 0 body)
  step := step

/-- A loop at a site leads from a state to another.  It takes one of the two courses; if it never
ends of its own it runs its body as often as it may, and then it is stopped. -/
structure Capped (form : LoopForm) (parts : LoopParts) (cap : Nat) (stopped : Exec Unit)
    (m m' : Machine) : Prop where
  course : form.Course parts cap stopped m m'
  /-- A loop that is stopped has run its body `cap` times. -/
  body_exhausting : (form.exhausting cap).count .body = cap
  endless : form.Endless parts m →
    ∃ k, parts.Does (form.exhausting cap) m k ∧ m' = (stopped.run k).2

theorem capped_of_course {form : LoopForm} {parts : LoopParts} {cap : Nat} {stopped : Exec Unit}
    {m m' : Machine} (h : form.Course parts cap stopped m m') :
    Capped form parts cap stopped m m' :=
  ⟨h, form.count_body_exhausting cap, h.of_endless⟩

/-- **A loop runs its body as often as its condition asks for, up to the limit.**  From every state,
at every site and with any number of calls that may still be nested:

* a loop that tests first makes rounds of a true test and the body, up to a test that is not true;
* a loop that tests last makes rounds of the body and a true test, likewise;
* a counting loop has a first value for its variable or does nothing more; if it begins it makes
  rounds of a true test, the body and a step that is taken, up to a test that is not true or a step
  that is not taken.

Each of them is stopped exactly if it has run its body as often as it may and asks for another
round, and only then does it report the risk of an infinite loop.  So a loop that never ends of its
own runs its body as often as it may.  A test is true exactly if its condition has the truth as its
value, and a body has a scope of its own each time. -/
theorem loops_capped (limits : Limits) (depth : Nat) (site : Site) (m : Machine) :
    let cap := limits.maxLoopIterations
    let stopped := fun keyword line => report (.loopStopped keyword cap) line
    let after := fun st => ((execute limits (invoke limits depth) site st).run m).2
    (∀ condition body line, ∃ last,
      after (.simmer condition body line) = last.at m.diagnostics.site ∧
      Capped .testFirst (loopParts limits depth site condition body (pure true)) cap
        (stopped "simmer" line) (m.at site) last) ∧
    (∀ condition body line, ∃ last,
      after (.keepmix body condition line) = last.at m.diagnostics.site ∧
      Capped .bodyFirst (loopParts limits depth site condition body (pure true)) cap
        (stopped "keepmix" line) (m.at site) last) ∧
    (∀ declares var init condition stepVar step body line,
      let initial := (evaluate limits (invoke limits depth) init).run (m.at site)
      let begun := (beginFor declares var initial.1 line).run initial.2
      let loop := .forLoop declares var init condition stepVar step body line
      Begun declares var initial.1 initial.2 begun ∧
        (begun.1 = false → after loop = begun.2.at m.diagnostics.site) ∧
        (begun.1 = true → ∃ last, after loop = last.at m.diagnostics.site ∧
          Capped .counting
            (loopParts limits depth site condition body (takeStep limits stepVar step line)) cap
            (stopped "for" line) begun.2 last)) ∧
    (∀ condition body step k l,
      ((loopParts limits depth site condition body step).test.run k = (true, l) ↔
        (evaluate limits (invoke limits depth) condition).run k = (some (.bool true), l)) ∧
      TakenInScope .loop (executeAll limits (invoke limits depth) site 0 body) k
        ((loopParts limits depth site condition body step).body.run k).2) ∧
    ∀ keyword line, ((Finding.loopStopped keyword cap).onLine line).kind.code =
      "INFINITE_LOOP_RISK" := by
  intro cap stopped after
  refine ⟨fun condition body line => ?_, fun condition body line => ?_, ?_, ?_,
    fun keyword line => rfl⟩
  · exact ⟨_, rfl, capped_of_course (course_testFirst
      (loopParts limits depth site condition body (pure true)) _ _ _)⟩
  · exact ⟨_, rfl, capped_of_course (course_repeatUntil
      (loopParts limits depth site condition body (pure true)) _ _ _)⟩
  · intro declares var init condition stepVar step body line initial begun loop
    let parts := loopParts limits depth site condition body (takeStep limits stepVar step line)
    have hafter : after loop = ((if begun.1 = true then
        repeatWhile parts.test (do parts.body; parts.step) (stopped "for" line) cap
        else pure ()).run begun.2).2.at m.diagnostics.site := rfl
    refine ⟨begun_beginFor declares var _ line _, fun hbegun => ?_, fun hbegun => ?_⟩
    · rw [hafter, hbegun]
      rfl
    · rw [hafter, hbegun]
      exact ⟨_, rfl, capped_of_course (course_counting parts _ _ _)⟩
  · intro condition body step k l
    exact ⟨test_eq_true_iff limits _ condition k l,
      takenInScope_inScope (restores_executeAll limits depth site 0 body) .loop k⟩

/-- With a limit of two, an endless loop that adds to the first element of a tray runs its body
twice, and then it is stopped; a loop that counts from an unknown name does not begin. -/
theorem loops_capped_tray :
    let limits := { Limits.standard with maxLoopIterations := 2 }
    let m := trayProgram.run .standard (.ofAnswers [])
    let site : Site := ⟨.entry, [1]⟩
    let always : Expr := .literal (.bool true) 4
    let body : List Statement := [.assign (.element "tray" 0) .add (.literal (.pinch 1) 5) 5]
    let loop : Statement := .simmer always body 4
    let counting : Statement := .forLoop true "i" (.var "bowl" 7) always "i" .increment body 7
    let parts := loopParts limits 3 site always body (pure true)
    (∃ last k, ((execute limits (invoke limits 3) site loop).run m).2 = last.at m.diagnostics.site ∧
      parts.Does [.test true, .body, .test true, .body, .test true] (m.at site) k ∧
      last = ((report (.loopStopped "simmer" 2) 4).run k).2) ∧
    ((execute limits (invoke limits 3) site loop).run m).2.scopes.valueAt? (.element "tray" 0) =
      some (.pinch 2) ∧
    ((execute limits (invoke limits 3) site counting).run m).2.scopes.valueAt? (.element "tray" 0) =
      some (.pinch 0) := by
  intro limits m site always body loop counting parts
  obtain ⟨hsimmer, -, hfor, -⟩ := loops_capped limits 3 site m
  obtain ⟨last, hlast, hcapped⟩ := hsimmer always body 4
  obtain ⟨k, hdoes, hstopped⟩ :=
    hcapped.endless (LoopForm.endless_of_holds (fun _ => rfl) fun _ => rfl)
  have hcounting := (hfor true "i" (.var "bowl" 7) always "i" .increment body 7).2.1 rfl
  have htray := congrArg (fun k : Machine => k.scopes.valueAt? (.element "tray" 0)) hcounting
  exact ⟨⟨last, k, hlast, hdoes, hstopped⟩, rfl, htray⟩

end Exec

end Bistro
