import Bistro.Proofs.Exec.Lasting
import Bistro.Proofs.Scope.Regular

/-!
# What has no value was reported

Where an expression has no value, an error is recorded already.  The findings of a run tell so much
only because two silent ways to lose a value are never taken: the comparison with what is not a
number, and the result of a function that has none.  In a run of a regular program all values are
regular, so that neither happens.

The statements are about debts.  A step is taken while an error is owed or not, and behind it one is
owed again, perhaps for another reason; whoever owes an error has recorded one.

## Main definitions

* `Machine.Regular` — a state whose bindings are all regular.
* `Exec.Tells` — a step from regular states, with what is owed before it and behind it.
* `Exec.Steady` — a step that keeps to regular states and to what was owed.
* `Exec.Explains` — a step that gives a value, or else owes an error.

## Main results

* `Exec.explains_applyBinary` — operators.
* `Exec.explains_evaluate` — expressions.
* `Exec.steady_execute`, `Exec.answers_invoke` — statements and calls.
* `Exec.steady_runProgram` — **all states of a run of a regular program are regular.**
-/

namespace Bistro

/-- All bindings of a state are regular. -/
def Machine.Regular (m : Machine) : Prop := m.scopes.All Binding.Regular

/-- A state is regular, and an error is recorded in it if one is owed. -/
structure Machine.Owing (owed : Prop) (m : Machine) : Prop where
  regular : m.Regular
  failed : owed → m.Failed

namespace Exec

open Machine (Regular Owing Failed)

variable {α β : Type} {owed owed' : Prop} {good good' : α → Prop} {owes owes' : α → Prop}
  {x : Exec α}

/-! ### Debts -/

/-- From a regular state, in which an error is recorded if `owed`, a step passes through regular
states; its result is `good`, and behind it an error is recorded if the result `owes` one. -/
def Tells (owed : Prop) (x : Exec α) (good owes : α → Prop) : Prop :=
  Triple Regular (Owing owed) x fun a m => good a ∧ m.Owing (owes a)

theorem Tells.pure {a : α} (ha : good a) (h : owes a → owed) :
    Tells owed (pure a : Exec α) good owes :=
  Triple.pure fun _ hm => ⟨ha, hm.regular, fun howes => hm.failed (h howes)⟩

theorem Tells.bind {f : α → Exec β} {good' owes' : β → Prop} (hx : Tells owed x good owes)
    (hf : ∀ a, good a → Tells (owes a) (f a) good' owes') :
    Tells owed (x >>= f) good' owes' :=
  Triple.bind hx fun a m hm => hf a hm.1 m hm.2

theorem Tells.mono (h : Tells owed x good owes) (howed : owed → owed')
    (hgood : ∀ a, good a → good' a) (howes : ∀ a, owes' a → owes a) :
    Tells owed' x good' owes' := by
  refine Triple.mono h (fun m hm => ⟨hm.regular, fun ho => hm.failed (howed ho)⟩) ?_
  rintro a m ⟨ha, hm⟩
  exact ⟨hgood a ha, hm.regular, fun ho => hm.failed (howes a ho)⟩

/-- A step that does not touch the findings. -/
theorem Tells.modifyGet {f : Machine → α × Machine}
    (h : ∀ m, m.Regular → (f m).2.Regular ∧ good (f m).1)
    (hsame : ∀ m, (f m).2.diagnostics.hasErrors = m.diagnostics.hasErrors) :
    Tells owed (modifyGet f : Exec α) good fun _ => owed := by
  refine Triple.modifyGet fun m hm => ?_
  obtain ⟨hregular, hgood⟩ := h m hm.regular
  exact ⟨hregular, hgood, hregular, fun ho => (hsame m).trans (hm.failed ho)⟩

theorem failed_report {f : Finding} (hf : f.kind.severity = .error) (line : Nat) (m : Machine) :
    ((report f line).run m).2.Failed := by
  have hrecord := Diagnostics.hasErrors_record (some m.diagnostics.site) (f.onLine line)
    m.diagnostics
  have herror : (f.onLine line).isError = true := decide_eq_true hf
  rw [herror, Bool.or_true] at hrecord
  exact hrecord

/-- Behind a report every error that is owed is recorded. -/
theorem Tells.report {f : Finding} (hf : f.kind.severity = .error) (line : Nat)
    {owes : Unit → Prop} : Tells owed (report f line) (fun _ => True) owes :=
  Triple.modify fun m hm => ⟨hm.regular, trivial, hm.regular, fun _ => failed_report hf line m⟩

theorem Tells.report_bind {f : Finding} (hf : f.kind.severity = .error) (line : Nat)
    {g : Unit → Exec α} (hg : Tells True (g ()) good owes) :
    Tells owed (Exec.report f line >>= g) good owes := by
  have hreport : Tells owed (Exec.report f line) (fun _ => True) fun _ => True := .report hf line
  exact hreport.bind fun _ _ => hg

/-! ### Steps that keep what is owed -/

/-- A step from regular states keeps to them, gives a good result and takes no error back. -/
def Steady (x : Exec α) (good : α → Prop) : Prop := ∀ owed, Tells owed x good fun _ => owed

theorem Steady.pure {a : α} (ha : good a) : Steady (pure a : Exec α) good :=
  fun _ => .pure ha id

theorem Steady.bind {f : α → Exec β} {good' : β → Prop} (hx : Steady x good)
    (hf : ∀ a, good a → Steady (f a) good') : Steady (x >>= f) good' :=
  fun owed => (hx owed).bind fun a ha => hf a ha owed

theorem Steady.weaken (h : Steady x good) (hgood : ∀ a, good a → good' a) : Steady x good' :=
  fun owed => (h owed).mono id hgood fun _ => id

theorem Steady.report (f : Finding) (line : Nat) : Steady (report f line) fun _ => True :=
  fun _ => Triple.modify fun _ hm =>
    ⟨hm.regular, trivial, hm.regular, fun ho => failed_record (hm.failed ho)⟩

theorem Steady.forM {f : α → Exec PUnit} {as : List α}
    (h : ∀ a ∈ as, Steady (f a) fun _ => True) : Steady (as.forM f) fun _ => True := by
  induction as with
  | nil => exact .pure trivial
  | cons a as ih =>
    rw [List.forall_mem_cons] at h
    exact h.1.bind fun _ _ => ih h.2

/-! ### Steps that give a value or owe an error -/

/-- A step from regular states gives a good value, or an error is recorded behind it. -/
def Explains (x : Exec (Option α)) (good : α → Prop) : Prop :=
  ∀ owed, Tells owed x (fun r => ∀ a, r = some a → good a) fun r => owed ∨ r = none

theorem Explains.result {a : α} (ha : good a) : Explains (pure (some a)) good := by
  refine fun owed => .pure ?_ (fun h => h.resolve_right nofun)
  rintro _ ⟨⟩
  exact ha

theorem Explains.reject {f : Finding} (hf : f.kind.severity = .error) (line : Nat) :
    Explains (reject f line) good :=
  fun _ => .report_bind hf line (.pure nofun fun _ => trivial)

theorem Explains.tells {x : Exec (Option α)} (h : Explains x good) (howed : owed → owed') :
    Tells owed' x (fun r => ∀ a, r = some a → good a) fun r => owed ∨ r = none :=
  (h owed').mono id (fun _ => id) fun _ => Or.imp_left howed

theorem Steady.explains {f : α → Exec (Option β)} {good' : β → Prop} (hx : Steady x good)
    (hf : ∀ a, good a → Explains (f a) good') : Explains (x >>= f) good' :=
  fun owed => (hx owed).bind fun a ha => hf a ha owed

/-- A step that is given up if the first one gives nothing. -/
theorem Explains.bind {x : Exec (Option α)} {f : Option α → Exec (Option β)} {good' : β → Prop}
    (hx : Explains x good) (hnone : f none = Pure.pure none)
    (hf : ∀ a, good a → Explains (f (some a)) good') : Explains (x >>= f) good' := by
  refine fun owed => (hx owed).bind fun r hr => ?_
  cases r with
  | none =>
    rw [hnone]
    exact .pure nofun fun h => h.imp_right fun _ => rfl
  | some a => exact (hf a (hr a rfl)).tells .inl

theorem Explains.steady {x : Exec (Option α)} {f : Option α → Exec β} {good' : β → Prop}
    (hx : Explains x good)
    (hf : ∀ r, (∀ a, r = some a → good a) → Steady (f r) good') :
    Steady (x >>= f) good' :=
  fun owed => (hx owed).bind fun r hr => (hf r hr _).mono id (fun _ => id) fun _ => .inl

/-! ### Scopes -/

theorem steady_lookup (name : String) :
    Steady (lookup name) fun r => ∀ b, r = some b → b.Regular := by
  refine fun owed => .modifyGet (fun m hm => ?_) fun _ => rfl
  have hmarked : (m.scopes.adjust name Binding.marked).All Binding.Regular :=
    hm.adjust name fun _ hb => hb.marked
  exact ⟨hmarked, fun b hb => hmarked.peek? hb⟩

theorem steady_adjust (name : String) {f : Binding → Binding}
    (hf : ∀ b, b.Regular → (f b).Regular) :
    Steady (modify fun m => { m with scopes := m.scopes.adjust name f } : Exec PUnit)
      fun _ => True :=
  fun _ => .modifyGet (fun _ hm => ⟨hm.adjust name hf, trivial⟩) fun _ => rfl

theorem steady_store (name : String) {v : Value} (hv : v.Regular) :
    Steady (store name v) fun _ => True :=
  steady_adjust name fun _ hb => hb.withValue hv

/-- A step that knows the state it is taken from. -/
theorem Steady.bind_get {f : Machine → Exec α}
    (h : ∀ m owed, m.Owing owed →
      Triple Regular (· = m) (f m) fun a n => good a ∧ n.Owing owed) :
    Steady (get >>= f) good :=
  fun owed => Triple.bind_get fun m hm => h m owed hm

theorem Steady.at (h : Steady x good) {m : Machine} (hm : m.Owing owed) :
    Triple Regular (· = m) x fun a n => good a ∧ n.Owing owed := by
  refine Triple.mono (h owed) ?_ fun _ _ h => h
  rintro _ rfl
  exact hm

theorem triple_set {m n : Machine} (hregular : n.Regular)
    (hsame : n.diagnostics.hasErrors = m.diagnostics.hasErrors) (hm : m.Owing owed) :
    Triple Regular (· = m) (set n : Exec PUnit) fun _ n => True ∧ n.Owing owed :=
  Triple.set fun _ _ => ⟨hregular, trivial, hregular, fun ho => hsame.trans (hm.failed ho)⟩

theorem steady_declare {b : Binding} (hb : b.Regular) : Steady (declare b) fun _ => True := by
  refine .bind_get fun m owed hm => ?_
  split
  · next scopes hscopes => exact triple_set (hm.regular.declare hb hscopes) rfl hm
  · exact (Steady.report _ _).at hm

theorem steady_declareFunction {f : Function} (hf : f.Regular) :
    Steady (declareFunction f) fun _ => True := by
  refine .bind_get fun m owed hm => ?_
  split
  · next scopes hscopes =>
    exact triple_set (hm.regular.declareGlobal (Binding.regular_function hf) hscopes) rfl hm
  · exact (Steady.report _ _).at hm

theorem steady_reportOnce (f : Finding) (line : Nat) :
    Steady (reportOnce f line) fun _ => True :=
  fun _ => Triple.modify fun _ hm =>
    ⟨hm.regular, trivial, hm.regular, fun ho => failed_record (hm.failed ho)⟩

theorem steady_closeScope : Steady closeScope fun _ => True := by
  refine .bind_get fun m owed hm => ?_
  split
  · exact (Steady.pure trivial).at hm
  · next scope scopes hpop =>
    have hregular : Regular { m with scopes } := by
      unfold ScopeStack.pop? at hpop
      split at hpop
      · next hinner =>
        obtain ⟨rfl, rfl⟩ := Prod.mk.inj (Option.some.inj hpop)
        exact hm.regular.pop hinner
      · cases hpop
    have hset : Triple Regular (· = m) (set { m with scopes } : Exec PUnit)
        fun _ n => True ∧ n.Owing owed := triple_set hregular rfl hm
    refine hset.bind fun _ => ?_
    have hrest : Steady (unless (scope.kind = .global || scope.kind = .entry) do
        scope.unused.forM fun b => Exec.reportOnce (.unusedVariable b.name) b.line)
        fun _ => True := by
      split
      · exact .pure trivial
      · exact .forM fun _ _ => steady_reportOnce _ _
    exact fun n hn => hrest owed n hn.2

theorem Tells.inScope (h : Tells owed x good owes) (kind : Scope.Kind) :
    Tells owed (inScope (·.push kind) x) good owes := by
  have hopen : Tells owed
      (modify fun m => { m with scopes := m.scopes.push kind } : Exec PUnit)
      (fun _ => True) fun _ => owed :=
    .modifyGet (fun _ hm => ⟨hm.push kind .outer, trivial⟩) fun _ => rfl
  refine hopen.bind fun _ _ => h.bind fun a ha => ?_
  exact (steady_closeScope (owes a)).bind fun _ _ => .pure ha id

theorem Tells.inCall (h : Tells owed x good owes) : Tells owed (inCall x) good owes := by
  have hopen : Tells owed (modify fun m => { m with
      scopes := m.scopes.pushFunction, callDepth := m.callDepth + 1 } : Exec PUnit)
      (fun _ => True) fun _ => owed :=
    .modifyGet (fun _ hm => ⟨hm.push .function .global, trivial⟩) fun _ => rfl
  refine hopen.bind fun _ _ => h.bind fun a ha => ?_
  have hclose : Tells (owes a)
      (modify fun m =>
        let m := (closeScope.run m).2
        { m with callDepth := m.callDepth - 1 } : Exec PUnit) (fun _ => True) fun _ => owes a := by
    refine Triple.modify fun m hm => ?_
    have hclosed := (steady_closeScope (owes a) m hm).2.2
    exact ⟨hclosed.regular, trivial, hclosed.regular, hclosed.failed⟩
  exact hclose.bind fun _ _ => .pure ha id

theorem Tells.atSite (h : Tells owed x good owes) (site : Site) :
    Tells owed (atSite site x) good owes := by
  refine Triple.bind_get fun m hm => ?_
  have henter : ∀ owed site, Tells owed
      (modify fun m => { m with diagnostics := m.diagnostics.enter site } : Exec PUnit)
      (fun _ => True) fun _ => owed :=
    fun _ _ => .modifyGet (fun _ hm => ⟨hm, trivial⟩) fun _ => rfl
  have hrest := (henter owed site).bind fun _ _ => h.bind fun a ha =>
    (henter (owes a) m.diagnostics.site).bind fun _ _ => Tells.pure ha id
  refine Triple.mono hrest ?_ fun _ _ h => h
  rintro _ rfl
  exact hm

/-! ### Reading -/

theorem explains_readVariable (name : String) (line : Nat) :
    Explains (readVariable name line) Value.Regular := by
  refine (steady_lookup name).explains fun r hr => ?_
  cases r with
  | none => exact .reject rfl line
  | some b =>
    dsimp only
    split
    · exact .reject rfl line
    · split
      · next v hv => exact .result ((hr b rfl).value v hv)
      · exact .reject rfl line

theorem regular_elementAt? {v : Option Value} (hv : ∀ w, v = some w → w.Regular) {index : Int}
    {w : Value} (h : elementAt? v index = some w) : w.Regular := by
  obtain ⟨items, rfl, -, hget⟩ := elementAt?_eq_some h
  exact Value.regular_recipe.1 (hv _ rfl) w (List.mem_of_getElem? hget)

theorem explains_readElement (name : String) (index : Int) (line : Nat) :
    Explains (readElement name index line) Value.Regular := by
  refine (steady_lookup name).explains fun r hr => ?_
  cases r with
  | none => exact .reject rfl line
  | some b =>
    dsimp only
    split
    · split
      · next v hv => exact .result (regular_elementAt? (hr b rfl).value hv)
      · exact .reject rfl line
    · exact .reject rfl line

theorem explains_checkType (target : ValueType) {v : Value} (hv : v.Regular) (use : Finding.Use)
    (line : Nat) : Explains (checkType target v use line) Value.Regular := by
  unfold checkType
  split
  · exact .result hv
  · exact .reject rfl line

theorem explains_resolveFunction (name : String) (line : Nat) :
    Explains (resolveFunction name line) Function.Regular := by
  refine (steady_lookup name).explains fun r hr => ?_
  cases r with
  | none => exact .reject rfl line
  | some b =>
    dsimp only
    split
    · next f hf => exact .result ((hr b rfl).function f hf)
    · exact .reject rfl line

/-! ### Operators -/

theorem explains_integerArithmetic (limits : Limits) (op : BinaryOp) (a b : Int) (line : Nat) :
    Explains (integerArithmetic limits op a b line) Value.Regular := by
  unfold integerArithmetic
  split
  · exact .reject rfl line
  · split
    · exact .reject rfl line
    · split
      · exact .result (Value.regular_pinch _)
      · exact .reject rfl line

/-- A result that is not finite is an error, so that none is no number. -/
theorem explains_fractionArithmetic (op : BinaryOp) (x y : Binary64) (line : Nat) :
    Explains (fractionArithmetic op x y line) Value.Regular := by
  unfold fractionArithmetic
  split
  · exact .reject rfl line
  · split
    · next hfinite => exact .result (Value.regular_skim.2 (Binary64.isNaN_of_isFinite hfinite))
    · exact .reject rfl line

theorem explains_arithmetic (limits : Limits) (op : BinaryOp) (left right : Value) (line : Nat) :
    Explains (arithmetic limits op left right line) Value.Regular := by
  unfold arithmetic
  split
  · split
    · exact .result (Value.regular_pasta _)
    · exact .reject rfl line
  · exact explains_integerArithmetic _ _ _ _ _
  · split
    · exact explains_fractionArithmetic _ _ _ _
    · exact .reject rfl line

theorem explains_equality (op : BinaryOp) (left right : Value) (line : Nat) :
    Explains (equality op left right line) fun _ => True := by
  unfold equality
  split
  · exact .result trivial
  · split
    · exact .result trivial
    · split
      · exact .result trivial
      · exact .reject rfl line

/-- Regular values have an order, so that the silent way out is not taken. -/
theorem explains_order (op : BinaryOp) {left right : Value} (hleft : left.Regular)
    (hright : right.Regular) (line : Nat) :
    Explains (order op left right line) fun _ => True := by
  unfold order
  split
  · exact .result trivial
  · exact .result trivial
  · split
    · next x y hx hy =>
      obtain ⟨o, ho⟩ := Binary64.exists_compare? (hleft.isNaN hx) (hright.isNaN hy)
      rw [ho]
      exact .result trivial
    · exact .reject rfl line

theorem Explains.map {x : Exec (Option α)} (hx : Explains x fun _ => True) (g : α → Value)
    (hg : ∀ a, (g a).Regular) : Explains (x >>= fun r => return r.map g) Value.Regular :=
  hx.bind rfl fun a _ => .result (hg a)

theorem explains_applyBinary (limits : Limits) (op : BinaryOp) {left right : Value}
    (hleft : left.Regular) (hright : right.Regular) (line : Nat) :
    Explains (applyBinary limits op left right line) Value.Regular := by
  have hequality := explains_equality op left right line
  have horder := explains_order op hleft hright line
  unfold applyBinary
  cases op with
  | add | sub | mul | div | mod => exact explains_arithmetic _ _ _ _ _
  | equal | notEqual => exact hequality.map _ fun _ => Value.regular_bool _
  | less | greater | lessEqual | greaterEqual => exact horder.map _ fun _ => Value.regular_bool _
  | both | either =>
    dsimp only
    split
    · exact .result (Value.regular_bool _)
    · exact .reject rfl line

theorem explains_applyNegation (symbol : String) (f : Bool → Bool) (v : Value) (line : Nat) :
    Explains (applyNegation symbol f (some v) line) Value.Regular := by
  unfold applyNegation
  split
  · next h => cases h
  · exact .result (Value.regular_bool _)
  · exact .reject rfl line

/-! ### Expressions -/

/-- Calls of regular functions give a regular value, or an error is recorded, unless the function
has no result.  An error is owed already if an argument has no value. -/
def Answers (call : Call) : Prop :=
  ∀ ⦃f : Function⦄ ⦃args : List (Option Value)⦄ (line : Nat) ⦃owed : Prop⦄, f.Regular →
    (∀ v, some v ∈ args → v.Regular) → (none ∈ args → owed) →
    Tells owed (call f line args) (fun r => ∀ v, r = some v → v.Regular)
      fun r => owed ∨ (f.returns.isSome ∧ r = none)

variable {limits : Limits} {call : Call}

mutual
/-- A regular expression has a regular value, or an error is recorded. -/
theorem explains_evaluate (hcall : Answers call) (e : Expr) (he : Word.AllRegular e.words) :
    Explains (evaluate limits call e) Value.Regular := by
  match e with
  | .literal v line =>
    rw [Expr.words, Word.allRegular_cons] at he
    exact .result he.1
  | .var name line => exact explains_readVariable name line
  | .element name index line => exact explains_readElement name index line
  | .call name args line =>
    rw [Expr.words, Word.allRegular_cons] at he
    refine (explains_resolveFunction name line).bind rfl fun f hf => ?_
    dsimp only
    split
    · exact .reject rfl line
    · next hreturns =>
      intro owed
      refine (tells_evaluateAll hcall args he.2 owed).bind fun values hvalues => ?_
      have hsome : f.returns.isSome = true := by
        simpa [Option.isSome_iff_ne_none] using hreturns
      refine (hcall line hf hvalues .inr).mono id (fun _ => id) fun r hr => ?_
      exact hr.imp .inl fun hnone => ⟨hsome, hnone⟩
  | .binary op left right line =>
    rw [Expr.words, Word.allRegular_append] at he
    intro owed
    refine (explains_evaluate hcall left he.1 owed).bind fun l hl => ?_
    refine (explains_evaluate hcall right he.2 _).bind fun r hr => ?_
    -- the errors of both operands are owed here
    cases l with
    | none => exact .pure nofun fun h => .inl (h.imp_right fun _ => rfl)
    | some l =>
      cases r with
      | none => exact .pure nofun fun h => .inr rfl
      | some r =>
        exact (explains_applyBinary limits op (hl l rfl) (hr r rfl) line).tells fun h =>
          .inl (.inl h)
  | .not operand line =>
    exact (explains_evaluate hcall operand he).bind rfl fun v _ => explains_applyNegation _ _ v _
  | .doubleNot operand line =>
    exact (explains_evaluate hcall operand he).bind rfl fun v _ => explains_applyNegation _ _ v _

theorem tells_evaluateAll (hcall : Answers call) (es : List Expr)
    (hes : Word.AllRegular (Expr.wordsAll es)) (owed : Prop) :
    Tells owed (evaluateAll limits call es) (fun vs => ∀ v, some v ∈ vs → v.Regular)
      fun vs => owed ∨ none ∈ vs := by
  match es with
  | [] => exact .pure nofun fun h => h.resolve_right nofun
  | e :: rest =>
    rw [Expr.wordsAll, Word.allRegular_append] at hes
    refine (explains_evaluate hcall e hes.1 owed).bind fun r hr => ?_
    refine (tells_evaluateAll hcall rest hes.2 _).bind fun vs hvs => ?_
    refine .pure (fun v hv => ?_) fun h => ?_
    · rcases List.mem_cons.1 hv with heq | hv
      · exact hr v heq.symm
      · exact hvs v hv
    · rcases h with h | h
      · exact .inl (.inl h)
      · rcases List.mem_cons.1 h with heq | h
        · exact .inl (.inr heq.symm)
        · exact .inr h
end

theorem steady_test (hcall : Answers call) {condition : Expr}
    (h : Word.AllRegular condition.words) :
    Steady (test limits call condition) fun _ => True := by
  refine (explains_evaluate hcall condition h).steady fun r _ => ?_
  split
  · exact .pure trivial
  · exact (Steady.report _ _).bind fun _ _ => .pure trivial
  · exact .pure trivial

/-! ### Stores -/

theorem explains_resolveSlot (target : Place) (line : Nat) :
    Explains (resolveSlot target line) fun slot =>
      match slot with
      | .scalar _ current => ∀ v, current = some v → v.Regular
      | .whole .. => True
      | .element _ _ current => current.Regular := by
  refine (steady_lookup target.name).explains fun r hr => ?_
  cases r with
  | none => exact .reject rfl line
  | some b =>
    have hvalue := (hr b rfl).value
    dsimp only
    split
    · exact .result hvalue
    · exact .result trivial
    · exact .reject rfl line
    · split
      · next hitem => exact .result (regular_elementAt? hvalue hitem)
      · exact .reject rfl line
    · exact .reject rfl line

theorem explains_combine (limits : Limits) (op : AssignOp) {current : Option Value}
    (hcurrent : ∀ v, current = some v → v.Regular) {v : Value} (hv : v.Regular) (name : String)
    (line : Nat) : Explains (combine limits op current v name line) Value.Regular := by
  unfold combine
  cases op.binary? with
  | none => exact .result hv
  | some binary =>
    cases current with
    | none => exact .reject rfl line
    | some current => exact explains_applyBinary limits binary (hcurrent current rfl) hv line

/-- A value is computed and checked, and the step goes on with it, or it is given up. -/
def withChecked (x : Exec (Option Value)) (target : ValueType) (use : Finding.Use) (line : Nat)
    (given : β) (f : Value → Exec β) : Exec β := do
  let some next ← x | return given
  let some next ← checkType target next use line | return given
  f next

theorem Explains.withChecked {x : Exec (Option Value)} (hx : Explains x Value.Regular)
    (target : ValueType) (use : Finding.Use) (line : Nat) {given : β} {f : Value → Exec β}
    {good : β → Prop} (hgiven : good given) (hf : ∀ v, v.Regular → Steady (f v) good) :
    Steady (withChecked x target use line given f) good := by
  refine hx.steady fun r hr => ?_
  cases r with
  | none => exact .pure hgiven
  | some next =>
    refine (explains_checkType target (hr next rfl) use line).steady fun r hr => ?_
    cases r with
    | none => exact .pure hgiven
    | some next => exact hf next (hr next rfl)

theorem fillSlot_scalar (limits : Limits) (name : String) (op : AssignOp) (v : Value) (line : Nat)
    (target : ValueType) (current : Option Value) :
    fillSlot limits name op v line (.scalar target current) =
      withChecked (combine limits op current v name line) target (.assignment name) line ()
        (store name) := rfl

theorem fillSlot_element (limits : Limits) (name : String) (op : AssignOp) (v : Value) (line : Nat)
    (element : ValueType) (index : Nat) (current : Value) :
    fillSlot limits name op v line (.element element index current) =
      withChecked (combine limits op (some current) v name line) element
        (.elementAssignment name index) line () fun next =>
          modify fun m => { m with scopes := m.scopes.adjust name (replaceElement index next) } :=
  rfl

theorem steady_assign (limits : Limits) (target : Place) (op : AssignOp) {v : Option Value}
    (hv : ∀ w, v = some w → w.Regular) (line : Nat) :
    Steady (assign limits target op v line) fun _ => True := by
  refine (explains_resolveSlot target line).steady fun r hr => ?_
  cases r with
  | none => exact .pure trivial
  | some slot =>
    cases v with
    | none => exact .pure trivial
    | some v =>
      have hv := hv v rfl
      have hslot := hr slot rfl
      cases slot with
      | scalar type current =>
        exact (explains_combine limits op hslot hv _ line).withChecked _ _ _ trivial
          fun next hnext => steady_store _ hnext
      | whole element dimension =>
        simp only [fillSlot]
        split
        · exact steady_store _ hv
        · exact .report _ _
      | element element index current =>
        have hcurrent : ∀ w, some current = some w → w.Regular := by
          rintro _ ⟨⟩
          exact hslot
        exact (explains_combine limits op hcurrent hv _ line).withChecked _ _ _ trivial
          fun next hnext => steady_adjust _ fun _ hb => hb.replaceElement hnext index

theorem steady_takeStep (limits : Limits) (name : String) (op : StepOp) (line : Nat) :
    Steady (takeStep limits name op line) fun _ => True := by
  have hreport : ∀ f : Finding, Steady (Exec.report f line >>= fun _ => return false)
      fun _ => True := fun f => (Steady.report f line).bind fun _ _ => .pure trivial
  refine (steady_lookup name).bind fun r hr => ?_
  cases r with
  | none => exact hreport _
  | some b =>
    dsimp only
    split
    · next _ current _ hcurrent =>
      split
      · exact hreport _
      · have hvalue := (hr b rfl).value current hcurrent
        refine (explains_applyBinary limits op.binary hvalue (Value.regular_pinch 1)
          line).withChecked _ _ _ trivial fun next hnext => ?_
        exact (steady_store name hnext).bind fun _ _ => .pure trivial
    · exact hreport _
    · exact hreport _

theorem regular_readInput? {type : ValueType} {text : String} {range : IntegerRange} {v : Value}
    (h : readInput? type text range = some v) : v.Regular := by
  cases type with
  | pinch =>
    rw [readInput?, Option.map_eq_some_iff] at h
    obtain ⟨n, -, rfl⟩ := h
    exact Value.regular_pinch n
  | skim =>
    rw [readInput?, Option.map_eq_some_iff] at h
    obtain ⟨x, hx, rfl⟩ := h
    exact Value.regular_skim.2 (Binary64.isNaN_of_isFinite (Option.filter_eq_some_iff.1 hx).2)
  | pasta =>
    obtain rfl := Option.some.inj h
    exact Value.regular_pasta text
  | bool =>
    simp only [readInput?] at h
    split at h
    · obtain rfl := Option.some.inj h
      exact Value.regular_bool true
    · split at h
      · obtain rfl := Option.some.inj h
        exact Value.regular_bool false
      · cases h
  | recipe => cases h

theorem steady_ask (name : String) : Steady (ask name) fun _ => True :=
  fun _ => .modifyGet (fun _ hm => ⟨hm, trivial⟩) fun _ => rfl

theorem steady_readInput (limits : Limits) (name : String) (line : Nat) :
    Steady (readInput limits name line) fun _ => True := by
  refine (steady_lookup name).bind fun r _ => ?_
  cases r with
  | none => exact .report _ _
  | some b =>
    dsimp only
    split
    · refine (steady_ask name).bind fun r _ => ?_
      cases r with
      | none => exact .report _ _
      | some text =>
        dsimp only
        split
        · next hv => exact steady_store name (regular_readInput? hv)
        · exact .report _ _
    · exact .report _ _

/-! ### Declarations -/

theorem steady_declareVariable (type : ValueType) {d : Declarator}
    (hd : Word.AllRegular d.words) : Steady (declareVariable type d) fun _ => True := by
  rw [Declarator.words, Word.allRegular_cons] at hd
  unfold declareVariable
  cases hinit : d.init with
  | none =>
    have hnone : Steady (pure none : Exec (Option Value)) fun r => ∀ v, r = some v → v.Regular :=
      .pure nofun
    exact hnone.bind fun r hr => steady_declare (Binding.regular_scalar _ _ _ hr)
  | some init =>
    rw [hinit] at hd
    have hvalue : init.toValue.Regular := hd.2 _ List.mem_cons_self
    exact (explains_checkType type hvalue _ _).steady fun r hr =>
      steady_declare (Binding.regular_scalar _ _ _ hr)

theorem steady_arrayElements (element : ValueType) (name : String) (line : Nat)
    {literals : List Literal} (h : ∀ l ∈ literals, l.toValue.Regular) :
    Steady (arrayElements element name line literals) fun vs => ∀ v ∈ vs, v.Regular := by
  induction literals with
  | nil => exact .pure nofun
  | cons l rest ih =>
    rw [List.forall_mem_cons] at h
    refine (explains_checkType element h.1 _ line).steady fun r hr => ?_
    refine (ih h.2).bind fun vs hvs => .pure (List.forall_mem_cons.2 ⟨?_, hvs⟩)
    cases r with
    | none => exact Value.regular_default element
    | some v => exact hr v rfl

theorem steady_declareArray (limits : Limits) {a : ArrayDeclaration}
    (ha : Word.AllRegular (Declaration.array a).words) :
    Steady (declareArray limits a) fun _ => True := by
  simp only [Declaration.words, Word.allRegular_cons] at ha
  have hempty : ∀ v ∈ ([] : List Value), v.Regular := List.forall_mem_nil _
  unfold declareArray
  dsimp only
  split
  · exact (Steady.report _ _).bind fun _ _ => steady_declare (Binding.regular_array _ _ _ _ hempty)
  · next dimension _ =>
    have hfill : ∀ given : List Value, (∀ v ∈ given, v.Regular) →
        Steady (Exec.declare ((Binding.array a.name a.element.valueType dimension a.line).withValue
          (.recipe (given ++ List.replicate (dimension - given.length)
            (Value.default a.element.valueType))))) fun _ => True := by
      intro given hgiven
      refine steady_declare (Binding.regular_array _ _ _ _ fun v hv => ?_)
      rcases List.mem_append.1 hv with hv | hv
      · exact hgiven v hv
      · rw [List.eq_of_mem_replicate hv]
        exact Value.regular_default _
    split
    · exact (Steady.pure hempty).bind hfill
    · next literals hliterals =>
      rw [hliterals] at ha
      have hvalues : ∀ l ∈ literals.take dimension, l.toValue.Regular := by
        intro l hl
        exact ha.2.2 (.literal l)
          (List.mem_flatMap.2 ⟨l, List.mem_of_mem_take hl, List.mem_cons_self⟩)
      have helements := (steady_arrayElements a.element.valueType a.name a.line hvalues).bind hfill
      split
      · exact (Steady.report _ _).bind fun _ _ => helements
      · split
        · exact (Steady.report _ _).bind fun _ _ => helements
        · exact helements

theorem steady_declareAll (limits : Limits) (site : Site) (i : Nat) {ds : List Declaration}
    (hds : Word.AllRegular (ds.flatMap Declaration.words)) :
    Steady (declareAll limits site i ds) fun _ => True := by
  induction ds generalizing i with
  | nil => exact .pure trivial
  | cons d ds ih =>
    rw [List.flatMap_cons, Word.allRegular_append] at hds
    have hone : Steady (declareOne limits d) fun _ => True := by
      match d with
      | .variables type declarators =>
        exact .forM fun d hd => steady_declareVariable _ (Word.allRegular_flatMap.1 hds.1 d hd)
      | .array a => exact steady_declareArray limits hds.1
    exact Steady.bind (fun owed => (hone owed).atSite _) fun _ _ => ih _ hds.2

/-! ### Statements -/

theorem steady_callStatement (hcall : Answers call) (name : String) {args : List Expr}
    (hargs : Word.AllRegular (Expr.wordsAll args)) (line : Nat) :
    Steady (callStatement limits call name args line) fun _ => True := by
  refine (explains_resolveFunction name line).steady fun r hr => ?_
  cases r with
  | none => exact .pure trivial
  | some f =>
    intro owed
    refine (tells_evaluateAll hcall args hargs owed).bind fun values hvalues => ?_
    refine (hcall line (hr f rfl) hvalues .inr).bind fun _ _ => ?_
    exact .pure trivial fun ho => .inl (.inl ho)

theorem steady_serveParts (hcall : Answers call) {parts : List Expr}
    (hparts : Word.AllRegular (Expr.wordsAll parts)) (line : Nat) :
    Steady (serveParts limits call parts line) fun _ => True := by
  intro owed
  refine (tells_evaluateAll hcall parts hparts owed).bind fun values _ => ?_
  cases allValues values with
  | none => exact .pure trivial .inl
  | some values =>
    have hserve : Steady (modify fun m => { m with
        output := m.output.serve (values.foldl (fun text v => text ++ v.render) "") line } :
          Exec PUnit) fun _ => True :=
      fun _ => .modifyGet (fun _ hm => ⟨hm, trivial⟩) fun _ => rfl
    exact (hserve _).mono id (fun _ => id) fun _ => .inl

/-- A counting loop begins with a value for its variable, or an error is recorded; one is there
already if there is no value to begin with. -/
theorem tells_beginFor (declares : Bool) (var : String) {initial : Option Value}
    (hinitial : ∀ v, initial = some v → v.Regular) (hnone : initial = none → owed) (line : Nat) :
    Tells owed (beginFor declares var initial line) (fun _ => True)
      fun begun => owed ∨ begun = false := by
  have hreport : ∀ f : Finding, f.kind.severity = .error →
      Tells owed (Exec.report f line >>= fun _ => return false) (fun _ => True)
        fun begun => owed ∨ begun = false :=
    fun f hf => .report_bind hf line (.pure trivial fun _ => trivial)
  unfold beginFor
  split
  · -- whether there is a value or not, the variable is declared
    have hdeclare : ∀ value : Option Value, (∀ v, value = some v → v.Regular) →
        Tells (owed ∨ value = none)
          (Exec.declare { Binding.scalar var .pinch line with value } >>= fun _ =>
            return value.isSome) (fun _ => True) fun begun => owed ∨ begun = false := by
      intro value hvalue
      refine (steady_declare (Binding.regular_scalar _ _ _ hvalue) _).bind fun _ _ => ?_
      exact .pure trivial fun h => h.imp_right fun h => by simpa using h
    unfold declareLoopVariable
    cases initial with
    | none =>
      have hgiven : Tells owed (pure none : Exec (Option Value))
          (fun r => ∀ v, r = some v → v.Regular) fun r => owed ∨ r = none :=
        .pure nofun fun _ => hnone rfl
      exact hgiven.bind hdeclare
    | some v => exact (explains_checkType .pinch (hinitial v rfl) _ line owed).bind hdeclare
  · refine (steady_lookup var owed).bind fun r _ => ?_
    cases r with
    | none => exact hreport _ rfl
    | some b =>
      dsimp only
      split
      · cases initial with
        | none => exact .pure trivial fun _ => hnone rfl
        | some v =>
          refine (explains_checkType _ (hinitial v rfl) _ line owed).bind fun r hr => ?_
          cases r with
          | none => exact .pure trivial fun _ => .inr rfl
          | some v =>
            refine (steady_store var (hr v rfl) _).bind fun _ _ => ?_
            exact .pure trivial fun h => .inl (h.resolve_right nofun)
      · exact hreport _ rfl

theorem Steady.repeatWhile {test pass : Exec Bool} (htest : Steady test fun _ => True)
    (hpass : Steady pass fun _ => True) (f : Finding) (line passes : Nat) :
    Steady (repeatWhile test pass (Exec.report f line) passes) fun _ => True := by
  induction passes with
  | zero =>
    refine htest.bind fun b _ => ?_
    cases b with
    | false => exact .pure trivial
    | true => exact .report f line
  | succ passes ih =>
    refine htest.bind fun b _ => ?_
    cases b with
    | false => exact .pure trivial
    | true =>
      refine hpass.bind fun goesOn _ => ?_
      cases goesOn with
      | false => exact .pure trivial
      | true => exact ih

theorem Steady.repeatUntil {pass : Exec Unit} {test : Exec Bool}
    (hpass : Steady pass fun _ => True) (htest : Steady test fun _ => True) (f : Finding)
    (line passes : Nat) :
    Steady (repeatUntil pass test (Exec.report f line) passes) fun _ => True := by
  induction passes with
  | zero => exact .report f line
  | succ passes ih =>
    refine hpass.bind fun _ _ => htest.bind fun b _ => ?_
    cases b with
    | false => exact .pure trivial
    | true => exact ih

theorem Steady.atSite (h : Steady x good) (site : Site) : Steady (atSite site x) good :=
  fun owed => (h owed).atSite site

theorem Steady.inScope (h : Steady x good) (kind : Scope.Kind) :
    Steady (inScope (·.push kind) x) good :=
  fun owed => (h owed).inScope kind

mutual
/-- A regular statement keeps to regular states and takes no error back. -/
theorem steady_execute (hcall : Answers call) (site : Site) (s : Statement)
    (hs : Word.AllRegular s.words) : Steady (execute limits call site s) fun _ => True := by
  match s with
  | .call name args line =>
    rw [Statement.words, Word.allRegular_cons] at hs
    exact (steady_callStatement hcall name hs.2 line).atSite site
  | .assign target op value line =>
    rw [Statement.words, Word.allRegular_append] at hs
    exact ((explains_evaluate hcall value hs.2).steady fun r hr =>
      steady_assign limits target op hr line).atSite site
  | .step name op line =>
    exact ((steady_takeStep limits name op line).bind fun _ _ => .pure trivial).atSite site
  | .taste branches otherwise line =>
    rw [Statement.words, Word.allRegular_append] at hs
    have hotherwise : Steady
        (executeOptional limits call (site.child branches.length) otherwise) fun _ => True :=
      steady_executeOptional hcall _ otherwise hs.2
    exact (steady_executeBranches hcall site 0 branches hs.1 hotherwise).atSite site
  | .flip subject cases otherwise line =>
    rw [Statement.words, Word.allRegular_cons, Word.allRegular_append] at hs
    refine ((explains_readVariable subject line).steady fun r _ => ?_).atSite site
    cases r with
    | none => exact .pure trivial
    | some v =>
      exact steady_executeCases hcall site subject v 0 cases hs.2.1
        (steady_executeOptional hcall _ otherwise hs.2.2)
  | .forLoop declares var init condition stepVar step body line =>
    rw [Statement.words, Word.allRegular_cons, Word.allRegular_append, Word.allRegular_append,
      Word.allRegular_cons] at hs
    obtain ⟨-, hinit, hcondition, -, hbody⟩ := hs
    have hbody := (steady_executeAll hcall site 0 body hbody).inScope .loop
    have htest : Steady (test limits call condition) fun _ => True := steady_test hcall hcondition
    have hloop := htest.repeatWhile
      (hbody.bind fun _ _ => steady_takeStep limits stepVar step line)
    intro owed
    refine Tells.atSite ((explains_evaluate hcall init hinit owed).bind fun r hr => ?_) site
    refine (tells_beginFor declares var hr .inr line).bind fun begun _ => ?_
    cases begun with
    | false => exact .pure trivial fun h => .inl (.inl h)
    | true => exact (hloop _ _ _ _).mono id (fun _ => id) fun _ h => .inl (.inl h)
  | .simmer condition body line =>
    rw [Statement.words, Word.allRegular_append] at hs
    have hbody := (steady_executeAll hcall site 0 body hs.2).inScope .loop
    exact ((steady_test hcall hs.1).repeatWhile (hbody.bind fun _ _ => .pure trivial) _ _ _).atSite
      site
  | .keepmix body condition line =>
    rw [Statement.words, Word.allRegular_append] at hs
    have hbody := (steady_executeAll hcall site 0 body hs.1).inScope .loop
    exact (hbody.repeatUntil (steady_test hcall hs.2) _ _ _).atSite site
  | .serve parts line => exact (steady_serveParts hcall hs line).atSite site
  | .make target line => exact (steady_readInput limits target line).atSite site

theorem steady_executeAll (hcall : Answers call) (site : Site) (i : Nat) (body : List Statement)
    (hbody : Word.AllRegular (Statement.wordsAll body)) :
    Steady (executeAll limits call site i body) fun _ => True := by
  match body with
  | [] => exact .pure trivial
  | s :: rest =>
    rw [Statement.wordsAll, Word.allRegular_append] at hbody
    exact (steady_execute hcall _ s hbody.1).bind fun _ _ =>
      steady_executeAll hcall site (i + 1) rest hbody.2

theorem steady_executeOptional (hcall : Answers call) (site : Site)
    (body : Option (List Statement)) (hbody : Word.AllRegular (Statement.optionalWords body)) :
    Steady (executeOptional limits call site body) fun _ => True := by
  match body with
  | none => exact .pure trivial
  | some body => exact (steady_executeAll hcall site 0 body hbody).inScope .branch

theorem steady_executeBranches (hcall : Answers call) (site : Site) (i : Nat)
    (branches : List Branch) (hbranches : Word.AllRegular (Branch.wordsAll branches))
    {otherwise : Exec Unit} (ho : Steady otherwise fun _ => True) :
    Steady (executeBranches limits call site i branches otherwise) fun _ => True := by
  match branches with
  | [] => exact ho
  | ⟨condition, body, _⟩ :: rest =>
    rw [Branch.wordsAll, Branch.words, Word.allRegular_append, Word.allRegular_append] at hbranches
    obtain ⟨⟨hcondition, hbody⟩, hrest⟩ := hbranches
    refine (steady_test hcall hcondition).bind fun b _ => ?_
    cases b with
    | false => exact steady_executeBranches hcall site (i + 1) rest hrest ho
    | true => exact (steady_executeAll hcall _ 0 body hbody).inScope .branch

theorem steady_executeCases (hcall : Answers call) (site : Site) (subject : String) (v : Value)
    (i : Nat) (cases : List Case) (hcases : Word.AllRegular (Case.wordsAll cases))
    {otherwise : Exec Unit} (ho : Steady otherwise fun _ => True) :
    Steady (executeCases limits call site subject v i cases otherwise) fun _ => True := by
  match cases with
  | [] => exact ho
  | ⟨value, body, line⟩ :: rest =>
    rw [Case.wordsAll, Case.words, Word.allRegular_append, Word.allRegular_cons] at hcases
    obtain ⟨⟨-, hbody⟩, hrest⟩ := hcases
    rw [executeCases]
    split
    · exact (Steady.report _ _).bind fun _ _ =>
        steady_executeCases hcall site subject v (i + 1) rest hrest ho
    · split
      · exact (steady_executeAll hcall _ 0 body hbody).inScope .branch
      · exact steady_executeCases hcall site subject v (i + 1) rest hrest ho
end

/-! ### Calls -/

theorem allValues_eq_none {vs : List (Option Value)} (h : allValues vs = none) : none ∈ vs := by
  induction vs with
  | nil => cases h
  | cons v vs ih =>
    cases v with
    | none => exact List.mem_cons_self
    | some v =>
      rw [allValues, Option.map_eq_none_iff] at h
      exact List.mem_cons_of_mem _ (ih h)

theorem allValues_eq_some {vs : List (Option Value)} {values : List Value}
    (h : allValues vs = some values) : vs = values.map some := by
  induction vs generalizing values with
  | nil =>
    obtain rfl := Option.some.inj h
    rfl
  | cons v vs ih =>
    cases v with
    | none => cases h
    | some v =>
      obtain ⟨rest, hrest, rfl⟩ := Option.map_eq_some_iff.1 h
      rw [List.map_cons, ih hrest]

theorem tells_checkArguments (f : Function) (line place : Nat) (parameters : List Parameter)
    {values : List Value} (hvalues : ∀ v ∈ values, v.Regular) (owed : Prop) :
    Tells owed (checkArguments f line place parameters values)
      (fun vs => ∀ v, some v ∈ vs → v.Regular) fun vs => owed ∨ none ∈ vs := by
  induction parameters generalizing place values owed with
  | nil => exact .pure nofun fun h => h.resolve_right nofun
  | cons p parameters ih =>
    cases values with
    | nil => exact .pure nofun fun h => h.resolve_right nofun
    | cons v values =>
      rw [List.forall_mem_cons] at hvalues
      refine (explains_checkType p.type.valueType hvalues.1 _ line owed).bind fun r hr => ?_
      refine (ih _ hvalues.2 _).bind fun vs hvs => .pure (fun w hw => ?_) fun h => ?_
      · rcases List.mem_cons.1 hw with heq | hw
        · exact hr w heq.symm
        · exact hvs w hw
      · rcases h with h | h
        · exact .inl (.inl h)
        · rcases List.mem_cons.1 h with heq | h
          · exact .inl (.inr heq.symm)
          · exact .inr h

theorem steady_bindParameters (parameters : List Parameter) {values : List Value}
    (hvalues : ∀ v ∈ values, v.Regular) :
    Steady (bindParameters parameters values) fun _ => True := by
  induction parameters generalizing values with
  | nil => exact .pure trivial
  | cons p parameters ih =>
    cases values with
    | nil => exact .pure trivial
    | cons v values =>
      rw [List.forall_mem_cons] at hvalues
      have hbinding : (Binding.scalar p.name p.type.valueType p.line).Regular :=
        Binding.regular_scalar _ _ _ nofun
      exact (steady_declare (hbinding.withValue hvalues.1)).bind fun _ _ => ih hvalues.2

/-- A function with a type has a result, so that the silent way out is not taken. -/
theorem tells_functionResult (hcall : Answers call) {f : Function} (hf : f.Regular) (site : Site)
    (owed : Prop) :
    Tells owed (functionResult limits call f site) (fun r => ∀ v, r = some v → v.Regular)
      fun r => owed ∨ (f.returns.isSome ∧ r = none) := by
  have hresult := hf.result
  have hwords := hf.words
  simp only [Function.words, Word.allRegular_cons, Word.allRegular_append] at hwords
  unfold functionResult
  split
  · next e type he _ =>
    rw [he] at hwords
    refine Tells.atSite ?_ site
    refine (explains_evaluate hcall e hwords.2.2.2.2 owed).bind fun r hr => ?_
    cases r with
    | none => exact .pure nofun fun h => h.imp_right And.right
    | some v =>
      have hchecked := explains_checkType type.valueType (hr v rfl) (.result f.name) e.line
      exact (hchecked _).mono id (fun _ => id) fun r hr => hr.imp .inl And.right
  · next hnot =>
    refine .pure nofun fun h => h.resolve_right fun hreturns => ?_
    obtain ⟨type, htype⟩ := Option.isSome_iff_exists.1 hreturns.1
    obtain ⟨e, he⟩ := Option.isSome_iff_exists.1 (hresult.symm.trans hreturns.1)
    exact hnot e type he htype

theorem tells_runBody (hcall : Answers call) {f : Function} (hf : f.Regular) {values : List Value}
    (hvalues : ∀ v ∈ values, v.Regular) (owed : Prop) :
    Tells owed (runBody limits call f values) (fun r => ∀ v, r = some v → v.Regular)
      fun r => owed ∨ (f.returns.isSome ∧ r = none) := by
  have hwords := hf.words
  simp only [Function.words, Word.allRegular_cons, Word.allRegular_append] at hwords
  refine Tells.inCall ((steady_bindParameters f.parameters hvalues owed).bind fun _ _ => ?_)
  refine (steady_declareAll limits _ 0 hwords.2.2.1 owed).bind fun _ _ => ?_
  refine (steady_executeAll hcall _ 0 f.body hwords.2.2.2.1 owed).bind fun _ _ => ?_
  exact tells_functionResult hcall hf _ owed

theorem severity_argumentCount (name : String) (expected given : Nat) :
    (Finding.argumentCount name expected given).kind.severity = .error := by
  simp only [Finding.kind]
  split <;> rfl

/-- Calls give a regular value, or an error is recorded, to whatever depth they may be nested. -/
theorem answers_invoke (limits : Limits) (depth : Nat) : Answers (invoke limits depth) := by
  -- a call that is refused has no value, whether the function has a result or not
  have hrefused : ∀ {f : Function} {g : Finding} (line : Nat) {owed : Prop},
      g.kind.severity = .error →
      Tells owed (reject g line) (fun r => ∀ v : Value, r = some v → v.Regular)
        fun r => owed ∨ (f.returns.isSome ∧ r = none) := fun line _ hg =>
    (Explains.reject hg line _).mono id (fun _ => id) fun _ h => h.imp_right And.right
  have hgiven : ∀ {f : Function} {owed owed' : Prop}, owed' →
      Tells owed' (pure none) (fun r => ∀ v : Value, r = some v → v.Regular)
        fun r => owed ∨ (f.returns.isSome ∧ r = none) := fun h => .pure nofun fun _ => h
  induction depth with
  | zero =>
    intro f args line owed hf hargs hnone
    unfold invoke
    split
    · exact hrefused line (severity_argumentCount _ _ _)
    · split
      · next hmissing => exact hgiven (hnone (allValues_eq_none hmissing))
      · exact hrefused line rfl
  | succ depth ih =>
    intro f args line owed hf hargs hnone
    unfold invoke
    split
    · exact hrefused line (severity_argumentCount _ _ _)
    · split
      · next hmissing => exact hgiven (hnone (allValues_eq_none hmissing))
      · next values hvalues =>
        obtain rfl := allValues_eq_some hvalues
        have hregular : ∀ v ∈ values, v.Regular := fun v hv => hargs v (List.mem_map_of_mem hv)
        refine (tells_checkArguments f line 1 f.parameters hregular owed).bind fun vs hvs => ?_
        split
        · next hmissing => exact hgiven (.inr (allValues_eq_none hmissing))
        · next values hvalues =>
          obtain rfl := allValues_eq_some hvalues
          have hchecked : ∀ v ∈ values, v.Regular := fun v hv => hvs v (List.mem_map_of_mem hv)
          exact (tells_runBody ih hf hchecked _).mono id (fun _ => id) fun r hr => hr.imp_left .inl

/-! ### Runs -/

/-- **All states of a run of a regular program are regular.** -/
theorem steady_runProgram (limits : Limits) {p : Program} (hp : p.Regular) :
    Steady (runProgram limits p) fun _ => True := by
  have hwords := hp.words
  simp only [Program.words, Word.allRegular_append] at hwords
  obtain ⟨hglobals, -, hlocals, hbody, -⟩ := hwords
  refine (steady_declareAll limits _ 0 hglobals).bind fun _ _ => ?_
  have hfunctions : Steady (p.functions.forM declareFunction) fun _ => True :=
    .forM fun f hf => steady_declareFunction (hp.function hf)
  refine hfunctions.bind fun _ _ => ?_
  have henter : Steady (modify fun m => { m with scopes := m.scopes.pushEntry } : Exec PUnit)
      fun _ => True :=
    fun _ => .modifyGet (fun _ hm => ⟨hm.push .entry .global, trivial⟩) fun _ => rfl
  refine henter.bind fun _ _ => ?_
  refine (steady_declareAll limits _ 0 hlocals).bind fun _ _ => ?_
  refine (steady_executeAll (answers_invoke limits _) _ 0 p.body hbody).bind fun _ _ => ?_
  unfold checkExit
  split
  · exact .pure trivial
  · exact .report _ _

end Exec

theorem Program.Reaches.regular {limits : Limits} {p : Program} {input : Input} {m : Machine}
    (hp : p.Regular) (h : p.Reaches limits input m) : m.Regular := by
  have hinitial : (Machine.initial input).Owing False := ⟨ScopeStack.All.initial, False.elim⟩
  rcases h with rfl | hpass
  · exact hinitial.regular
  · exact (Exec.steady_runProgram limits hp False _ hinitial).1 m hpass

end Bistro
