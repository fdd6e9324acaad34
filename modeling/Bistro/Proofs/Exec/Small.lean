import Bistro.Proofs.Exec.Explains
import Bistro.Proofs.Program.Small

/-!
# Integers stay small

Only results of arithmetic and input are checked against the range of permitted integers.  All other
integers of a run are literals, zeros that fill arrays, or copies.  So if the literals of a program
are small and the permitted integers are the usual ones, then all integers of a run are small: those
that are stored and those that expressions evaluate to.  As operations on small integers have
results that fit a word, an overflow can be met with fractional numbers only.

## Main definitions

* `Binding.Small` — a binding with a small value, or of a function with small literals.
* `Finding.OfFractions` — an overflow, if a finding tells of one, is one of fractional numbers.
* `Machine.Small` — a state with such bindings and findings only.
* `Exec.Stays`, `Exec.Finds` — a step that keeps to small states.

## Main results

* `Exec.isSome_integerResult` — operations on small integers have results that fit a word.
* `Exec.finds_evaluate` — expressions have small values.
* `Exec.stays_execute`, `Exec.modest_invoke` — statements and calls keep to small states.
* `Program.Reaches.small` — **all states of a run of a program with small literals are small.**
-/

namespace Bistro

/-! ### Arithmetic -/

namespace Number

theorem isSome_checked {n : Int} (h : n.natAbs ≤ 10 ^ 18) : (checked n).isSome := by
  have hfits : fits n = true := by
    unfold fits minInteger maxInteger
    rw [Bool.and_eq_true, decide_eq_true_eq, decide_eq_true_eq]
    omega
  rw [checked, if_pos hfits]
  rfl

end Number

/-- **Operations on small integers have results that fit a word.** -/
theorem Exec.isSome_integerResult (op : BinaryOp) {a b : Int} (ha : Number.Small a)
    (hb : Number.Small b) : (integerResult op a b).isSome := by
  have ha' := ha.natAbs_le
  have hb' := hb.natAbs_le
  have hmod : (Number.checkedMod a b).isSome := by
    have hne : ¬ (a = Number.minInteger ∧ b = -1) := by
      unfold Number.minInteger
      omega
    rw [Number.checkedMod, if_neg hne]
    rfl
  unfold integerResult
  cases op with
  | add => exact Number.isSome_checked (by omega)
  | sub => exact Number.isSome_checked (by omega)
  | mul =>
    refine Number.isSome_checked ?_
    rw [Int.natAbs_mul]
    exact Nat.le_trans (Nat.mul_le_mul ha' hb') (by decide)
  | div =>
    refine Number.isSome_checked ?_
    have := Int.natAbs_tdiv_le_natAbs a b
    omega
  | _ => exact hmod

/-! ### Bindings and findings -/

/-- A binding holds a small value, if any, and the literals of the function it stands for, if for
one, are small. -/
structure Binding.Small (b : Binding) : Prop where
  value : ∀ v, b.value = some v → v.Small
  function : ∀ f, b.kind = .function f → ∀ w ∈ f.words, w.Small

namespace Binding

theorem Small.withValue {b : Binding} (h : b.Small) {v : Value} (hv : v.Small) :
    (b.withValue v).Small := by
  refine ⟨?_, h.function⟩
  rintro w ⟨⟩
  exact hv

theorem small_scalar (name : String) (type : ValueType) (line : Nat) {value : Option Value}
    (hvalue : ∀ v, value = some v → v.Small) :
    Small { Binding.scalar name type line with value } :=
  ⟨hvalue, nofun⟩

theorem small_array (name : String) (element : ValueType) (dimension line : Nat)
    {items : List Value} (hitems : ∀ v ∈ items, v.Small) :
    ((Binding.array name element dimension line).withValue (.recipe items)).Small := by
  have hempty : (Binding.array name element dimension line).Small := ⟨nofun, nofun⟩
  exact hempty.withValue (Value.small_recipe.2 hitems)

theorem small_function {f : Function} (hf : ∀ w ∈ f.words, w.Small) :
    (Binding.function f).Small := by
  refine ⟨nofun, ?_⟩
  rintro g ⟨⟩
  exact hf

theorem Small.replaceElement {b : Binding} (h : b.Small) {v : Value} (hv : v.Small)
    (index : Nat) : (Exec.replaceElement index v b).Small := by
  unfold Exec.replaceElement
  split
  · next items hitems =>
    have hold := Value.small_recipe.1 (h.value _ hitems)
    refine h.withValue (Value.small_recipe.2 fun w hw => ?_)
    rcases List.mem_or_eq_of_mem_set hw with hw | rfl
    · exact hold w hw
    · exact hv
  · exact h

end Binding

/-- An overflow, if a finding tells of one, was met with fractional numbers: their result is not
finite, although the divisor is not zero. -/
def Finding.OfFractions : Finding → Prop
  | .overflow left op right => ∃ x y, left = Decimal.render x ∧ right = Decimal.render y ∧
      (Exec.divides op && y.isZero) = false ∧ (Exec.fractionResult op x y).isFinite = false
  | _ => True

/-- The finding is an overflow. -/
def Finding.isOverflow : Finding → Bool
  | .overflow .. => true
  | _ => false

theorem Finding.ofFractions_of_isOverflow {f : Finding} (h : f.isOverflow = false) :
    f.OfFractions := by
  unfold OfFractions
  split
  · cases h
  · trivial

/-- The bindings of a state are small, and if a finding tells of an overflow, then of one that was
met with fractional numbers. -/
structure Machine.Small (m : Machine) : Prop where
  bindings : m.scopes.All Binding.Small
  findings : ∀ d ∈ m.diagnostics.items, ∃ f line, d = Finding.onLine f line ∧ f.OfFractions

theorem Machine.small_initial (input : Input) : (Machine.initial input).Small :=
  ⟨ScopeStack.All.initial, nofun⟩

/-- What is recorded may be a finding that tells of no overflow of integers. -/
theorem Machine.Small.record {m : Machine} (h : m.Small) {f : Finding} (hf : f.OfFractions)
    (line : Nat) (key : Option Site) :
    Machine.Small { m with diagnostics := m.diagnostics.record key (f.onLine line) } := by
  refine ⟨h.bindings, fun d hd => ?_⟩
  dsimp only at hd
  rw [Diagnostics.items_record] at hd
  split at hd
  · exact h.findings d hd
  · rcases List.mem_append.1 hd with hd | hd
    · exact h.findings d hd
    · exact ⟨f, line, List.mem_singleton.1 hd, hf⟩

namespace Exec

open Machine (Small)

variable {α β : Type} {good good' : α → Prop} {x : Exec α}

/-! ### Steps from small states -/

/-- A step from small states keeps to them and gives a good result. -/
def Stays (x : Exec α) (good : α → Prop) : Prop :=
  Triple Small Small x fun a m => good a ∧ m.Small

theorem Stays.pure {a : α} (ha : good a) : Stays (pure a : Exec α) good :=
  Triple.pure fun _ hm => ⟨ha, hm⟩

theorem Stays.bind {f : α → Exec β} {good' : β → Prop} (hx : Stays x good)
    (hf : ∀ a, good a → Stays (f a) good') : Stays (x >>= f) good' :=
  Triple.bind hx fun a m hm => hf a hm.1 m hm.2

theorem Stays.modifyGet {f : Machine → α × Machine}
    (h : ∀ m, m.Small → (f m).2.Small ∧ good (f m).1) : Stays (modifyGet f : Exec α) good :=
  Triple.modifyGet fun m hm => ⟨(h m hm).1, (h m hm).2, (h m hm).1⟩

/-- A step that knows the state it is taken from. -/
theorem Stays.bind_get {f : Machine → Exec α}
    (h : ∀ m, m.Small → Triple Small (· = m) (f m) fun a n => good a ∧ n.Small) :
    Stays (get >>= f) good :=
  Triple.bind_get h

theorem Stays.at (h : Stays x good) {m : Machine} (hm : m.Small) :
    Triple Small (· = m) x fun a n => good a ∧ n.Small := by
  refine Triple.mono h ?_ fun _ _ h => h
  rintro _ rfl
  exact hm

theorem Stays.set {m n : Machine} (hn : n.Small) :
    Triple Small (· = m) (set n : Exec PUnit) fun _ n => True ∧ n.Small :=
  Triple.set fun _ _ => ⟨hn, trivial, hn⟩

theorem Stays.reportOfFractions {f : Finding} (hf : f.OfFractions) (line : Nat) :
    Stays (report f line) fun _ => True :=
  .modifyGet fun _ hm => ⟨hm.record hf line _, trivial⟩

theorem Stays.report {f : Finding} (hf : f.isOverflow = false) (line : Nat) :
    Stays (report f line) fun _ => True :=
  .reportOfFractions (Finding.ofFractions_of_isOverflow hf) line

theorem Stays.reportOnce {f : Finding} (hf : f.isOverflow = false) (line : Nat) :
    Stays (reportOnce f line) fun _ => True :=
  .modifyGet fun _ hm => ⟨hm.record (Finding.ofFractions_of_isOverflow hf) line _, trivial⟩

/-- A step that is given up with a report. -/
theorem Stays.reportFalse {f : Finding} (hf : f.isOverflow = false) (line : Nat) :
    Stays (do Exec.report f line; return false) fun _ => True :=
  (Stays.report hf line).bind fun _ _ => .pure trivial

theorem Stays.forM {f : α → Exec PUnit} {as : List α}
    (h : ∀ a ∈ as, Stays (f a) fun _ => True) : Stays (as.forM f) fun _ => True := by
  induction as with
  | nil => exact .pure trivial
  | cons a as ih =>
    rw [List.forall_mem_cons] at h
    exact h.1.bind fun _ _ => ih h.2

/-- A step from small states keeps to them, and the result it gives, if any, is good. -/
def Finds (x : Exec (Option α)) (good : α → Prop) : Prop :=
  Stays x fun r => ∀ a, r = some a → good a

theorem Finds.result {a : α} (ha : good a) : Finds (pure (some a)) good := by
  refine Stays.pure ?_
  rintro _ ⟨⟩
  exact ha

theorem Finds.nothing : Finds (pure none) good := Stays.pure nofun

theorem Finds.reject {f : Finding} (hf : f.isOverflow = false) (line : Nat) :
    Finds (reject f line) good :=
  (Stays.report hf line).bind fun _ _ => Finds.nothing

/-- A step that ends early if the first one gives nothing. -/
theorem Finds.bind {x : Exec (Option α)} {f : Option α → Exec β} {good' : β → Prop}
    (hx : Finds x good) (hnone : Stays (f none) good')
    (hf : ∀ a, good a → Stays (f (some a)) good') : Stays (x >>= f) good' := by
  refine Stays.bind hx fun r hr => ?_
  cases r with
  | none => exact hnone
  | some a => exact hf a (hr a rfl)

/-! ### Scopes -/

theorem stays_lookup (name : String) :
    Stays (lookup name) fun r => ∀ b, r = some b → b.Small := by
  refine .modifyGet fun m hm => ?_
  have hmarked : (m.scopes.adjust name Binding.marked).All Binding.Small :=
    hm.bindings.adjust name fun _ hb => ⟨hb.value, hb.function⟩
  exact ⟨⟨hmarked, hm.findings⟩, fun b hb => hmarked.peek? hb⟩

theorem stays_adjust (name : String) {f : Binding → Binding}
    (hf : ∀ b, b.Small → (f b).Small) :
    Stays (modify fun m => { m with scopes := m.scopes.adjust name f } : Exec PUnit)
      fun _ => True :=
  .modifyGet fun _ hm => ⟨⟨hm.bindings.adjust name hf, hm.findings⟩, trivial⟩

theorem stays_store (name : String) {v : Value} (hv : v.Small) :
    Stays (store name v) fun _ => True :=
  stays_adjust name fun _ hb => hb.withValue hv

theorem stays_declare {b : Binding} (hb : b.Small) : Stays (declare b) fun _ => True := by
  refine .bind_get fun m hm => ?_
  split
  · next scopes hscopes => exact Stays.set ⟨hm.bindings.declare hb hscopes, hm.findings⟩
  · exact (Stays.report rfl _).at hm

theorem stays_declareFunction {f : Function} (hf : ∀ w ∈ f.words, w.Small) :
    Stays (declareFunction f) fun _ => True := by
  refine .bind_get fun m hm => ?_
  split
  · next scopes hscopes =>
    exact Stays.set
      ⟨hm.bindings.declareGlobal (Binding.small_function hf) hscopes, hm.findings⟩
  · exact (Stays.report rfl _).at hm

theorem stays_closeScope : Stays closeScope fun _ => True := by
  refine .bind_get fun m hm => ?_
  split
  · exact (Stays.pure trivial).at hm
  · next scope scopes hpop =>
    have hclosed : Small { m with scopes } := by
      unfold ScopeStack.pop? at hpop
      split at hpop
      · next hinner =>
        obtain ⟨rfl, rfl⟩ := Prod.mk.inj (Option.some.inj hpop)
        exact ⟨hm.bindings.pop hinner, hm.findings⟩
      · cases hpop
    refine (Stays.set hclosed).bind fun _ => ?_
    have hrest : Stays (unless (scope.kind = .global || scope.kind = .entry) do
        scope.unused.forM fun b => Exec.reportOnce (.unusedVariable b.name) b.line)
        fun _ => True := by
      split
      · exact .pure trivial
      · exact .forM fun _ _ => .reportOnce rfl _
    exact fun n hn => hrest n hn.2

theorem Stays.inScope (h : Stays x good) (kind : Scope.Kind) :
    Stays (inScope (·.push kind) x) good := by
  have hopen : Stays (modify fun m => { m with scopes := m.scopes.push kind } : Exec PUnit)
      fun _ => True :=
    .modifyGet fun _ hm => ⟨⟨hm.bindings.push kind .outer, hm.findings⟩, trivial⟩
  exact hopen.bind fun _ _ => h.bind fun a ha => stays_closeScope.bind fun _ _ => .pure ha

theorem Stays.inCall (h : Stays x good) : Stays (inCall x) good := by
  have hopen : Stays (modify fun m => { m with
      scopes := m.scopes.pushFunction, callDepth := m.callDepth + 1 } : Exec PUnit)
      fun _ => True :=
    .modifyGet fun _ hm => ⟨⟨hm.bindings.push .function .global, hm.findings⟩, trivial⟩
  have hclose : Stays (modify fun m =>
      let m := (closeScope.run m).2
      { m with callDepth := m.callDepth - 1 } : Exec PUnit) fun _ => True := by
    refine .modifyGet fun m hm => ?_
    have hclosed := (stays_closeScope m hm).2.2
    exact ⟨⟨hclosed.bindings, hclosed.findings⟩, trivial⟩
  exact hopen.bind fun _ _ => h.bind fun a ha => hclose.bind fun _ _ => .pure ha

theorem Stays.atSite (h : Stays x good) (site : Site) : Stays (atSite site x) good := by
  refine .bind_get fun m hm => ?_
  have henter : ∀ site,
      Stays (modify fun m => { m with diagnostics := m.diagnostics.enter site } : Exec PUnit)
      fun _ => True :=
    fun _ => .modifyGet fun _ hm => ⟨⟨hm.bindings, hm.findings⟩, trivial⟩
  have hrest := (henter site).bind fun _ _ => h.bind fun a ha =>
    (henter m.diagnostics.site).bind fun _ _ => Stays.pure ha
  exact hrest.at hm

/-! ### Reading -/

theorem finds_readVariable (name : String) (line : Nat) :
    Finds (readVariable name line) Value.Small := by
  refine Finds.bind (stays_lookup name) (Finds.reject rfl line) fun b hb => ?_
  dsimp only
  split
  · exact Finds.reject rfl line
  · split
    · next v hv => exact Finds.result (hb.value v hv)
    · exact Finds.reject rfl line

theorem small_elementAt? {v : Option Value} (hv : ∀ w, v = some w → w.Small) {index : Int}
    {w : Value} (h : elementAt? v index = some w) : w.Small := by
  obtain ⟨items, rfl, -, hget⟩ := elementAt?_eq_some h
  exact Value.small_recipe.1 (hv _ rfl) w (List.mem_of_getElem? hget)

theorem finds_readElement (name : String) (index : Int) (line : Nat) :
    Finds (readElement name index line) Value.Small := by
  refine Finds.bind (stays_lookup name) (Finds.reject rfl line) fun b hb => ?_
  dsimp only
  split
  · split
    · next v hv => exact Finds.result (small_elementAt? hb.value hv)
    · exact Finds.reject rfl line
  · exact Finds.reject rfl line

theorem finds_checkType (target : ValueType) {v : Value} (hv : v.Small) (use : Finding.Use)
    (line : Nat) : Finds (checkType target v use line) Value.Small := by
  unfold checkType
  split
  · exact .result hv
  · exact .reject rfl line

theorem finds_resolveFunction (name : String) (line : Nat) :
    Finds (resolveFunction name line) fun f => ∀ w ∈ f.words, w.Small := by
  refine Finds.bind (stays_lookup name) (Finds.reject rfl line) fun b hb => ?_
  dsimp only
  split
  · next f hf => exact Finds.result (hb.function f hf)
  · exact Finds.reject rfl line

/-! ### Operators -/

section
variable {limits : Limits} (hlimits : limits.integerRange = Limits.standard.integerRange)
include hlimits

/-- The way on which an overflow of integers would be reported is not taken. -/
theorem finds_integerArithmetic (op : BinaryOp) {a b : Int} (ha : Number.Small a)
    (hb : Number.Small b) (line : Nat) :
    Finds (integerArithmetic limits op a b line) Value.Small := by
  obtain ⟨n, hn⟩ := Option.isSome_iff_exists.1 (isSome_integerResult op ha hb)
  unfold integerArithmetic
  rw [hn]
  split
  · exact .reject rfl line
  · dsimp only
    split
    · next hcontains =>
      rw [hlimits] at hcontains
      exact .result (Value.small_pinch.2 (Number.small_iff.2 hcontains))
    · exact .reject rfl line

theorem finds_arithmetic (op : BinaryOp) {left right : Value} (hleft : left.Small)
    (hright : right.Small) (line : Nat) :
    Finds (arithmetic limits op left right line) Value.Small := by
  have hfraction : ∀ x y, Finds (fractionArithmetic op x y line) Value.Small := by
    intro x y
    unfold fractionArithmetic
    split
    · exact .reject rfl line
    · next hzero =>
      split
      · exact .result (Value.small_skim _)
      · next hfinite =>
        have hoverflow : Finding.OfFractions (.overflow (Decimal.render x) op (Decimal.render y)) :=
          ⟨x, y, rfl, rfl, Bool.eq_false_iff.2 hzero, Bool.eq_false_iff.2 hfinite⟩
        exact (Stays.reportOfFractions hoverflow line).bind fun _ _ => Finds.nothing
  unfold arithmetic
  split
  · split
    · exact .result (Value.small_pasta _)
    · exact .reject rfl line
  · exact finds_integerArithmetic hlimits op (Value.small_pinch.1 hleft)
      (Value.small_pinch.1 hright) line
  · split
    · exact hfraction _ _
    · exact .reject rfl line

end

theorem finds_equality (op : BinaryOp) (left right : Value) (line : Nat) :
    Finds (equality op left right line) fun _ => True := by
  unfold equality
  split
  · exact .result trivial
  · split
    · exact .result trivial
    · split
      · exact .result trivial
      · exact .reject rfl line

theorem finds_order (op : BinaryOp) (left right : Value) (line : Nat) :
    Finds (order op left right line) fun _ => True := by
  unfold order
  split
  · exact .result trivial
  · exact .result trivial
  · split
    · exact Stays.pure fun _ _ => trivial
    · exact .reject rfl line

theorem Finds.map {x : Exec (Option α)} (hx : Finds x fun _ => True) {g : α → Value}
    (hg : ∀ a, (g a).Small) : Finds (x >>= fun r => return r.map g) Value.Small :=
  Finds.bind hx Finds.nothing fun a _ => Finds.result (hg a)

theorem finds_applyBinary {limits : Limits}
    (hlimits : limits.integerRange = Limits.standard.integerRange) (op : BinaryOp)
    {left right : Value} (hleft : left.Small) (hright : right.Small) (line : Nat) :
    Finds (applyBinary limits op left right line) Value.Small := by
  unfold applyBinary
  cases op with
  | add | sub | mul | div | mod => exact finds_arithmetic hlimits _ hleft hright line
  | equal | notEqual => exact (finds_equality _ _ _ _).map fun _ => Value.small_bool _
  | less | greater | lessEqual | greaterEqual =>
    exact (finds_order _ _ _ _).map fun _ => Value.small_bool _
  | both | either =>
    dsimp only
    split
    · exact .result (Value.small_bool _)
    · exact .reject rfl line

theorem finds_applyNegation (symbol : String) (f : Bool → Bool) (v : Option Value) (line : Nat) :
    Finds (applyNegation symbol f v line) Value.Small := by
  unfold applyNegation
  split
  · exact .nothing
  · exact .result (Value.small_bool _)
  · exact .reject rfl line

/-! ### Expressions -/

/-- The permitted integers are the usual ones, and calls of functions with small literals give small
values. -/
structure Modest (limits : Limits) (call : Call) : Prop where
  range : limits.integerRange = Limits.standard.integerRange
  call ⦃f : Function⦄ ⦃args : List (Option Value)⦄ (line : Nat) :
    (∀ w ∈ f.words, w.Small) → (∀ v, some v ∈ args → v.Small) →
      Finds (call f line args) Value.Small

variable {limits : Limits} {call : Call}

mutual
/-- An expression with small literals has a small value, if any. -/
theorem finds_evaluate (h : Modest limits call) (e : Expr) (he : ∀ w ∈ e.words, w.Small) :
    Finds (evaluate limits call e) Value.Small := by
  match e with
  | .literal v line => exact .result (he _ List.mem_cons_self)
  | .var name line => exact finds_readVariable name line
  | .element name index line => exact finds_readElement name index line
  | .call name args line =>
    rw [Expr.words, List.forall_mem_cons] at he
    refine Finds.bind (finds_resolveFunction name line) Finds.nothing fun f hf => ?_
    dsimp only
    split
    · exact Finds.reject rfl line
    · exact Stays.bind (stays_evaluateAll h args he.2) fun values hvalues =>
        h.call line hf hvalues
  | .binary op left right line =>
    rw [Expr.words, List.forall_mem_append] at he
    refine Stays.bind (finds_evaluate h left he.1) fun l hl => ?_
    refine Stays.bind (finds_evaluate h right he.2) fun r hr => ?_
    unfold applyBinary?
    split
    · exact finds_applyBinary h.range op (hl _ rfl) (hr _ rfl) line
    · exact Finds.nothing
  | .not operand line =>
    exact Stays.bind (finds_evaluate h operand he) fun v _ => finds_applyNegation _ _ v _
  | .doubleNot operand line =>
    exact Stays.bind (finds_evaluate h operand he) fun v _ => finds_applyNegation _ _ v _

theorem stays_evaluateAll (h : Modest limits call) (es : List Expr)
    (hes : ∀ w ∈ Expr.wordsAll es, w.Small) :
    Stays (evaluateAll limits call es) fun vs => ∀ v, some v ∈ vs → v.Small := by
  match es with
  | [] => exact .pure nofun
  | e :: rest =>
    rw [Expr.wordsAll, List.forall_mem_append] at hes
    refine Stays.bind (finds_evaluate h e hes.1) fun r hr => ?_
    refine (stays_evaluateAll h rest hes.2).bind fun vs hvs => .pure fun v hv => ?_
    rcases List.mem_cons.1 hv with heq | hv
    · exact hr v heq.symm
    · exact hvs v hv
end

theorem stays_test (h : Modest limits call) {condition : Expr}
    (hwords : ∀ w ∈ condition.words, w.Small) :
    Stays (test limits call condition) fun _ => True := by
  refine Stays.bind (finds_evaluate h condition hwords) fun r _ => ?_
  split
  · exact .pure trivial
  · exact (Stays.report rfl _).bind fun _ _ => .pure trivial
  · exact .pure trivial

/-! ### Stores -/

theorem finds_resolveSlot (target : Place) (line : Nat) :
    Finds (resolveSlot target line) fun slot =>
      match slot with
      | .scalar _ current => ∀ v, current = some v → v.Small
      | .whole .. => True
      | .element _ _ current => current.Small := by
  refine Finds.bind (stays_lookup target.name) (Finds.reject rfl line) fun b hb => ?_
  dsimp only
  split
  · exact Finds.result hb.value
  · exact Finds.result trivial
  · exact Finds.reject rfl line
  · split
    · next hitem => exact Finds.result (small_elementAt? hb.value hitem)
    · exact Finds.reject rfl line
  · exact Finds.reject rfl line

theorem finds_combine (hlimits : limits.integerRange = Limits.standard.integerRange)
    (op : AssignOp) {current : Option Value} (hcurrent : ∀ v, current = some v → v.Small)
    {v : Value} (hv : v.Small) (name : String) (line : Nat) :
    Finds (combine limits op current v name line) Value.Small := by
  unfold combine
  cases op.binary? with
  | none => exact .result hv
  | some binary =>
    cases current with
    | none => exact .reject rfl line
    | some current => exact finds_applyBinary hlimits binary (hcurrent current rfl) hv line

theorem Finds.withChecked {x : Exec (Option Value)} (hx : Finds x Value.Small)
    (target : ValueType) (use : Finding.Use) (line : Nat) {given : β} {f : Value → Exec β}
    {good : β → Prop} (hgiven : good given) (hf : ∀ v, v.Small → Stays (f v) good) :
    Stays (withChecked x target use line given f) good :=
  hx.bind (.pure hgiven) fun _ hnext =>
    (finds_checkType target hnext use line).bind (.pure hgiven) hf

theorem stays_assign (hlimits : limits.integerRange = Limits.standard.integerRange)
    (target : Place) (op : AssignOp) {v : Option Value} (hv : ∀ w, v = some w → w.Small)
    (line : Nat) : Stays (assign limits target op v line) fun _ => True := by
  refine (finds_resolveSlot target line).bind (.pure trivial) fun slot hslot => ?_
  cases v with
  | none => exact .pure trivial
  | some v =>
    have hv := hv v rfl
    cases slot with
    | scalar type current =>
      exact (finds_combine hlimits op hslot hv _ line).withChecked _ _ _ trivial
        fun next hnext => stays_store _ hnext
    | whole element dimension =>
      simp only [fillSlot]
      split
      · exact stays_store _ hv
      · exact .report rfl _
    | element element index current =>
      have hcurrent : ∀ w, some current = some w → w.Small := by
        rintro _ ⟨⟩
        exact hslot
      exact (finds_combine hlimits op hcurrent hv _ line).withChecked _ _ _ trivial
        fun next hnext => stays_adjust _ fun _ hb => hb.replaceElement hnext index

theorem stays_takeStep (hlimits : limits.integerRange = Limits.standard.integerRange)
    (name : String) (op : StepOp) (line : Nat) :
    Stays (takeStep limits name op line) fun _ => True := by
  refine Finds.bind (stays_lookup name) (.reportFalse rfl line) fun b hb => ?_
  dsimp only
  split
  · next _ current _ hcurrent =>
    split
    · exact .reportFalse rfl line
    · have hone : (Value.pinch 1).Small := Value.small_pinch.2 (by decide)
      refine (finds_applyBinary hlimits op.binary (hb.value current hcurrent) hone
        line).withChecked _ _ _ trivial fun next hnext => ?_
      exact (stays_store name hnext).bind fun _ _ => .pure trivial
  · exact .reportFalse rfl line
  · exact .reportFalse rfl line

/-- Integers that are read are checked. -/
theorem small_readInput? {type : ValueType} {text : String} {v : Value}
    (h : readInput? type text Limits.standard.integerRange = some v) : v.Small := by
  cases type with
  | pinch =>
    rw [readInput?, Option.map_eq_some_iff] at h
    obtain ⟨n, hn, rfl⟩ := h
    exact Value.small_pinch.2 (Number.small_iff.2 (Option.filter_eq_some_iff.1 hn).2)
  | skim =>
    rw [readInput?, Option.map_eq_some_iff] at h
    obtain ⟨x, -, rfl⟩ := h
    exact Value.small_skim x
  | pasta =>
    obtain rfl := Option.some.inj h
    exact Value.small_pasta text
  | bool =>
    simp only [readInput?] at h
    split at h
    · obtain rfl := Option.some.inj h
      exact Value.small_bool true
    · split at h
      · obtain rfl := Option.some.inj h
        exact Value.small_bool false
      · cases h
  | recipe => cases h

theorem stays_readInput (hlimits : limits.integerRange = Limits.standard.integerRange)
    (name : String) (line : Nat) : Stays (readInput limits name line) fun _ => True := by
  have hask : Stays (ask name) fun _ => True :=
    .modifyGet fun _ hm => ⟨⟨hm.bindings, hm.findings⟩, trivial⟩
  refine Finds.bind (stays_lookup name) (.report rfl line) fun b _ => ?_
  dsimp only
  split
  · refine hask.bind fun r _ => ?_
    cases r with
    | none => exact .report rfl _
    | some text =>
      dsimp only
      rw [hlimits]
      split
      · next hv => exact stays_store name (small_readInput? hv)
      · exact .report rfl _
  · exact .report rfl _

/-! ### Declarations -/

theorem stays_declareVariable (type : ValueType) {d : Declarator}
    (hd : ∀ w ∈ d.words, w.Small) : Stays (declareVariable type d) fun _ => True := by
  rw [Declarator.words, List.forall_mem_cons] at hd
  unfold declareVariable
  cases hinit : d.init with
  | none =>
    exact Stays.bind Finds.nothing fun r hr => stays_declare (Binding.small_scalar _ _ _ hr)
  | some init =>
    rw [hinit] at hd
    have hvalue : init.toValue.Small := hd.2 _ List.mem_cons_self
    exact Stays.bind (finds_checkType type hvalue _ _) fun r hr =>
      stays_declare (Binding.small_scalar _ _ _ hr)

theorem stays_arrayElements (element : ValueType) (name : String) (line : Nat)
    {literals : List Literal} (h : ∀ l ∈ literals, l.toValue.Small) :
    Stays (arrayElements element name line literals) fun vs => ∀ v ∈ vs, v.Small := by
  induction literals with
  | nil => exact .pure nofun
  | cons l rest ih =>
    rw [List.forall_mem_cons] at h
    refine Stays.bind (finds_checkType element h.1 _ line) fun r hr => ?_
    refine (ih h.2).bind fun vs hvs => .pure (List.forall_mem_cons.2 ⟨?_, hvs⟩)
    cases r with
    | none => exact Value.small_default element
    | some v => exact hr v rfl

theorem stays_declareArray (limits : Limits) {a : ArrayDeclaration}
    (ha : ∀ w ∈ (Declaration.array a).words, w.Small) :
    Stays (declareArray limits a) fun _ => True := by
  simp only [Declaration.words, List.forall_mem_cons] at ha
  have hempty : ∀ v ∈ ([] : List Value), v.Small := List.forall_mem_nil _
  unfold declareArray
  dsimp only
  split
  · exact (Stays.report rfl _).bind fun _ _ => stays_declare (Binding.small_array _ _ _ _ hempty)
  · next dimension _ =>
    -- the elements that are not given are zeros
    have hfill : ∀ given : List Value, (∀ v ∈ given, v.Small) →
        Stays (Exec.declare ((Binding.array a.name a.element.valueType dimension a.line).withValue
          (.recipe (given ++ List.replicate (dimension - given.length)
            (Value.default a.element.valueType))))) fun _ => True := by
      intro given hgiven
      refine stays_declare (Binding.small_array _ _ _ _ fun v hv => ?_)
      rcases List.mem_append.1 hv with hv | hv
      · exact hgiven v hv
      · rw [List.eq_of_mem_replicate hv]
        exact Value.small_default _
    split
    · exact (Stays.pure hempty).bind hfill
    · next literals hliterals =>
      rw [hliterals] at ha
      have hvalues : ∀ l ∈ literals.take dimension, l.toValue.Small := by
        intro l hl
        exact ha.2.2 (.literal l)
          (List.mem_flatMap.2 ⟨l, List.mem_of_mem_take hl, List.mem_cons_self⟩)
      have helements := (stays_arrayElements a.element.valueType a.name a.line hvalues).bind hfill
      split
      · exact (Stays.report rfl _).bind fun _ _ => helements
      · split
        · exact (Stays.report rfl _).bind fun _ _ => helements
        · exact helements

theorem stays_declareAll (limits : Limits) (site : Site) (i : Nat) {ds : List Declaration}
    (hds : ∀ w ∈ ds.flatMap Declaration.words, w.Small) :
    Stays (declareAll limits site i ds) fun _ => True := by
  induction ds generalizing i with
  | nil => exact .pure trivial
  | cons d ds ih =>
    rw [List.flatMap_cons, List.forall_mem_append] at hds
    have hone : Stays (declareOne limits d) fun _ => True := by
      match d with
      | .variables type declarators =>
        refine .forM fun d hd => stays_declareVariable _ fun w hw => ?_
        exact hds.1 w (List.mem_flatMap.2 ⟨d, hd, hw⟩)
      | .array a => exact stays_declareArray limits hds.1
    exact (hone.atSite _).bind fun _ _ => ih _ hds.2

/-! ### Statements -/

theorem stays_callStatement (h : Modest limits call) (name : String) {args : List Expr}
    (hargs : ∀ w ∈ Expr.wordsAll args, w.Small) (line : Nat) :
    Stays (callStatement limits call name args line) fun _ => True := by
  refine (finds_resolveFunction name line).bind (.pure trivial) fun f hf => ?_
  refine (stays_evaluateAll h args hargs).bind fun values hvalues => ?_
  exact Stays.bind (h.call line hf hvalues) fun _ _ => .pure trivial

theorem stays_serveParts (h : Modest limits call) {parts : List Expr}
    (hparts : ∀ w ∈ Expr.wordsAll parts, w.Small) (line : Nat) :
    Stays (serveParts limits call parts line) fun _ => True := by
  refine (stays_evaluateAll h parts hparts).bind fun values _ => ?_
  split
  · exact .modifyGet fun _ hm => ⟨⟨hm.bindings, hm.findings⟩, trivial⟩
  · exact .pure trivial

theorem stays_beginFor (declares : Bool) (var : String) {initial : Option Value}
    (hinitial : ∀ v, initial = some v → v.Small) (line : Nat) :
    Stays (beginFor declares var initial line) fun _ => True := by
  unfold beginFor
  split
  · have hdeclare : ∀ value : Option Value, (∀ v, value = some v → v.Small) →
        Stays (Exec.declare { Binding.scalar var .pinch line with value } >>= fun _ =>
          return value.isSome) fun _ => True :=
      fun value hvalue => (stays_declare (Binding.small_scalar _ _ _ hvalue)).bind
        fun _ _ => .pure trivial
    unfold declareLoopVariable
    cases initial with
    | none => exact Stays.bind Finds.nothing hdeclare
    | some v => exact Stays.bind (finds_checkType .pinch (hinitial v rfl) _ line) hdeclare
  · refine Finds.bind (stays_lookup var) (.reportFalse rfl line) fun b _ => ?_
    dsimp only
    split
    · cases initial with
      | none => exact .pure trivial
      | some v =>
        refine (finds_checkType _ (hinitial v rfl) _ line).bind (.pure trivial) fun v hv => ?_
        exact (stays_store var hv).bind fun _ _ => .pure trivial
    · exact .reportFalse rfl line

theorem Stays.repeatWhile {test pass : Exec Bool} (htest : Stays test fun _ => True)
    (hpass : Stays pass fun _ => True) {f : Finding} (hf : f.isOverflow = false)
    (line passes : Nat) :
    Stays (repeatWhile test pass (Exec.report f line) passes) fun _ => True := by
  induction passes with
  | zero =>
    refine htest.bind fun b _ => ?_
    cases b with
    | false => exact .pure trivial
    | true => exact .report hf line
  | succ passes ih =>
    refine htest.bind fun b _ => ?_
    cases b with
    | false => exact .pure trivial
    | true =>
      refine hpass.bind fun goesOn _ => ?_
      cases goesOn with
      | false => exact .pure trivial
      | true => exact ih

theorem Stays.repeatUntil {pass : Exec Unit} {test : Exec Bool}
    (hpass : Stays pass fun _ => True) (htest : Stays test fun _ => True) {f : Finding}
    (hf : f.isOverflow = false) (line passes : Nat) :
    Stays (repeatUntil pass test (Exec.report f line) passes) fun _ => True := by
  induction passes with
  | zero => exact .report hf line
  | succ passes ih =>
    refine hpass.bind fun _ _ => htest.bind fun b _ => ?_
    cases b with
    | false => exact .pure trivial
    | true => exact ih

mutual
/-- A statement with small literals keeps to small states. -/
theorem stays_execute (h : Modest limits call) (site : Site) (s : Statement)
    (hs : ∀ w ∈ s.words, w.Small) : Stays (execute limits call site s) fun _ => True := by
  match s with
  | .call name args line =>
    rw [Statement.words, List.forall_mem_cons] at hs
    exact (stays_callStatement h name hs.2 line).atSite site
  | .assign target op value line =>
    rw [Statement.words, List.forall_mem_append] at hs
    exact (Stays.bind (finds_evaluate h value hs.2) fun r hr =>
      stays_assign h.range target op hr line).atSite site
  | .step name op line =>
    exact ((stays_takeStep h.range name op line).bind fun _ _ => .pure trivial).atSite site
  | .taste branches otherwise line =>
    rw [Statement.words, List.forall_mem_append] at hs
    have hotherwise : Stays
        (executeOptional limits call (site.child branches.length) otherwise) fun _ => True :=
      stays_executeOptional h _ otherwise hs.2
    exact (stays_executeBranches h site 0 branches hs.1 hotherwise).atSite site
  | .flip subject cases otherwise line =>
    rw [Statement.words, List.forall_mem_cons, List.forall_mem_append] at hs
    refine Stays.atSite (Stays.bind (finds_readVariable subject line) fun r _ => ?_) site
    cases r with
    | none => exact .pure trivial
    | some v =>
      exact stays_executeCases h site subject v 0 cases hs.2.1
        (stays_executeOptional h _ otherwise hs.2.2)
  | .forLoop declares var init condition stepVar step body line =>
    rw [Statement.words, List.forall_mem_cons, List.forall_mem_append, List.forall_mem_append,
      List.forall_mem_cons] at hs
    obtain ⟨-, hinit, hcondition, -, hbody⟩ := hs
    have hbody := (stays_executeAll h site 0 body hbody).inScope .loop
    have htest : Stays (test limits call condition) fun _ => True := stays_test h hcondition
    refine (Stays.bind (finds_evaluate h init hinit) fun r hr => ?_).atSite site
    refine (stays_beginFor declares var hr line).bind fun begun _ => ?_
    cases begun with
    | false => exact .pure trivial
    | true =>
      exact htest.repeatWhile (hbody.bind fun _ _ => stays_takeStep h.range stepVar step line)
        rfl _ _
  | .simmer condition body line =>
    rw [Statement.words, List.forall_mem_append] at hs
    have hbody := (stays_executeAll h site 0 body hs.2).inScope .loop
    exact ((stays_test h hs.1).repeatWhile (hbody.bind fun _ _ => .pure trivial) rfl _
      _).atSite site
  | .keepmix body condition line =>
    rw [Statement.words, List.forall_mem_append] at hs
    have hbody := (stays_executeAll h site 0 body hs.1).inScope .loop
    exact (hbody.repeatUntil (stays_test h hs.2) rfl _ _).atSite site
  | .serve parts line => exact (stays_serveParts h hs line).atSite site
  | .make target line => exact (stays_readInput h.range target line).atSite site

theorem stays_executeAll (h : Modest limits call) (site : Site) (i : Nat) (body : List Statement)
    (hbody : ∀ w ∈ Statement.wordsAll body, w.Small) :
    Stays (executeAll limits call site i body) fun _ => True := by
  match body with
  | [] => exact .pure trivial
  | s :: rest =>
    rw [Statement.wordsAll, List.forall_mem_append] at hbody
    exact (stays_execute h _ s hbody.1).bind fun _ _ =>
      stays_executeAll h site (i + 1) rest hbody.2

theorem stays_executeOptional (h : Modest limits call) (site : Site)
    (body : Option (List Statement)) (hbody : ∀ w ∈ Statement.optionalWords body, w.Small) :
    Stays (executeOptional limits call site body) fun _ => True := by
  match body with
  | none => exact .pure trivial
  | some body => exact (stays_executeAll h site 0 body hbody).inScope .branch

theorem stays_executeBranches (h : Modest limits call) (site : Site) (i : Nat)
    (branches : List Branch) (hbranches : ∀ w ∈ Branch.wordsAll branches, w.Small)
    {otherwise : Exec Unit} (ho : Stays otherwise fun _ => True) :
    Stays (executeBranches limits call site i branches otherwise) fun _ => True := by
  match branches with
  | [] => exact ho
  | ⟨condition, body, _⟩ :: rest =>
    rw [Branch.wordsAll, Branch.words, List.forall_mem_append, List.forall_mem_append]
      at hbranches
    obtain ⟨⟨hcondition, hbody⟩, hrest⟩ := hbranches
    refine (stays_test h hcondition).bind fun b _ => ?_
    cases b with
    | false => exact stays_executeBranches h site (i + 1) rest hrest ho
    | true => exact (stays_executeAll h _ 0 body hbody).inScope .branch

theorem stays_executeCases (h : Modest limits call) (site : Site) (subject : String) (v : Value)
    (i : Nat) (cases : List Case) (hcases : ∀ w ∈ Case.wordsAll cases, w.Small)
    {otherwise : Exec Unit} (ho : Stays otherwise fun _ => True) :
    Stays (executeCases limits call site subject v i cases otherwise) fun _ => True := by
  match cases with
  | [] => exact ho
  | ⟨value, body, line⟩ :: rest =>
    rw [Case.wordsAll, Case.words, List.forall_mem_append, List.forall_mem_cons] at hcases
    obtain ⟨⟨-, hbody⟩, hrest⟩ := hcases
    have hskip := stays_executeCases h site subject v (i + 1) rest hrest ho
    rw [executeCases]
    split
    · exact (Stays.report rfl _).bind fun _ _ => hskip
    · split
      · exact (stays_executeAll h _ 0 body hbody).inScope .branch
      · exact hskip
end

/-! ### Calls -/

theorem stays_checkArguments (f : Function) (line place : Nat) (parameters : List Parameter)
    {values : List Value} (hvalues : ∀ v ∈ values, v.Small) :
    Stays (checkArguments f line place parameters values)
      fun vs => ∀ v, some v ∈ vs → v.Small := by
  induction parameters generalizing place values with
  | nil => exact .pure nofun
  | cons p parameters ih =>
    cases values with
    | nil => exact .pure nofun
    | cons v values =>
      rw [List.forall_mem_cons] at hvalues
      refine Stays.bind (finds_checkType p.type.valueType hvalues.1 _ line) fun r hr => ?_
      refine (ih _ hvalues.2).bind fun vs hvs => .pure fun w hw => ?_
      rcases List.mem_cons.1 hw with heq | hw
      · exact hr w heq.symm
      · exact hvs w hw

/-- What is bound to a parameter is small. -/
theorem stays_bindParameters (parameters : List Parameter) {values : List Value}
    (hvalues : ∀ v ∈ values, v.Small) :
    Stays (bindParameters parameters values) fun _ => True := by
  induction parameters generalizing values with
  | nil => exact .pure trivial
  | cons p parameters ih =>
    cases values with
    | nil => exact .pure trivial
    | cons v values =>
      rw [List.forall_mem_cons] at hvalues
      have hbinding : (Binding.scalar p.name p.type.valueType p.line).Small :=
        Binding.small_scalar _ _ _ nofun
      exact (stays_declare (hbinding.withValue hvalues.1)).bind fun _ _ => ih hvalues.2

theorem finds_runBody (h : Modest limits call) {f : Function} (hf : ∀ w ∈ f.words, w.Small)
    {values : List Value} (hvalues : ∀ v ∈ values, v.Small) :
    Finds (runBody limits call f values) Value.Small := by
  simp only [Function.words, List.forall_mem_cons, List.forall_mem_append] at hf
  obtain ⟨-, -, hlocals, hbody, hresult⟩ := hf
  refine Stays.inCall ((stays_bindParameters f.parameters hvalues).bind fun _ _ => ?_)
  refine (stays_declareAll limits _ 0 hlocals).bind fun _ _ => ?_
  refine (stays_executeAll h _ 0 f.body hbody).bind fun _ _ => ?_
  unfold functionResult
  split
  · next e type he _ =>
    rw [he] at hresult
    refine Stays.atSite ?_ _
    exact (finds_evaluate h e hresult).bind Finds.nothing fun v hv => finds_checkType _ hv _ _
  · exact Finds.nothing

/-- Calls give small values, to whatever depth they may be nested. -/
theorem modest_invoke (hlimits : limits.integerRange = Limits.standard.integerRange)
    (depth : Nat) : Modest limits (invoke limits depth) := by
  induction depth with
  | zero =>
    refine ⟨hlimits, fun f args line hf hargs => ?_⟩
    unfold invoke
    split
    · exact .reject rfl line
    · split
      · exact .nothing
      · exact .reject rfl line
  | succ depth ih =>
    refine ⟨hlimits, fun f args line hf hargs => ?_⟩
    unfold invoke
    split
    · exact .reject rfl line
    · split
      · exact .nothing
      · next values hvalues =>
        obtain rfl := allValues_eq_some hvalues
        have hsmall : ∀ v ∈ values, v.Small := fun v hv => hargs v (List.mem_map_of_mem hv)
        refine Stays.bind (stays_checkArguments f line 1 f.parameters hsmall) fun vs hvs => ?_
        split
        · exact Finds.nothing
        · next values hvalues =>
          obtain rfl := allValues_eq_some hvalues
          exact finds_runBody ih hf fun v hv => hvs v (List.mem_map_of_mem hv)

/-! ### Runs -/

theorem stays_runProgram (hlimits : limits.integerRange = Limits.standard.integerRange)
    {p : Program} (hp : ∀ w ∈ p.words, w.Small) :
    Stays (runProgram limits p) fun _ => True := by
  have hfunctions : Stays (p.functions.forM declareFunction) fun _ => True :=
    .forM fun f hf => stays_declareFunction fun w hw => hp w (p.words_function hf hw)
  simp only [Program.words, List.forall_mem_append] at hp
  obtain ⟨hglobals, -, hlocals, hbody, -⟩ := hp
  refine (stays_declareAll limits _ 0 hglobals).bind fun _ _ => ?_
  refine hfunctions.bind fun _ _ => ?_
  have henter : Stays (modify fun m => { m with scopes := m.scopes.pushEntry } : Exec PUnit)
      fun _ => True :=
    .modifyGet fun _ hm => ⟨⟨hm.bindings.push .entry .global, hm.findings⟩, trivial⟩
  refine henter.bind fun _ _ => ?_
  refine (stays_declareAll limits _ 0 hlocals).bind fun _ _ => ?_
  refine (stays_executeAll (modest_invoke hlimits _) _ 0 p.body hbody).bind fun _ _ => ?_
  unfold checkExit
  split
  · exact .pure trivial
  · exact .report rfl _

end Exec

/-- **All states of a run of a program with small literals are small.** -/
theorem Program.Reaches.small {limits : Limits} {p : Program} {input : Input} {m : Machine}
    (h : p.Reaches limits input m) (hlimits : limits.integerRange = Limits.standard.integerRange)
    (hp : ∀ w ∈ p.words, w.Small) : m.Small := by
  have hinitial := Machine.small_initial input
  rcases h with rfl | hpass
  · exact hinitial
  · exact (Exec.stays_runProgram hlimits hp _ hinitial).1 m hpass

end Bistro
