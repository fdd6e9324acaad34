import Bistro.Exec.Run
import Bistro.Proofs.Scope.Bare

/-!
# Two runs side by side

Many statements about runs compare two of them: one that sees other scopes, one under other limits,
or twice the same.  Such a comparison is made for the few steps all others are composed of, and it
then holds of every construct: of expressions and statements by their structure, and of calls by the
depth to which they may still be nested.

Steps come in two classes.  The scopes of loops and branches take back what is declared in them, so
a step that declares names in the innermost scope can be compared more loosely than the others.

## Main definitions

* `Exec.StepRelation` — a way to compare two steps.
* `Exec.Primitive` — what must hold of the steps that all others are composed of.
* `Exec.Congruence` — the same with those steps that depend on the limits of a run.

## Main results

* `Exec.Primitive.congruence` — under the same limits the former suffices.
* `Exec.Congruence.evaluate`, `Exec.Congruence.execute` — expressions and statements.
* `Exec.Congruence.invoke` — calls.
-/

namespace Bistro

/-- Whether a statement declares a name in the scope it stands in. -/
def Statement.declares : Statement → Bool
  | .forLoop declares .. => declares
  | _ => false

theorem Exec.valueOnly_replaceElement (index : Nat) (v : Value) :
    Binding.ValueOnly (replaceElement index v) := by
  intro b
  unfold replaceElement
  split <;> rfl

namespace Exec

/-- A way to compare two steps. -/
abbrev StepRelation := ∀ α : Type, Exec α → Exec α → Prop

/-- Calls that are carried out in two ways compare. -/
def CallsAlike (R : StepRelation) (call call' : Call) : Prop :=
  ∀ f line args, R (Option Value) (call f line args) (call' f line args)

variable {α β : Type} {R S : StepRelation} {limits limits' : Limits}

/-- Two ways to compare steps: `R` for those that declare nothing in the innermost scope, and the
looser `S` for all.  Both are kept when steps are taken one after the other, and they hold of the
steps that all others are composed of. -/
structure Primitive (R S : StepRelation) : Prop where
  pure {α : Type} (a : α) : R α (pure a) (pure a)
  bind {α β : Type} {x x' : Exec α} {f f' : α → Exec β} :
    R α x x' → (∀ a, R β (f a) (f' a)) → R β (x >>= f) (x' >>= f')
  /-- Steps that may declare names, one after the other. -/
  row {α β : Type} {x x' : Exec α} {f f' : α → Exec β} :
    S α x x' → (∀ a, S β (f a) (f' a)) → S β (x >>= f) (x' >>= f')
  loosen {α : Type} {x x' : Exec α} : R α x x' → S α x x'
  report (f : Finding) (line : Nat) : R Unit (Exec.report f line) (Exec.report f line)
  lookup (name : String) : R _ (Exec.lookup name) (Exec.lookup name)
  /-- A value is stored. -/
  adjust {f : Binding → Binding} (hf : Binding.ValueOnly f) (name : String) :
    R Unit (modify fun m => { m with scopes := m.scopes.adjust name f })
      (modify fun m => { m with scopes := m.scopes.adjust name f })
  serve (text : String) (line : Nat) :
    R Unit (modify fun m => { m with output := m.output.serve text line })
      (modify fun m => { m with output := m.output.serve text line })
  ask (name : String) : R _ (Exec.ask name) (Exec.ask name)
  declare (b : Binding) : S Unit (Exec.declare b) (Exec.declare b)
  atSite {α : Type} {x x' : Exec α} (site : Site) :
    R α x x' → R α (Exec.atSite site x) (Exec.atSite site x')
  /-- A step that may declare names, at a site. -/
  rowAtSite {α : Type} {x x' : Exec α} (site : Site) :
    S α x x' → S α (Exec.atSite site x) (Exec.atSite site x')
  /-- What is declared in a scope of its own is gone behind it. -/
  inScope {α : Type} {x x' : Exec α} {kind : Scope.Kind} (hkind : kind ≠ .function) :
    S α x x' → R α (Exec.inScope (·.push kind) x) (Exec.inScope (·.push kind) x')

namespace Primitive

variable (h : Primitive R S)
include h

theorem reject (f : Finding) (line : Nat) :
    R (Option α) (reject f line) (reject f line) :=
  h.bind (h.report f line) fun _ => h.pure none

theorem reportFalse (f : Finding) (line : Nat) :
    R Bool (Exec.report f line >>= fun _ => return false)
      (Exec.report f line >>= fun _ => return false) :=
  h.bind (h.report f line) fun _ => h.pure false

theorem checkType (target : ValueType) (v : Value) (use : Finding.Use) (line : Nat) :
    R _ (checkType target v use line) (checkType target v use line) := by
  unfold Exec.checkType
  split
  · exact h.pure _
  · exact h.reject _ _

theorem store (name : String) (v : Value) : R Unit (store name v) (store name v) :=
  h.adjust (Binding.valueOnly_withValue v) name

theorem forM {f f' : α → Exec PUnit} (hf : ∀ a, S PUnit (f a) (f' a)) (as : List α) :
    S PUnit (as.forM f) (as.forM f') := by
  induction as with
  | nil => exact h.loosen (h.pure _)
  | cons a as ih => exact h.row (hf a) fun _ => ih

/-! ### Reading -/

theorem readVariable (name : String) (line : Nat) :
    R _ (readVariable name line) (readVariable name line) := by
  refine h.bind (h.lookup name) fun r => ?_
  cases r with
  | none => exact h.reject _ _
  | some b =>
    dsimp only
    split
    · exact h.reject _ _
    · split
      · exact h.pure _
      · exact h.reject _ _

theorem readElement (name : String) (index : Int) (line : Nat) :
    R _ (readElement name index line) (readElement name index line) := by
  refine h.bind (h.lookup name) fun r => ?_
  cases r with
  | none => exact h.reject _ _
  | some b =>
    dsimp only
    split
    · split
      · exact h.pure _
      · exact h.reject _ _
    · exact h.reject _ _

theorem resolveFunction (name : String) (line : Nat) :
    R _ (resolveFunction name line) (resolveFunction name line) := by
  refine h.bind (h.lookup name) fun r => ?_
  cases r with
  | none => exact h.reject _ _
  | some b =>
    dsimp only
    split
    · exact h.pure _
    · exact h.reject _ _

theorem resolveSlot (target : Place) (line : Nat) :
    R _ (resolveSlot target line) (resolveSlot target line) := by
  refine h.bind (h.lookup target.name) fun r => ?_
  cases r with
  | none => exact h.reject _ _
  | some b =>
    dsimp only
    split
    · exact h.pure _
    · exact h.pure _
    · exact h.reject _ _
    · split
      · exact h.pure _
      · exact h.reject _ _
    · exact h.reject _ _

/-! ### Operators that do not depend on limits -/

theorem fractionArithmetic (op : BinaryOp) (x y : Binary64) (line : Nat) :
    R _ (fractionArithmetic op x y line) (fractionArithmetic op x y line) := by
  unfold Exec.fractionArithmetic
  split
  · exact h.reject _ _
  · split
    · exact h.pure _
    · exact h.reject _ _

theorem equality (op : BinaryOp) (left right : Value) (line : Nat) :
    R _ (equality op left right line) (equality op left right line) := by
  unfold Exec.equality
  split
  · exact h.pure _
  · split
    · exact h.pure _
    · split
      · exact h.pure _
      · exact h.reject _ _

theorem order (op : BinaryOp) (left right : Value) (line : Nat) :
    R _ (order op left right line) (order op left right line) := by
  unfold Exec.order
  split
  · exact h.pure _
  · exact h.pure _
  · split
    · exact h.pure _
    · exact h.reject _ _

theorem applyNegation (symbol : String) (f : Bool → Bool) (v : Option Value) (line : Nat) :
    R _ (applyNegation symbol f v line) (applyNegation symbol f v line) := by
  unfold Exec.applyNegation
  split
  · exact h.pure _
  · exact h.pure _
  · exact h.reject _ _

/-! ### Declarations and parameters -/

theorem declareVariable (type : ValueType) (d : Declarator) :
    S Unit (declareVariable type d) (declareVariable type d) := by
  unfold Exec.declareVariable
  cases d.init with
  | none => exact h.row (h.loosen (h.pure none)) fun value => h.declare _
  | some init => exact h.row (h.loosen (h.checkType _ _ _ _)) fun value => h.declare _

theorem arrayElements (element : ValueType) (name : String) (line : Nat)
    (literals : List Literal) :
    R _ (arrayElements element name line literals)
      (arrayElements element name line literals) := by
  induction literals with
  | nil => exact h.pure _
  | cons l rest ih => exact h.bind (h.checkType _ _ _ _) fun v => h.bind ih fun vs => h.pure _

theorem checkArguments (f : Function) (line place : Nat) (parameters : List Parameter)
    (values : List Value) :
    R _ (checkArguments f line place parameters values)
      (checkArguments f line place parameters values) := by
  induction parameters generalizing place values with
  | nil => exact h.pure _
  | cons p parameters ih =>
    cases values with
    | nil => exact h.pure _
    | cons v values =>
      exact h.bind (h.checkType _ _ _ _) fun v => h.bind (ih _ _) fun vs => h.pure _

theorem bindParameters (parameters : List Parameter) (values : List Value) :
    S Unit (bindParameters parameters values) (bindParameters parameters values) := by
  induction parameters generalizing values with
  | nil => exact h.loosen (h.pure _)
  | cons p parameters ih =>
    cases values with
    | nil => exact h.loosen (h.pure _)
    | cons v values => exact h.row (h.declare _) fun _ => ih values

theorem declareLoopVariable (var : String) (initial : Option Value) (line : Nat) :
    S Bool (declareLoopVariable var initial line) (declareLoopVariable var initial line) := by
  unfold Exec.declareLoopVariable
  cases initial with
  | none =>
    exact h.row (h.loosen (h.pure none)) fun value =>
      h.row (h.declare _) fun _ => h.loosen (h.pure _)
  | some v =>
    exact h.row (h.loosen (h.checkType _ _ _ _)) fun value =>
      h.row (h.declare _) fun _ => h.loosen (h.pure _)

theorem reuseLoopVariable (var : String) (initial : Option Value) (line : Nat) :
    R Bool (reuseLoopVariable var initial line) (reuseLoopVariable var initial line) := by
  refine h.bind (h.lookup var) fun r => ?_
  cases r with
  | none => exact h.reportFalse _ _
  | some b =>
    dsimp only
    split
    · cases initial with
      | none => exact h.pure _
      | some v =>
        refine h.bind (h.checkType _ _ _ _) fun r => ?_
        cases r with
        | none => exact h.pure _
        | some v => exact h.bind (h.store _ _) fun _ => h.pure _
    · exact h.reportFalse _ _

theorem beginFor (declares : Bool) (var : String) (initial : Option Value) (line : Nat) :
    S Bool (beginFor declares var initial line) (beginFor declares var initial line) := by
  unfold Exec.beginFor
  split
  · exact h.declareLoopVariable var initial line
  · exact h.loosen (h.reuseLoopVariable var initial line)

/-! ### Steps under the same limits -/

theorem integerArithmetic (limits : Limits) (op : BinaryOp) (a b : Int) (line : Nat) :
    R _ (integerArithmetic limits op a b line) (integerArithmetic limits op a b line) := by
  unfold Exec.integerArithmetic
  split
  · exact h.reject _ _
  · split
    · exact h.reject _ _
    · split
      · exact h.pure _
      · exact h.reject _ _

theorem readInput (limits : Limits) (name : String) (line : Nat) :
    R Unit (readInput limits name line) (readInput limits name line) := by
  refine h.bind (h.lookup name) fun r => ?_
  cases r with
  | none => exact h.report _ _
  | some b =>
    dsimp only
    split
    · refine h.bind (h.ask name) fun r => ?_
      cases r with
      | none => exact h.report _ _
      | some text =>
        dsimp only
        split
        · exact h.store _ _
        · exact h.report _ _
    · exact h.report _ _

/-- An array of a known length is declared. -/
theorem declareElements (a : ArrayDeclaration) (dimension : Nat) (given : List Value) :
    S Unit
      (Exec.declare ((Binding.array a.name a.element.valueType dimension a.line).withValue
        (.recipe (given ++ List.replicate (dimension - given.length)
          (Value.default a.element.valueType)))))
      (Exec.declare ((Binding.array a.name a.element.valueType dimension a.line).withValue
        (.recipe (given ++ List.replicate (dimension - given.length)
          (Value.default a.element.valueType))))) :=
  h.declare _

theorem declareArray (limits : Limits) (a : ArrayDeclaration) :
    S Unit (declareArray limits a) (declareArray limits a) := by
  unfold Exec.declareArray
  dsimp only
  split
  · exact h.row (h.loosen (h.report _ _)) fun _ => h.declare _
  · next dimension _ =>
    have helements : ∀ literals : List Literal, S Unit
        (Exec.arrayElements a.element.valueType a.name a.line (literals.take dimension) >>= _) _ :=
      fun literals => h.row (h.loosen (h.arrayElements _ _ _ _)) (h.declareElements a dimension)
    split
    · exact h.row (h.loosen (h.pure [])) (h.declareElements a dimension)
    · split
      · exact h.row (h.loosen (h.report _ _)) fun _ => helements _
      · split
        · exact h.row (h.loosen (h.report _ _)) fun _ => helements _
        · exact helements _

theorem repeatWhile {test test' pass pass' : Exec Bool} {stopped stopped' : Exec Unit}
    (htest : R Bool test test') (hpass : R Bool pass pass') (hstopped : R Unit stopped stopped')
    (passes : Nat) :
    R Unit (repeatWhile test pass stopped passes)
      (repeatWhile test' pass' stopped' passes) := by
  induction passes with
  | zero =>
    refine h.bind htest fun b => ?_
    cases b with
    | false => exact h.pure _
    | true => exact hstopped
  | succ passes ih =>
    refine h.bind htest fun b => ?_
    cases b with
    | false => exact h.pure _
    | true =>
      refine h.bind hpass fun goesOn => ?_
      cases goesOn with
      | false => exact h.pure _
      | true => exact ih

theorem repeatUntil {pass pass' : Exec Unit} {test test' : Exec Bool} {stopped stopped' : Exec Unit}
    (hpass : R Unit pass pass') (htest : R Bool test test') (hstopped : R Unit stopped stopped')
    (passes : Nat) :
    R Unit (repeatUntil pass test stopped passes)
      (repeatUntil pass' test' stopped' passes) := by
  induction passes with
  | zero => exact hstopped
  | succ passes ih =>
    refine h.bind hpass fun _ => h.bind htest fun b => ?_
    cases b with
    | false => exact h.pure _
    | true => exact ih

end Primitive

/-! ### Steps that depend on limits -/

/-- Two ways to compare steps that also hold of those steps that depend on limits. -/
structure Congruence (limits limits' : Limits) (R S : StepRelation) : Prop
    extends Primitive R S where
  integerArithmetic (op : BinaryOp) (a b : Int) (line : Nat) :
    R _ (Exec.integerArithmetic limits op a b line) (Exec.integerArithmetic limits' op a b line)
  readInput (name : String) (line : Nat) :
    R Unit (Exec.readInput limits name line) (Exec.readInput limits' name line)
  declareArray (a : ArrayDeclaration) :
    S Unit (Exec.declareArray limits a) (Exec.declareArray limits' a)
  repeatWhile {test test' pass pass' : Exec Bool} (keyword : String) (line : Nat) :
    R Bool test test' → R Bool pass pass' →
    R Unit
      (Exec.repeatWhile test pass
        (Exec.report (.loopStopped keyword limits.maxLoopIterations) line) limits.maxLoopIterations)
      (Exec.repeatWhile test' pass'
        (Exec.report (.loopStopped keyword limits'.maxLoopIterations) line)
        limits'.maxLoopIterations)
  repeatUntil {pass pass' : Exec Unit} {test test' : Exec Bool} (keyword : String) (line : Nat) :
    R Unit pass pass' → R Bool test test' →
    R Unit
      (Exec.repeatUntil pass test
        (Exec.report (.loopStopped keyword limits.maxLoopIterations) line) limits.maxLoopIterations)
      (Exec.repeatUntil pass' test'
        (Exec.report (.loopStopped keyword limits'.maxLoopIterations) line)
        limits'.maxLoopIterations)

/-- Under the same limits nothing else is to be compared. -/
theorem Primitive.congruence (h : Primitive R S) (limits : Limits) :
    Congruence limits limits R S where
  toPrimitive := h
  integerArithmetic := h.integerArithmetic limits
  readInput := h.readInput limits
  declareArray := h.declareArray limits
  repeatWhile _ _ htest hpass := h.repeatWhile htest hpass (h.report _ _) _
  repeatUntil _ _ hpass htest := h.repeatUntil hpass htest (h.report _ _) _

namespace Congruence

variable (h : Congruence limits limits' R S)
include h

/-! ### Operators and stores -/

theorem arithmetic (op : BinaryOp) (left right : Value) (line : Nat) :
    R _ (arithmetic limits op left right line) (arithmetic limits' op left right line) := by
  unfold Exec.arithmetic
  split
  · split
    · exact h.pure _
    · exact h.reject _ _
  · exact h.integerArithmetic _ _ _ _
  · split
    · exact h.fractionArithmetic _ _ _ _
    · exact h.reject _ _

theorem applyBinary (op : BinaryOp) (left right : Value) (line : Nat) :
    R _ (applyBinary limits op left right line) (applyBinary limits' op left right line) := by
  have hequality := h.equality op left right line
  have horder := h.order op left right line
  unfold Exec.applyBinary
  cases op with
  | add | sub | mul | div | mod => exact h.arithmetic _ _ _ _
  | equal | notEqual => exact h.bind hequality fun _ => h.pure _
  | less | greater | lessEqual | greaterEqual => exact h.bind horder fun _ => h.pure _
  | both | either =>
    dsimp only
    split
    · exact h.pure _
    · exact h.reject _ _

theorem applyBinary? (op : BinaryOp) (left right : Option Value) (line : Nat) :
    R _ (applyBinary? limits op left right line)
      (applyBinary? limits' op left right line) := by
  unfold Exec.applyBinary?
  split
  · exact h.applyBinary _ _ _ _
  · exact h.pure _

theorem combine (op : AssignOp) (current : Option Value) (v : Value) (name : String) (line : Nat) :
    R _ (combine limits op current v name line)
      (combine limits' op current v name line) := by
  unfold Exec.combine
  cases op.binary? with
  | none => exact h.pure _
  | some binary =>
    cases current with
    | none => exact h.reject _ _
    | some current => exact h.applyBinary _ _ _ _

theorem fillSlot (name : String) (op : AssignOp) (v : Value) (line : Nat) (slot : Slot) :
    R Unit (fillSlot limits name op v line slot) (fillSlot limits' name op v line slot) := by
  cases slot with
  | scalar target current =>
    refine h.bind (h.combine op current v name line) fun r => ?_
    cases r with
    | none => exact h.pure _
    | some next =>
      refine h.bind (h.checkType _ _ _ _) fun r => ?_
      cases r with
      | none => exact h.pure _
      | some next => exact h.store _ _
  | whole element dimension =>
    simp only [Exec.fillSlot]
    split
    · exact h.store _ _
    · exact h.report _ _
  | element element index current =>
    refine h.bind (h.combine op (some current) v name line) fun r => ?_
    cases r with
    | none => exact h.pure _
    | some next =>
      refine h.bind (h.checkType _ _ _ _) fun r => ?_
      cases r with
      | none => exact h.pure _
      | some next => exact h.adjust (valueOnly_replaceElement index next) name

theorem assign (target : Place) (op : AssignOp) (v : Option Value) (line : Nat) :
    R Unit (assign limits target op v line) (assign limits' target op v line) := by
  refine h.bind (h.resolveSlot target line) fun r => ?_
  cases r with
  | none => exact h.pure _
  | some slot =>
    cases v with
    | none => exact h.pure _
    | some v => exact h.fillSlot _ _ _ _ _

theorem takeStep (name : String) (op : StepOp) (line : Nat) :
    R Bool (takeStep limits name op line) (takeStep limits' name op line) := by
  refine h.bind (h.lookup name) fun r => ?_
  cases r with
  | none => exact h.reportFalse _ _
  | some b =>
    dsimp only
    split
    · split
      · exact h.reportFalse _ _
      · refine h.bind (h.applyBinary _ _ _ _) fun r => ?_
        cases r with
        | none => exact h.pure _
        | some next =>
          refine h.bind (h.checkType _ _ _ _) fun r => ?_
          cases r with
          | none => exact h.pure _
          | some next => exact h.bind (h.store _ _) fun _ => h.pure _
    · exact h.reportFalse _ _
    · exact h.reportFalse _ _

/-! ### Declarations -/

theorem declareOne (d : Declaration) :
    S Unit (declareOne limits d) (declareOne limits' d) := by
  match d with
  | .variables type declarators => exact h.forM (h.declareVariable _) declarators
  | .array a => exact h.declareArray a

theorem declareAll (site : Site) (i : Nat) (ds : List Declaration) :
    S Unit (declareAll limits site i ds) (declareAll limits' site i ds) := by
  induction ds generalizing i with
  | nil => exact h.loosen (h.pure _)
  | cons d ds ih => exact h.row (h.rowAtSite _ (h.declareOne d)) fun _ => ih _

/-! ### Expressions -/

variable {call call' : Call}

mutual
theorem evaluate (hcall : CallsAlike R call call') (e : Expr) :
    R (Option Value) (evaluate limits call e) (evaluate limits' call' e) := by
  match e with
  | .literal _ _ => exact h.pure _
  | .var name line => exact h.readVariable name line
  | .element name index line => exact h.readElement name index line
  | .call name args line =>
    refine h.bind (h.resolveFunction name line) fun r => ?_
    cases r with
    | none => exact h.pure _
    | some f =>
      dsimp only
      split
      · exact h.reject _ _
      · exact h.bind (evaluateAll hcall args) fun values => hcall _ _ _
  | .binary op left right line =>
    refine h.bind (evaluate hcall left) fun l => h.bind (evaluate hcall right) fun r => ?_
    exact h.applyBinary? _ _ _ _
  | .not operand line => exact h.bind (evaluate hcall operand) fun v => h.applyNegation _ _ _ _
  | .doubleNot operand line =>
    exact h.bind (evaluate hcall operand) fun v => h.applyNegation _ _ _ _

theorem evaluateAll (hcall : CallsAlike R call call') (es : List Expr) :
    R (List (Option Value)) (evaluateAll limits call es) (evaluateAll limits' call' es) := by
  match es with
  | [] => exact h.pure _
  | e :: rest =>
    exact h.bind (evaluate hcall e) fun v => h.bind (evaluateAll hcall rest) fun vs => h.pure _
end

theorem test (hcall : CallsAlike R call call') (condition : Expr) :
    R Bool (test limits call condition) (test limits' call' condition) := by
  refine h.bind (h.evaluate hcall condition) fun r => ?_
  split
  · exact h.pure _
  · exact h.reportFalse _ _
  · exact h.pure _

/-! ### Statements -/

theorem callStatement (hcall : CallsAlike R call call') (name : String) (args : List Expr)
    (line : Nat) :
    R Unit (callStatement limits call name args line)
      (callStatement limits' call' name args line) := by
  refine h.bind (h.resolveFunction name line) fun r => ?_
  cases r with
  | none => exact h.pure _
  | some f =>
    exact h.bind (h.evaluateAll hcall args) fun values =>
      h.bind (hcall _ _ _) fun _ => h.pure _

theorem serveParts (hcall : CallsAlike R call call') (parts : List Expr) (line : Nat) :
    R Unit (serveParts limits call parts line) (serveParts limits' call' parts line) := by
  refine h.bind (h.evaluateAll hcall parts) fun values => ?_
  cases allValues values with
  | none => exact h.pure _
  | some values => exact h.serve _ _

/-- The passes of a counting loop. -/
theorem countingLoop (hcall : CallsAlike R call call') {site : Site} {body : List Statement}
    (hbody : S Unit (executeAll limits call site 0 body) (executeAll limits' call' site 0 body))
    (condition : Expr) (stepVar : String) (step : StepOp) (line : Nat) :
    R Unit
      (Exec.repeatWhile (Exec.test limits call condition)
        (do
          Exec.inScope (·.push .loop) (executeAll limits call site 0 body)
          Exec.takeStep limits stepVar step line)
        (Exec.report (.loopStopped "for" limits.maxLoopIterations) line) limits.maxLoopIterations)
      (Exec.repeatWhile (Exec.test limits' call' condition)
        (do
          Exec.inScope (·.push .loop) (executeAll limits' call' site 0 body)
          Exec.takeStep limits' stepVar step line)
        (Exec.report (.loopStopped "for" limits'.maxLoopIterations) line)
        limits'.maxLoopIterations) :=
  h.repeatWhile _ _ (h.test hcall condition)
    (h.bind (h.inScope (by decide) hbody) fun _ => h.takeStep _ _ _)

mutual
/-- A statement that declares no name is compared closely, any other one loosely. -/
theorem execute (hcall : CallsAlike R call call') (site : Site) (st : Statement) :
    (st.declares = false →
      R Unit (execute limits call site st) (execute limits' call' site st)) ∧
    S Unit (execute limits call site st) (execute limits' call' site st) := by
  -- only a counting loop can declare a name, so the other statements need the first part only
  have hboth : ∀ {x x' : Exec Unit}, R Unit x x' →
      (st.declares = false → R Unit x x') ∧ S Unit x x' := fun hx => ⟨fun _ => hx, h.loosen hx⟩
  match st with
  | .call name args line => exact hboth (h.atSite site (h.callStatement hcall name args line))
  | .assign target op value line =>
    exact hboth (h.atSite site (h.bind (h.evaluate hcall value) fun v => h.assign _ _ _ _))
  | .step name op line =>
    exact hboth (h.atSite site (h.bind (h.takeStep name op line) fun _ => h.pure _))
  | .taste branches otherwise line =>
    exact hboth (h.atSite site
      (executeBranches hcall site 0 branches (executeOptional hcall _ otherwise)))
  | .flip subject cases otherwise line =>
    refine hboth (h.atSite site (h.bind (h.readVariable subject line) fun r => ?_))
    cases r with
    | none => exact h.pure _
    | some v => exact executeCases hcall site subject v 0 cases (executeOptional hcall _ otherwise)
  | .forLoop true var init condition stepVar step body line =>
    refine ⟨nofun, h.rowAtSite site (h.row (h.loosen (h.evaluate hcall init)) fun initial =>
      h.row (h.declareLoopVariable var initial line) fun begun => ?_)⟩
    cases begun with
    | false => exact h.loosen (h.pure _)
    | true => exact h.loosen (h.countingLoop hcall (executeAll hcall site 0 body) _ _ _ _)
  | .forLoop false var init condition stepVar step body line =>
    refine hboth (h.atSite site (h.bind (h.evaluate hcall init) fun initial =>
      h.bind (h.reuseLoopVariable var initial line) fun begun => ?_))
    cases begun with
    | false => exact h.pure _
    | true => exact h.countingLoop hcall (executeAll hcall site 0 body) _ _ _ _
  | .simmer condition body line =>
    exact hboth (h.atSite site (h.repeatWhile _ _ (h.test hcall condition)
      (h.bind (h.inScope (by decide) (executeAll hcall site 0 body)) fun _ => h.pure true)))
  | .keepmix body condition line =>
    exact hboth (h.atSite site (h.repeatUntil _ _
      (h.inScope (by decide) (executeAll hcall site 0 body)) (h.test hcall condition)))
  | .serve parts line => exact hboth (h.atSite site (h.serveParts hcall parts line))
  | .make target line => exact hboth (h.atSite site (h.readInput target line))

theorem executeAll (hcall : CallsAlike R call call') (site : Site) (i : Nat)
    (sts : List Statement) :
    S Unit (executeAll limits call site i sts) (executeAll limits' call' site i sts) := by
  match sts with
  | [] => exact h.loosen (h.pure _)
  | st :: rest => exact h.row (execute hcall _ st).2 fun _ => executeAll hcall site (i + 1) rest

theorem executeOptional (hcall : CallsAlike R call call') (site : Site)
    (body : Option (List Statement)) :
    R Unit (executeOptional limits call site body)
      (executeOptional limits' call' site body) := by
  match body with
  | none => exact h.pure _
  | some body => exact h.inScope (by decide) (executeAll hcall site 0 body)

theorem executeBranches (hcall : CallsAlike R call call') (site : Site) (i : Nat)
    (branches : List Branch)
    {otherwise otherwise' : Exec Unit} (ho : R Unit otherwise otherwise') :
    R Unit (executeBranches limits call site i branches otherwise)
      (executeBranches limits' call' site i branches otherwise') := by
  match branches with
  | [] => exact ho
  | ⟨condition, body, _⟩ :: rest =>
    refine h.bind (h.test hcall condition) fun b => ?_
    cases b with
    | false => exact executeBranches hcall site (i + 1) rest ho
    | true => exact h.inScope (by decide) (executeAll hcall _ 0 body)

theorem executeCases (hcall : CallsAlike R call call') (site : Site) (subject : String)
    (v : Value) (i : Nat) (cases : List Case)
    {otherwise otherwise' : Exec Unit} (ho : R Unit otherwise otherwise') :
    R Unit (executeCases limits call site subject v i cases otherwise)
      (executeCases limits' call' site subject v i cases otherwise') := by
  match cases with
  | [] => exact ho
  | ⟨value, body, line⟩ :: rest =>
    rw [Exec.executeCases, Exec.executeCases]
    split
    · exact h.bind (h.report _ _) fun _ => executeCases hcall site subject v (i + 1) rest ho
    · split
      · exact h.inScope (by decide) (executeAll hcall _ 0 body)
      · exact executeCases hcall site subject v (i + 1) rest ho
end

/-! ### Calls -/

theorem functionResult (hcall : CallsAlike R call call') (f : Function) (site : Site) :
    R _ (functionResult limits call f site) (functionResult limits' call' f site) := by
  unfold Exec.functionResult
  split
  · refine h.atSite site (h.bind (h.evaluate hcall _) fun r => ?_)
    cases r with
    | none => exact h.pure _
    | some v => exact h.checkType _ _ _ _
  · exact h.pure _

/-- The body of a function is compared loosely, and the call in the way that follows for it. -/
theorem runBody (hcall : CallsAlike R call call')
    {T : Exec (Option Value) → Exec (Option Value) → Prop}
    (hT : ∀ x x', S (Option Value) x x' → T (inCall x) (inCall x')) (f : Function)
    (values : List Value) :
    T (runBody limits call f values) (runBody limits' call' f values) := by
  refine hT _ _ (h.row (h.bindParameters _ _) fun _ => h.row (h.declareAll _ 0 f.locals) fun _ =>
    h.row (h.executeAll hcall _ 0 f.body) fun _ => ?_)
  exact h.loosen (h.functionResult hcall f _)

end Congruence

/-- Calls under the same limits.  The comparisons may depend on how many calls can still be nested,
of which one less is left inside a call. -/
theorem Congruence.invoke {R S : Nat → StepRelation} (limits : Limits)
    (h : ∀ depth, Primitive (R depth) (S depth))
    (hcall : ∀ depth x x', S depth (Option Value) x x' →
      R (depth + 1) (Option Value) (inCall x) (inCall x'))
    (depth : Nat) : CallsAlike (R depth) (invoke limits depth) (invoke limits depth) := by
  induction depth with
  | zero =>
    intro f line args
    unfold Exec.invoke
    split
    · exact (h 0).reject _ _
    · split
      · exact (h 0).pure _
      · exact (h 0).reject _ _
  | succ depth ih =>
    intro f line args
    unfold Exec.invoke
    split
    · exact (h (depth + 1)).reject _ _
    · split
      · exact (h (depth + 1)).pure _
      · refine (h (depth + 1)).bind ((h (depth + 1)).checkArguments f line 1 _ _) fun checked => ?_
        split
        · exact (h (depth + 1)).pure _
        · exact ((h depth).congruence limits).runBody ih (hcall depth) f _

end Exec

end Bistro
