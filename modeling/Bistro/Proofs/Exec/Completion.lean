import Bistro.Proofs.Exec.Explains

/-!
# Statements are carried out or reported

What a statement is there for is said without its errors: an assignment leaves a value in a place, a
call runs the body of a function, a loop goes on until its condition is false, and all conditions
have truth values.  Every statement of a regular program does this or records an error.

## Main definitions

* `ScopeStack.valueAt?` — the value in a place.
* `Exec.RunsBody` — a call runs the body of a function.
* `Exec.Stores`, `Exec.Steps`, `Exec.Receives` — an assignment, a step or input stores a value.
* `Exec.Chooses`, `Exec.Matches` — a choice finds what is to be done.
* `Exec.Loops` — a loop ends because its condition is false, after any number of passes.
* `Exec.Ends`, `Exec.Completes` — a statement is carried out.

## Main results

* `Exec.failed_or_test` — conditions.
* `Exec.failed_or_call`, `Exec.failed_or_stores`, `Exec.failed_or_loops` — calls, stores, loops.
* `Exec.failed_or_completes` — **a statement is carried out, or an error is recorded.**
-/

namespace Bistro

/-- The state with another present site. -/
def Machine.at (m : Machine) (site : Site) : Machine :=
  { m with diagnostics := m.diagnostics.enter site }

/-- The value in a place: of a variable, or of an element of an array. -/
def ScopeStack.valueAt? (s : ScopeStack) : Place → Option Value
  | .var name => (s.peek? name).bind (·.value)
  | .element name index => Exec.elementAt? ((s.peek? name).bind (·.value)) index

namespace Exec

/-! ### What statements are there for -/

/-- The state behind a block, which has a scope of its own. -/
def afterBlock (limits : Limits) (call : Call) (kind : Scope.Kind) (site : Site)
    (body : List Statement) (m : Machine) : Machine :=
  ((inScope (·.push kind) (executeAll limits call site 0 body)).run m).2

/-- A call from `m` finds a function, all its arguments have values, and what it gives is what the
body of the function gives when it is run with them. -/
def RunsBody (limits : Limits) (depth : Nat) (name : String) (args : List Expr) (line : Nat)
    (m : Machine) (r : Option Value × Machine) : Prop :=
  ∃ f k values l rest, (resolveFunction name line).run m = (some f, k) ∧
    (evaluateAll limits (invoke limits depth) args).run k = (values.map some, l) ∧
    depth = rest + 1 ∧ r = (runBody limits (invoke limits rest) f values).run l

/-- The value that the operator of an assignment makes of the former value and the given one is in
the place behind it. -/
def Stores (limits : Limits) (target : Place) (op : AssignOp) (v : Value) (line : Nat)
    (m m' : Machine) : Prop :=
  ∃ k next, k = ((lookup target.name).run m).2 ∧
    ((combine limits op (k.scopes.valueAt? target) v target.name line).run k).1 = some next ∧
    m'.scopes.valueAt? target = some next

/-- The value of a variable is a number, and the next one is in its place behind a step. -/
def Steps (limits : Limits) (name : String) (op : StepOp) (line : Nat) (m m' : Machine) : Prop :=
  ∃ k current next, k = ((lookup name).run m).2 ∧
    k.scopes.valueAt? (.var name) = some current ∧
    ((applyBinary limits op.binary current (.pinch 1) line).run k).1 = some next ∧
    m'.scopes.valueAt? (.var name) = some next

/-- An answer is given to the request for a variable, and it spells the value that the variable then
has. -/
def Receives (limits : Limits) (name : String) (m m' : Machine) : Prop :=
  ∃ b type text v, m.scopes.peek? name = some b ∧ b.kind = .scalar type ∧
    (m.input.ask name).1 = some text ∧ readInput? type text limits.integerRange = some v ∧
    m'.scopes.valueAt? (.var name) = some v

/-- The conditions of the branches have truth values up to the first one that holds, and the body of
that branch is executed, or else the block behind them. -/
def Chooses (limits : Limits) (call : Call) (site : Site) (otherwise : Option (List Statement)) :
    Nat → List Branch → Machine → Machine → Prop
  | i, [], m, m' => m' = ((executeOptional limits call (site.child i) otherwise).run m).2
  | i, ⟨condition, body, _⟩ :: rest, m, m' =>
    ∃ b k, (evaluate limits call condition).run m = (some (.bool b), k) ∧
      if b then m' = afterBlock limits call .branch (site.child i) body k
      else Chooses limits call site otherwise (i + 1) rest k m'

/-- The values of the arms have the type of the given one up to the first arm that has it, and the
body of that arm is executed, or else the block behind them. -/
def Matches (limits : Limits) (call : Call) (site : Site) (otherwise : Option (List Statement))
    (v : Value) : Nat → List Case → Machine → Machine → Prop
  | i, [], m, m' => m' = ((executeOptional limits call (site.child i) otherwise).run m).2
  | i, ⟨value, body, _⟩ :: rest, m, m' => value.toValue.type = v.type ∧
      if value.toValue.equals v then m' = afterBlock limits call .branch (site.child i) body m
      else Matches limits call site otherwise v (i + 1) rest m m'

/-- A loop without any limit: as long as the condition is true a pass is made, and the loop ends
when it is false. -/
inductive Loops (limits : Limits) (call : Call) (condition : Expr)
    (pass : Machine → Machine → Prop) : Machine → Machine → Prop
  | done {m m' : Machine}
      (hfalse : (evaluate limits call condition).run m = (some (.bool false), m')) :
      Loops limits call condition pass m m'
  | again {m k l m' : Machine}
      (htrue : (evaluate limits call condition).run m = (some (.bool true), k)) (hpass : pass k l)
      (hrest : Loops limits call condition pass l m') : Loops limits call condition pass m m'

/-- A statement at its site leads from one state to the other by doing what it is there for. -/
def Ends (limits : Limits) (depth : Nat) (site : Site) (m m' : Machine) : Statement → Prop
  | .call name args line => ∃ v, RunsBody limits depth name args line m (v, m')
  | .assign target op value line => ∃ v k,
      (evaluate limits (invoke limits depth) value).run m = (some v, k) ∧
      Stores limits target op v line k m'
  | .step name op line => Steps limits name op line m m'
  | .taste branches otherwise _ =>
    Chooses limits (invoke limits depth) site otherwise 0 branches m m'
  | .flip subject cases otherwise line => ∃ v k,
      (readVariable subject line).run m = (some v, k) ∧
      Matches limits (invoke limits depth) site otherwise v 0 cases k m'
  | .forLoop declares var init condition stepVar step body line => ∃ v k l,
      (evaluate limits (invoke limits depth) init).run m = (some v, k) ∧
      (beginFor declares var (some v) line).run k = (true, l) ∧
      Loops limits (invoke limits depth) condition
        (fun m => Steps limits stepVar step line
          (afterBlock limits (invoke limits depth) .loop site body m)) l m'
  | .simmer condition body _ =>
    Loops limits (invoke limits depth) condition
      (fun m m' => m' = afterBlock limits (invoke limits depth) .loop site body m) m m'
  | .keepmix body condition _ =>
    Loops limits (invoke limits depth) condition
      (fun m m' => m' = afterBlock limits (invoke limits depth) .loop site body m)
      (afterBlock limits (invoke limits depth) .loop site body m) m'
  | .serve parts line => ∃ (values : List Value) (k : Machine),
      (evaluateAll limits (invoke limits depth) parts).run m = (values.map some, k) ∧
      m' = { k with output :=
        k.output.serve (values.foldl (fun text v => text ++ v.render) "") line }
  | .make target _ => Receives limits target m m'

/-- A statement that is executed at a site does what it is there for; then the site is left. -/
def Completes (limits : Limits) (depth : Nat) (site : Site) (m : Machine) (s : Statement) : Prop :=
  ∃ last, ((execute limits (invoke limits depth) site s).run m).2 = last.at m.diagnostics.site ∧
    Ends limits depth site (m.at site) last s

/-! ### Conditions -/

open Machine (Regular Failed Owing)

variable {α : Type} {good : α → Prop} {limits : Limits} {call : Call} {m : Machine}

theorem Explains.failed {x : Exec (Option α)} (h : Explains x good) (hm : m.Regular)
    (hnone : (x.run m).1 = none) : (x.run m).2.Failed :=
  (h False m ⟨hm, False.elim⟩).2.2.failed (.inr hnone)

theorem Explains.regular {x : Exec (Option α)} (h : Explains x good) (hm : m.Regular) :
    (x.run m).2.Regular :=
  (h False m ⟨hm, False.elim⟩).2.2.regular

theorem Explains.of_eq_some {x : Exec (Option α)} (h : Explains x good) (hm : m.Regular) {a : α}
    (ha : (x.run m).1 = some a) : good a :=
  (h False m ⟨hm, False.elim⟩).2.1 a ha

theorem Steady.regular {x : Exec α} (h : Steady x good) (hm : m.Regular) :
    (x.run m).2.Regular :=
  (h False m ⟨hm, False.elim⟩).2.2.regular

theorem Steady.failed {x : Exec α} (h : Steady x good) (hm : m.Regular) (hfailed : m.Failed) :
    (x.run m).2.Failed :=
  (h True m ⟨hm, fun _ => hfailed⟩).2.2.failed trivial

theorem failed_evaluateAll (hcall : Answers call) {es : List Expr}
    (hes : Word.AllRegular (Expr.wordsAll es)) (hm : m.Regular)
    (hnone : none ∈ ((evaluateAll limits call es).run m).1) :
    ((evaluateAll limits call es).run m).2.Failed :=
  (tells_evaluateAll hcall es hes False m ⟨hm, False.elim⟩).2.2.failed (.inr hnone)

/-- The result of a condition is a truth value, or an error is recorded. -/
theorem failed_or_test (hcall : Answers call) {condition : Expr}
    (h : Word.AllRegular condition.words) (hm : m.Regular) :
    (((test limits call condition).run m).1 = false ∧
      ((test limits call condition).run m).2.Failed) ∨
    ∃ b, (evaluate limits call condition).run m =
      (some (.bool b), ((test limits call condition).run m).2) ∧
      ((test limits call condition).run m).1 = b := by
  have hexplains : Explains (evaluate limits call condition) Value.Regular :=
    explains_evaluate hcall condition h
  have hfailed := hexplains.failed hm
  unfold test
  rw [run_bind]
  rcases hrun : (evaluate limits call condition).run m with ⟨r, k⟩
  rw [hrun] at hfailed
  match r with
  | none => exact .inl ⟨rfl, hfailed rfl⟩
  | some (.bool b) => exact .inr ⟨b, rfl, rfl⟩
  | some (.pinch _) => exact .inl ⟨rfl, failed_report rfl _ _⟩
  | some (.skim _) => exact .inl ⟨rfl, failed_report rfl _ _⟩
  | some (.pasta _) => exact .inl ⟨rfl, failed_report rfl _ _⟩
  | some (.recipe _) => exact .inl ⟨rfl, failed_report rfl _ _⟩

/-! ### Calls -/

theorem failed_reject {f : Finding} (hf : f.kind.severity = .error) (line : Nat) (m : Machine) :
    ((reject f line : Exec (Option α)).run m).2.Failed :=
  failed_report hf line m

theorem failed_or_checkType (target : ValueType) (v : Value) (use : Finding.Use) (line : Nat)
    (m : Machine) : (((checkType target v use line).run m).1 = none ∧
      ((checkType target v use line).run m).2.Failed) ∨
    (checkType target v use line).run m = (some v, m) := by
  unfold checkType
  split
  · exact .inr rfl
  · exact .inl ⟨rfl, failed_reject rfl line m⟩

theorem failed_or_checkArguments (f : Function) (line place : Nat) {parameters : List Parameter}
    {values : List Value} (hlength : values.length = parameters.length) (m : Machine) :
    ((checkArguments f line place parameters values).run m).2.Failed ∨
    (checkArguments f line place parameters values).run m = (values.map some, m) := by
  induction parameters generalizing place values m with
  | nil =>
    rw [List.length_nil, List.length_eq_zero_iff] at hlength
    subst hlength
    exact .inr rfl
  | cons p parameters ih =>
    cases values with
    | nil => cases hlength
    | cons v values =>
      have hlength := Nat.succ.inj hlength
      have hlasting := lasting_primitive.checkArguments f line (place + 1) parameters values
      rw [checkArguments, run_bind]
      rcases failed_or_checkType p.type.valueType v (.argument place f.name p.name) line m with
        ⟨-, hfailed⟩ | hfits
      · exact .inl ((hlasting _).before hfailed)
      · rw [hfits]
        rcases ih (place + 1) hlength m with hfailed | hrest
        · exact .inl hfailed
        · refine .inr ?_
          rw [run_bind, hrest]
          rfl

theorem allValues_map_some (values : List Value) : allValues (values.map some) = some values := by
  induction values with
  | nil => rfl
  | cons v values ih => rw [List.map_cons, allValues, ih, Option.map_some]

/-- A call runs the body of the function with the values of its arguments, or an error is recorded;
one is there already if an argument has no value. -/
theorem failed_or_invoke (limits : Limits) (depth : Nat) (f : Function) (line : Nat)
    {args : List (Option Value)} (hnone : none ∈ args → m.Failed) :
    ((invoke limits depth f line args).run m).2.Failed ∨
    ∃ (values : List Value) (rest : Nat), args = values.map some ∧ depth = rest + 1 ∧
      (invoke limits depth f line args).run m =
        (runBody limits (invoke limits rest) f values).run m := by
  cases depth with
  | zero =>
    left
    unfold invoke
    split
    · exact failed_reject (severity_argumentCount _ _ _) line m
    · split
      · next hmissing => exact hnone (allValues_eq_none hmissing)
      · exact failed_reject rfl line m
  | succ rest =>
    unfold invoke
    split
    · exact .inl (failed_reject (severity_argumentCount _ _ _) line m)
    · next hlength =>
      split
      · next hmissing => exact .inl (hnone (allValues_eq_none hmissing))
      · next values hvalues =>
        obtain rfl := allValues_eq_some hvalues
        rw [run_bind]
        have hlength : values.length = f.parameters.length := by simpa using hlength
        rcases failed_or_checkArguments f line 1 hlength m with hfailed | hchecked
        · left
          split
          · exact hfailed
          · exact (lasting_runBody limits rest f _ _).before hfailed
        · right
          refine ⟨values, rest, rfl, rfl, ?_⟩
          rw [hchecked, allValues_map_some]

/-- Once the function is found, its body is run, or an error is recorded. -/
theorem failed_or_runsBody {depth : Nat} {name : String} {args : List Expr} {line : Nat}
    {f : Function} {k : Machine} (hargs : Word.AllRegular (Expr.wordsAll args)) (hm : m.Regular)
    (hf : (resolveFunction name line).run m = (some f, k)) :
    ((evaluateAll limits (invoke limits depth) args >>=
      fun values => invoke limits depth f line values).run k).2.Failed ∨
    RunsBody limits depth name args line m
      ((evaluateAll limits (invoke limits depth) args >>=
        fun values => invoke limits depth f line values).run k) := by
  have hk : k.Regular := by
    have hregular := (explains_resolveFunction name line).regular hm
    rwa [hf] at hregular
  have hfailed : none ∈ ((evaluateAll limits (invoke limits depth) args).run k).1 →
      ((evaluateAll limits (invoke limits depth) args).run k).2.Failed :=
    failed_evaluateAll (answers_invoke limits depth) hargs hk
  rw [run_bind]
  rcases hrun : (evaluateAll limits (invoke limits depth) args).run k with ⟨vs, l⟩
  rw [hrun] at hfailed
  rcases failed_or_invoke limits depth f line hfailed with
    hrefused | ⟨values, rest, rfl, rfl, hbody⟩
  · exact .inl hrefused
  · exact .inr ⟨f, k, values, l, rest, hf, hrun, rfl, hbody⟩

theorem failed_or_callStatement (depth : Nat) (name : String) {args : List Expr} (line : Nat)
    (hargs : Word.AllRegular (Expr.wordsAll args)) (hm : m.Regular) :
    ((callStatement limits (invoke limits depth) name args line).run m).2.Failed ∨
    ∃ v, RunsBody limits depth name args line m
      (v, ((callStatement limits (invoke limits depth) name args line).run m).2) := by
  have hfailed := (explains_resolveFunction name line).failed hm
  unfold callStatement
  rw [run_bind]
  rcases hf : (resolveFunction name line).run m with ⟨r, k⟩
  rw [hf] at hfailed
  cases r with
  | none => exact .inl (hfailed rfl)
  | some f => exact (failed_or_runsBody hargs hm hf).imp_right fun h => ⟨_, h⟩

/-- A call in an expression runs the body of a function, or an error is recorded. -/
theorem failed_or_call (depth : Nat) (name : String) {args : List Expr} (line : Nat)
    (hargs : Word.AllRegular (Expr.wordsAll args)) (hm : m.Regular) :
    ((evaluate limits (invoke limits depth) (.call name args line)).run m).2.Failed ∨
    RunsBody limits depth name args line m
      ((evaluate limits (invoke limits depth) (.call name args line)).run m) := by
  have hfailed := (explains_resolveFunction name line).failed hm
  rw [evaluate, run_bind]
  rcases hf : (resolveFunction name line).run m with ⟨r, k⟩
  rw [hf] at hfailed
  cases r with
  | none => exact .inl (hfailed rfl)
  | some f =>
    dsimp only
    split
    · exact .inl (failed_reject rfl line k)
    · exact failed_or_runsBody hargs hm hf

/-! ### Stores -/

theorem valueAt?_var {s : ScopeStack} {name : String} {b : Binding} (hb : s.peek? name = some b) :
    s.valueAt? (.var name) = b.value := by
  rw [ScopeStack.valueAt?, hb, Option.bind_some]

theorem valueAt?_element {s : ScopeStack} {name : String} {b : Binding} (index : Int)
    (hb : s.peek? name = some b) :
    s.valueAt? (.element name index) = elementAt? b.value index := by
  rw [ScopeStack.valueAt?, hb, Option.bind_some]

theorem regular_valueAt? {s : ScopeStack} (hs : s.All Binding.Regular) {target : Place} {v : Value}
    (hv : s.valueAt? target = some v) : v.Regular := by
  have hbound : ∀ name w, (s.peek? name).bind (·.value) = some w → w.Regular := by
    intro name w hw
    obtain ⟨b, hb, hvalue⟩ := Option.bind_eq_some_iff.1 hw
    exact (hs.peek? hb).value w hvalue
  cases target with
  | var name => exact hbound name v hv
  | element name index => exact regular_elementAt? (hbound name) hv

theorem valueAt?_adjust_withValue {s : ScopeStack} {name : String} {b : Binding}
    (hb : s.peek? name = some b) (v : Value) :
    (s.adjust name (·.withValue v)).valueAt? (.var name) = some v := by
  rw [ScopeStack.valueAt?, ScopeStack.peek?_adjust, hb]
  rfl

theorem valueAt?_adjust_replaceElement {s : ScopeStack} {name : String} {b : Binding}
    {items : List Value} {index : Int} (hb : s.peek? name = some b)
    (hitems : b.value = some (.recipe items)) (hindex : 0 ≤ index)
    (hlt : index.toNat < items.length) (v : Value) :
    (s.adjust name (replaceElement index.toNat v)).valueAt? (.element name index) = some v := by
  rw [ScopeStack.valueAt?, ScopeStack.peek?_adjust, hb]
  simp only [Option.map_some, Option.bind_some, replaceElement, hitems, Binding.withValue,
    elementAt?, if_neg (Int.not_lt.2 hindex)]
  exact List.getElem?_set_self hlt

/-- A step goes on with a value that is computed and checked, or an error is recorded. -/
theorem failed_or_withChecked {x : Exec (Option Value)} (hx : Explains x Value.Regular)
    (hreports : OnlyReports x) (hm : m.Regular) (target : ValueType) (use : Finding.Use)
    (line : Nat) (given : α) (f : Value → Exec α) :
    ((withChecked x target use line given f).run m).2.Failed ∨
    ∃ next k, (x.run m).1 = some next ∧ k.scopes = m.scopes ∧
      (withChecked x target use line given f).run m = (f next).run k := by
  have hfailed := hx.failed hm
  obtain ⟨d, hd⟩ := hreports.run m
  rw [withChecked, run_bind]
  rcases hrun : x.run m with ⟨r, k⟩
  rw [hrun] at hfailed hd
  obtain rfl := hd
  cases r with
  | none => exact .inl (hfailed rfl)
  | some next =>
    dsimp only
    rw [run_bind]
    rcases failed_or_checkType target next use line { m with diagnostics := d } with
      ⟨hnone, hbad⟩ | hfits
    · left
      rw [hnone]
      exact hbad
    · right
      refine ⟨next, { m with diagnostics := d }, rfl, rfl, ?_⟩
      rw [hfits]

/-- A slot is that of a place, with the value in it. -/
def Slot.Shows (s : ScopeStack) (target : Place) : Slot → Prop
  | .scalar _ current => (∃ name, target = .var name) ∧ current = s.valueAt? target
  | .whole .. => ∃ name, target = .var name
  | .element _ i current => ∃ name index b items, target = .element name index ∧ 0 ≤ index ∧
      i = index.toNat ∧ s.peek? name = some b ∧ b.value = some (.recipe items) ∧
      i < items.length ∧ s.valueAt? target = some current

/-- An assignment finds the slot of its place, or an error is recorded. -/
theorem failed_or_resolveSlot (target : Place) (line : Nat) (m : Machine) :
    (((resolveSlot target line).run m).1 = none ∧ ((resolveSlot target line).run m).2.Failed) ∨
    ∃ slot b, (resolveSlot target line).run m = (some slot, ((lookup target.name).run m).2) ∧
      ((lookup target.name).run m).2.scopes.peek? target.name = some b ∧
      slot.Shows ((lookup target.name).run m).2.scopes target := by
  unfold resolveSlot
  rw [run_bind]
  generalize hk : ((lookup target.name).run m).2 = k
  have hb : ((lookup target.name).run m).1 = k.scopes.peek? target.name := by
    rw [← hk]
    rfl
  rw [hb]
  cases hpeek : k.scopes.peek? target.name with
  | none => exact .inl ⟨rfl, failed_reject rfl line k⟩
  | some b =>
    dsimp only
    split
    · exact .inr ⟨_, b, rfl, rfl, ⟨_, rfl⟩, (valueAt?_var hpeek).symm⟩
    · exact .inr ⟨_, b, rfl, rfl, _, rfl⟩
    · exact .inl ⟨rfl, failed_reject rfl line k⟩
    · next name index element dimension hkind =>
      split
      · next current hitem =>
        obtain ⟨items, hitems, hindex, hget⟩ := elementAt?_eq_some hitem
        have hlt := (List.getElem?_eq_some_iff.1 hget).1
        have hvalue := (valueAt?_element index hpeek).trans hitem
        exact .inr ⟨_, b, rfl, rfl, name, index, b, items, rfl, hindex, rfl, hpeek, hitems, hlt,
          hvalue⟩
      · exact .inl ⟨rfl, failed_reject rfl line k⟩
    · exact .inl ⟨rfl, failed_reject rfl line k⟩

theorem failed_or_fillSlot (limits : Limits) {target : Place} (op : AssignOp) {v : Value}
    (hv : v.Regular) (line : Nat) (hm : m.Regular) {b : Binding}
    (hb : m.scopes.peek? target.name = some b) {slot : Slot} (hslot : slot.Shows m.scopes target) :
    ((fillSlot limits target.name op v line slot).run m).2.Failed ∨
    ∃ next,
      ((combine limits op (m.scopes.valueAt? target) v target.name line).run m).1 = some next ∧
      ((fillSlot limits target.name op v line slot).run m).2.scopes.valueAt? target =
        some next := by
  have hcurrent : ∀ w, m.scopes.valueAt? target = some w → w.Regular :=
    fun w hw => regular_valueAt? hm hw
  have hcombine := explains_combine limits op hcurrent hv target.name line
  have hreports := OnlyReports.combine limits op (m.scopes.valueAt? target) v target.name line
  cases slot with
  | scalar type current =>
    obtain ⟨⟨name, rfl⟩, rfl⟩ := hslot
    rcases failed_or_withChecked hcombine hreports hm type (.assignment name) line () (store name)
      with hfailed | ⟨next, l, hnext, hscopes, hstore⟩
    · exact .inl hfailed
    · refine .inr ⟨next, hnext, ?_⟩
      rw [fillSlot_scalar]
      dsimp only [Place.name] at hstore ⊢
      rw [hstore]
      exact valueAt?_adjust_withValue (hscopes ▸ hb) next
  | whole element dimension =>
    obtain ⟨name, rfl⟩ := hslot
    rw [fillSlot]
    split
    · next hfits =>
      rw [Bool.and_eq_true, decide_eq_true_eq] at hfits
      obtain ⟨rfl, -⟩ := hfits
      exact .inr ⟨v, rfl, valueAt?_adjust_withValue hb v⟩
    · exact .inl (failed_report rfl line m)
  | element element i current =>
    obtain ⟨name, index, b', items, rfl, hindex, rfl, hb', hitems, hlt, hvalue⟩ := hslot
    rw [hvalue] at hcombine hreports ⊢
    rcases failed_or_withChecked hcombine hreports hm element
      (.elementAssignment name index.toNat) line () (fun next => modify fun m =>
        { m with scopes := m.scopes.adjust name (replaceElement index.toNat next) })
      with hfailed | ⟨next, l, hnext, hscopes, hstore⟩
    · exact .inl hfailed
    · refine .inr ⟨next, hnext, ?_⟩
      rw [fillSlot_element]
      dsimp only [Place.name] at hstore ⊢
      rw [hstore]
      exact valueAt?_adjust_replaceElement (hscopes ▸ hb') hitems hindex hlt next

/-- An assignment of a value stores what its operator makes of it, or an error is recorded. -/
theorem failed_or_stores (limits : Limits) (target : Place) (op : AssignOp) {v : Value}
    (hv : v.Regular) (line : Nat) (hm : m.Regular) :
    ((assign limits target op (some v) line).run m).2.Failed ∨
    Stores limits target op v line m ((assign limits target op (some v) line).run m).2 := by
  have hk : ((lookup target.name).run m).2.Regular := (steady_lookup target.name).regular hm
  unfold assign
  rw [run_bind]
  rcases failed_or_resolveSlot target line m with ⟨hnone, hfailed⟩ | ⟨slot, b, hrun, hb, hslot⟩
  · left
    rw [hnone]
    exact hfailed
  · rw [hrun]
    exact (failed_or_fillSlot limits op hv line hk hb hslot).imp_right
      fun ⟨next, hnext, hstored⟩ => ⟨_, next, rfl, hnext, hstored⟩

/-- A step is taken with a variable, or an error is recorded. -/
theorem failed_or_steps (limits : Limits) (name : String) (op : StepOp) (line : Nat)
    (hm : m.Regular) :
    ((takeStep limits name op line).run m).2.Failed ∨
    (((takeStep limits name op line).run m).1 = true ∧
      Steps limits name op line m ((takeStep limits name op line).run m).2) := by
  have hk : ((lookup name).run m).2.Regular := (steady_lookup name).regular hm
  unfold takeStep
  rw [run_bind]
  unfold Steps
  have hfound : ((lookup name).run m).1 = ((lookup name).run m).2.scopes.peek? name := rfl
  rw [hfound]
  generalize ((lookup name).run m).2 = k at *
  cases hpeek : k.scopes.peek? name with
  | none => exact .inl (failed_report rfl line k)
  | some b =>
    dsimp only
    split
    · next target current hkind hcurrent =>
      split
      · exact .inl (failed_report rfl line k)
      · have hvalue := (valueAt?_var hpeek).trans hcurrent
        have hnext := explains_applyBinary limits op.binary (regular_valueAt? hk hvalue)
          (Value.regular_pinch 1) line
        rcases failed_or_withChecked hnext (OnlyReports.applyBinary _ _ _ _ _) hk target
          (.update name) line false (fun next => do
            store name next
            return true) with hfailed | ⟨next, l, hnext, hscopes, hstore⟩
        · exact .inl hfailed
        · right
          have hlast := congrArg (fun r => r.2.scopes.valueAt? (.var name)) hstore
          have hstored := hlast.trans (valueAt?_adjust_withValue (hscopes ▸ hpeek) next)
          exact ⟨congrArg Prod.fst hstore, k, current, next, rfl, hvalue, hnext, hstored⟩
    · exact .inl (failed_report rfl line k)
    · exact .inl (failed_report rfl line k)

/-- Input is received for a variable, or an error is recorded. -/
theorem failed_or_receives (limits : Limits) (name : String) (line : Nat) (m : Machine) :
    ((readInput limits name line).run m).2.Failed ∨
    Receives limits name m ((readInput limits name line).run m).2 := by
  have hfound : ((lookup name).run m).1 = (m.scopes.peek? name).map Binding.marked :=
    ScopeStack.peek?_adjust Binding.marked name m.scopes
  have hmarked : ((lookup name).run m).2.scopes.peek? name =
      (m.scopes.peek? name).map Binding.marked := hfound
  unfold readInput
  rw [run_bind, hfound]
  cases hb : m.scopes.peek? name with
  | none => exact .inl (failed_report rfl line _)
  | some b =>
    rw [hb] at hmarked
    dsimp only [Option.map_some]
    split
    · next type hkind =>
      rw [run_bind]
      have hanswer : ((ask name).run ((lookup name).run m).2).1 = (m.input.ask name).1 := rfl
      rw [hanswer]
      cases htext : (m.input.ask name).1 with
      | none => exact .inl (failed_report rfl line _)
      | some text =>
        dsimp only
        split
        · next v hv =>
          exact .inr ⟨b, type, text, v, hb, hkind, htext, hv, valueAt?_adjust_withValue hmarked v⟩
        · exact .inl (failed_report rfl line _)
    · exact .inl (failed_report rfl line _)

theorem steady_block (limits : Limits) (depth : Nat) (kind : Scope.Kind) (site : Site)
    {body : List Statement} (hbody : Word.AllRegular (Statement.wordsAll body)) :
    Steady (inScope (·.push kind) (executeAll limits (invoke limits depth) site 0 body))
      fun _ => True :=
  (steady_executeAll (answers_invoke limits depth) site 0 body hbody).inScope kind

/-! ### Choices -/

/-- The first branch whose condition holds is executed, or an error is recorded. -/
theorem failed_or_chooses (limits : Limits) (depth : Nat) (site : Site)
    {otherwise : Option (List Statement)}
    (hotherwise : Word.AllRegular (Statement.optionalWords otherwise)) (i : Nat)
    {branches : List Branch} (hbranches : Word.AllRegular (Branch.wordsAll branches))
    (hm : m.Regular) :
    let x := executeBranches limits (invoke limits depth) site i branches
      (executeOptional limits (invoke limits depth) (site.child (i + branches.length)) otherwise)
    (x.run m).2.Failed ∨
      Chooses limits (invoke limits depth) site otherwise i branches m (x.run m).2 := by
  have hcall := answers_invoke limits depth
  induction branches generalizing i m with
  | nil => exact .inr rfl
  | cons branch rest ih =>
    obtain ⟨condition, body, line⟩ := branch
    rw [Branch.wordsAll, Branch.words, Word.allRegular_append, Word.allRegular_append] at hbranches
    obtain ⟨⟨hcondition, hbody⟩, hrest⟩ := hbranches
    have htest : Steady (test limits (invoke limits depth) condition) fun _ => True :=
      steady_test hcall hcondition
    have hk := htest.regular hm
    have hindex : i + (rest.length + 1) = i + 1 + rest.length := by omega
    dsimp only
    rw [executeBranches, run_bind]
    rcases failed_or_test hcall hcondition hm with ⟨hfalse, hfailed⟩ | ⟨b, htruth, hb⟩
    · left
      rw [hfalse]
      exact (steady_executeBranches hcall site (i + 1) rest hrest
        (steady_executeOptional hcall _ otherwise hotherwise)).failed hk hfailed
    · rw [hb]
      cases b with
      | true => exact .inr ⟨true, _, htruth, rfl⟩
      | false =>
        rw [List.length_cons, hindex]
        exact (ih (i + 1) hrest hk).imp_right fun h => ⟨false, _, htruth, h⟩

/-- The first arm with the value is executed, or an error is recorded. -/
theorem failed_or_matches (limits : Limits) (depth : Nat) (site : Site)
    {otherwise : Option (List Statement)}
    (hotherwise : Word.AllRegular (Statement.optionalWords otherwise)) (subject : String)
    (v : Value) (i : Nat) {cases : List Case} (hcases : Word.AllRegular (Case.wordsAll cases))
    (hm : m.Regular) :
    let x := executeCases limits (invoke limits depth) site subject v i cases
      (executeOptional limits (invoke limits depth) (site.child (i + cases.length)) otherwise)
    (x.run m).2.Failed ∨
      Matches limits (invoke limits depth) site otherwise v i cases m (x.run m).2 := by
  have hcall := answers_invoke limits depth
  induction cases generalizing i with
  | nil => exact .inr rfl
  | cons arm rest ih =>
    obtain ⟨value, body, line⟩ := arm
    rw [Case.wordsAll, Word.allRegular_append] at hcases
    have hindex : i + (rest.length + 1) = i + 1 + rest.length := by omega
    dsimp only
    rw [executeCases, List.length_cons, hindex, Matches]
    split
    · left
      exact (steady_executeCases hcall site subject v (i + 1) rest hcases.2
        (steady_executeOptional hcall _ otherwise hotherwise)).failed
          ((Steady.report _ line).regular hm) (failed_report rfl line m)
    · next htype =>
      rw [ne_eq, Decidable.not_not] at htype
      split
      · exact .inr ⟨htype, rfl⟩
      · exact (ih (i + 1) hcases.2).imp_right fun h => ⟨htype, h⟩

/-! ### Loops -/

/-- A loop ends because its condition is false, or an error is recorded. -/
theorem failed_or_loops (limits : Limits) (hcall : Answers call) {condition : Expr}
    (hcondition : Word.AllRegular condition.words) {pass : Exec Bool}
    (passed : Machine → Machine → Prop) (hsteady : Steady pass fun _ => True)
    (hpass : ∀ k, k.Regular → (pass.run k).2.Failed ∨
      ((pass.run k).1 = true ∧ passed k (pass.run k).2))
    (f : Finding) (hf : f.kind.severity = .error) (line passes : Nat) (hm : m.Regular) :
    let x := repeatWhile (test limits call condition) pass (report f line) passes
    (x.run m).2.Failed ∨ Loops limits call condition passed m (x.run m).2 := by
  have htest : Steady (test limits call condition) fun _ => True :=
    steady_test hcall hcondition
  induction passes generalizing m with
  | zero =>
    dsimp only
    rw [repeatWhile, run_bind]
    rcases failed_or_test hcall hcondition hm with ⟨hfalse, hfailed⟩ | ⟨b, htruth, hb⟩
    · left
      rw [hfalse]
      exact hfailed
    · rw [hb]
      cases b with
      | true => exact .inl (failed_report hf line _)
      | false => exact .inr (.done htruth)
  | succ passes ih =>
    dsimp only at ih ⊢
    have hk := htest.regular hm
    rw [repeatWhile, run_bind]
    rcases failed_or_test hcall hcondition hm with ⟨hfalse, hfailed⟩ | ⟨b, htruth, hb⟩
    · left
      rw [hfalse]
      exact hfailed
    · rw [hb]
      cases b with
      | false => exact .inr (.done htruth)
      | true =>
        simp only [if_true]
        rw [run_bind]
        have hl := hsteady.regular hk
        rcases hpass _ hk with hfailed | ⟨hgoes, hpassed⟩
        · left
          split
          · exact (htest.repeatWhile hsteady f line passes).failed hl hfailed
          · exact hfailed
        · rw [hgoes]
          exact (ih hl).imp_right fun h => .again htruth hpassed h

/-- A loop that makes a pass before its first test ends because its condition is false, or an error
is recorded. -/
theorem failed_or_loopsUntil (limits : Limits) (hcall : Answers call) {condition : Expr}
    (hcondition : Word.AllRegular condition.words) {pass : Exec Unit}
    (hpass : Steady pass fun _ => True) (f : Finding) (hf : f.kind.severity = .error)
    (line passes : Nat) (hm : m.Regular) :
    let x := repeatUntil pass (test limits call condition) (report f line) passes
    (x.run m).2.Failed ∨
      Loops limits call condition (fun k l => l = (pass.run k).2) (pass.run m).2 (x.run m).2 := by
  have htest : Steady (test limits call condition) fun _ => True := steady_test hcall hcondition
  induction passes generalizing m with
  | zero => exact .inl (failed_report hf line m)
  | succ passes ih =>
    dsimp only at ih ⊢
    have hk := hpass.regular hm
    rw [repeatUntil, run_bind, run_bind]
    rcases failed_or_test hcall hcondition hk with ⟨hfalse, hfailed⟩ | ⟨b, htruth, hb⟩
    · left
      rw [hfalse]
      exact hfailed
    · rw [hb]
      cases b with
      | false => exact .inr (.done htruth)
      | true =>
        exact (ih (htest.regular hk)).imp_right fun h => .again htruth rfl h

/-! ### All statements -/

/-- A statement inside its site. -/
theorem completes_of_inside {depth : Nat} {site : Site} {s : Statement} {x : Exec Unit}
    (hx : execute limits (invoke limits depth) site s = atSite site x)
    (h : (x.run (m.at site)).2.Failed ∨
      Ends limits depth site (m.at site) (x.run (m.at site)).2 s) :
    ((execute limits (invoke limits depth) site s).run m).2.Failed ∨
      Completes limits depth site m s := by
  unfold Completes
  rw [hx, run_atSite]
  exact h.imp id fun h => ⟨_, rfl, h⟩

/-- An expression has a regular value in a regular state, or an error is recorded. -/
theorem failed_or_evaluate (limits : Limits) (depth : Nat) {e : Expr} (he : Word.AllRegular e.words)
    (hm : m.Regular) :
    ∃ r k, (evaluate limits (invoke limits depth) e).run m = (r, k) ∧ k.Regular ∧
      (∀ v, r = some v → v.Regular) ∧ (r = none → k.Failed) := by
  have hexplains : Explains (evaluate limits (invoke limits depth) e) Value.Regular :=
    explains_evaluate (answers_invoke limits depth) e he
  exact ⟨_, _, rfl, hexplains.regular hm, fun _ => hexplains.of_eq_some hm, hexplains.failed hm⟩

theorem failed_or_serves (limits : Limits) (depth : Nat) {parts : List Expr}
    (hparts : Word.AllRegular (Expr.wordsAll parts)) (line : Nat) (site : Site) (hm : m.Regular) :
    ((serveParts limits (invoke limits depth) parts line).run m).2.Failed ∨
      Ends limits depth site m ((serveParts limits (invoke limits depth) parts line).run m).2
        (.serve parts line) := by
  have hfailed : none ∈ ((evaluateAll limits (invoke limits depth) parts).run m).1 →
      ((evaluateAll limits (invoke limits depth) parts).run m).2.Failed :=
    failed_evaluateAll (answers_invoke limits depth) hparts hm
  unfold serveParts
  rw [run_bind]
  rcases hrun : (evaluateAll limits (invoke limits depth) parts).run m with ⟨vs, k⟩
  rw [hrun] at hfailed
  cases hvalues : allValues vs with
  | none => exact .inl (hfailed (allValues_eq_none hvalues))
  | some values =>
    obtain rfl := allValues_eq_some hvalues
    exact .inr ⟨values, k, hrun, rfl⟩

/-- A counting loop begins and goes on until its condition is false, or an error is recorded. -/
theorem failed_or_counts (limits : Limits) (depth : Nat) (site : Site) (declares : Bool)
    (var : String) {init condition : Expr} (stepVar : String) (step : StepOp)
    {body : List Statement} (line : Nat)
    (hinit : Word.AllRegular init.words) (hcondition : Word.AllRegular condition.words)
    (hbody : Word.AllRegular (Statement.wordsAll body)) (hm : m.Regular) :
    let x : Exec Unit := do
      let initial ← evaluate limits (invoke limits depth) init
      if ← beginFor declares var initial line then
        repeatWhile (test limits (invoke limits depth) condition)
          (do
            inScope (·.push .loop) (executeAll limits (invoke limits depth) site 0 body)
            takeStep limits stepVar step line)
          (report (.loopStopped "for" limits.maxLoopIterations) line) limits.maxLoopIterations
    (x.run m).2.Failed ∨ Ends limits depth site m (x.run m).2
      (.forLoop declares var init condition stepVar step body line) := by
  have hcall := answers_invoke limits depth
  have htest : Steady (test limits (invoke limits depth) condition) fun _ => True :=
    steady_test hcall hcondition
  have hblock := steady_block limits depth .loop site hbody
  have hpass := hblock.bind fun _ _ => steady_takeStep limits stepVar step line
  dsimp only
  rw [run_bind]
  obtain ⟨r, k, hrun, hk, hvalue, hnone⟩ := failed_or_evaluate limits depth hinit hm
  rw [hrun, run_bind]
  have hbegin : Tells (r = none) (beginFor declares var r line) (fun _ => True)
      fun begun => r = none ∨ begun = false := tells_beginFor declares var hvalue id line
  have hbegin := hbegin k ⟨hk, hnone⟩
  rcases hbegun : (beginFor declares var r line).run k with ⟨begun, l⟩
  rw [hbegun] at hbegin
  obtain ⟨-, -, hl⟩ := hbegin
  cases begun with
  | false => exact .inl (hl.failed (.inr rfl))
  | true =>
    cases r with
    | none => exact .inl ((htest.repeatWhile hpass _ _ _).failed hl.regular (hl.failed (.inl rfl)))
    | some v =>
      -- a pass takes its step, or an error is recorded
      have hloop := failed_or_loops limits hcall hcondition
        (fun k => Steps limits stepVar step line
          (afterBlock limits (invoke limits depth) .loop site body k)) hpass
        (fun k hk => failed_or_steps limits stepVar step line (hblock.regular hk))
        (.loopStopped "for" limits.maxLoopIterations) rfl line limits.maxLoopIterations hl.regular
      exact hloop.imp_right fun h => ⟨v, k, l, hrun, hbegun, h⟩

/-- **A regular statement is carried out, or an error is recorded.** -/
theorem failed_or_completes (limits : Limits) (depth : Nat) (site : Site) (s : Statement)
    (hs : Word.AllRegular s.words) (hm : m.Regular) :
    ((execute limits (invoke limits depth) site s).run m).2.Failed ∨
      Completes limits depth site m s := by
  have hcall := answers_invoke limits depth
  have hm : (m.at site).Regular := hm
  cases s with
  | call name args line =>
    rw [Statement.words, Word.allRegular_cons] at hs
    exact completes_of_inside rfl (failed_or_callStatement depth name line hs.2 hm)
  | assign target op value line =>
    rw [Statement.words, Word.allRegular_append] at hs
    refine completes_of_inside rfl ?_
    obtain ⟨r, k, hrun, hk, hvalue, hnone⟩ := failed_or_evaluate limits depth hs.2 hm
    have hassign := steady_assign limits target op hvalue line
    rw [run_bind, hrun]
    cases r with
    | none => exact .inl (hassign.failed hk (hnone rfl))
    | some v =>
      exact (failed_or_stores limits target op (hvalue v rfl) line hk).imp_right
        fun h => ⟨v, k, hrun, h⟩
  | step name op line =>
    exact completes_of_inside rfl ((failed_or_steps limits name op line hm).imp_right And.right)
  | taste branches otherwise line =>
    rw [Statement.words, Word.allRegular_append] at hs
    refine completes_of_inside rfl ?_
    have hchoice := failed_or_chooses limits depth site hs.2 0 hs.1 hm
    rwa [Nat.zero_add] at hchoice
  | flip subject cases otherwise line =>
    rw [Statement.words, Word.allRegular_cons, Word.allRegular_append] at hs
    refine completes_of_inside rfl ?_
    have hexplains := explains_readVariable subject line
    have hfailed := hexplains.failed hm
    have hk := hexplains.regular hm
    rw [run_bind]
    rcases hrun : (readVariable subject line).run (m.at site) with ⟨r, k⟩
    rw [hrun] at hfailed hk
    cases r with
    | none => exact .inl (hfailed rfl)
    | some v =>
      have hchoice := failed_or_matches limits depth site hs.2.2 subject v 0 hs.2.1 hk
      rw [Nat.zero_add] at hchoice
      exact hchoice.imp_right fun h => ⟨v, k, hrun, h⟩
  | forLoop declares var init condition stepVar step body line =>
    rw [Statement.words, Word.allRegular_cons, Word.allRegular_append, Word.allRegular_append,
      Word.allRegular_cons] at hs
    obtain ⟨-, hinit, hcondition, -, hbody⟩ := hs
    exact completes_of_inside rfl
      (failed_or_counts limits depth site declares var stepVar step line hinit hcondition hbody hm)
  | simmer condition body line =>
    rw [Statement.words, Word.allRegular_append] at hs
    have hblock := steady_block limits depth .loop site hs.2
    exact completes_of_inside rfl (failed_or_loops limits hcall hs.1
      (fun k l => l = afterBlock limits (invoke limits depth) .loop site body k)
      (hblock.bind fun _ _ => .pure trivial) (fun k hk => .inr ⟨rfl, rfl⟩)
      (.loopStopped "simmer" limits.maxLoopIterations) rfl line limits.maxLoopIterations hm)
  | keepmix body condition line =>
    rw [Statement.words, Word.allRegular_append] at hs
    have hblock := steady_block limits depth .loop site hs.1
    exact completes_of_inside rfl (failed_or_loopsUntil limits hcall hs.2 hblock
      (.loopStopped "keepmix" limits.maxLoopIterations) rfl line limits.maxLoopIterations hm)
  | serve parts line =>
    exact completes_of_inside rfl (failed_or_serves limits depth hs line site hm)
  | make target line => exact completes_of_inside rfl (failed_or_receives limits target line _)

end Exec

end Bistro
