import Bistro.Proofs.Exec.Change

/-!
# A run makes the changes of a run only

Each construct is shown to make no other changes, the store of an assignment to be one that the
binding accepts, and what is declared to be well typed.  Expressions and statements are followed by
their structure, loops by the passes that are left, and calls by the depth to which they may still
be nested.

## Main results

* `Exec.Traced.evaluate` — expressions.
* `Exec.triple_resolveSlot`, `Exec.triple_fillSlot` — assignments.
* `Exec.Traced.declareAll` — declarations.
* `Exec.Traced.execute`, `Exec.Traced.invoke` — statements and calls.
* `Exec.Traced.runProgram` — **a run makes the changes of a run only.**
-/

namespace Bistro

open Machine (Change Leads)

namespace Exec

/-! ### Expressions -/

theorem Traced.readVariable (name : String) (line : Nat) : Traced (readVariable name line) := by
  refine (Traced.lookup name).bind fun r => ?_
  split
  · exact .reject _ _
  · split
    · exact .reject _ _
    · split
      · exact .pure _
      · exact .reject _ _

theorem Traced.readElement (name : String) (index : Int) (line : Nat) :
    Traced (readElement name index line) := by
  refine (Traced.lookup name).bind fun r => ?_
  split
  · exact .reject _ _
  · split
    · split
      · exact .pure _
      · exact .reject _ _
    · exact .reject _ _

theorem Traced.resolveFunction (name : String) (line : Nat) :
    Traced (resolveFunction name line) := by
  refine (Traced.lookup name).bind fun r => ?_
  split
  · exact .reject _ _
  · split
    · exact .pure _
    · exact .reject _ _

variable {limits : Limits} {call : Call}

mutual
theorem Traced.evaluate (hcall : ∀ f line args, Traced (call f line args)) (e : Expr) :
    Traced (evaluate limits call e) := by
  match e with
  | .literal _ _ => exact .pure _
  | .var name line => exact .readVariable name line
  | .element name index line => exact .readElement name index line
  | .call name args line =>
    refine (Traced.resolveFunction name line).bind fun r => ?_
    split
    · exact .pure _
    · split
      · exact .reject _ _
      · exact (Traced.evaluateAll hcall args).bind fun values => hcall _ _ _
  | .binary op left right line =>
    refine (Traced.evaluate hcall left).bind fun l => (Traced.evaluate hcall right).bind fun r => ?_
    exact (OnlyReports.applyBinary? _ _ _ _ _).traced
  | .not operand line =>
    exact (Traced.evaluate hcall operand).bind fun v => (OnlyReports.applyNegation _ _ _ _).traced
  | .doubleNot operand line =>
    exact (Traced.evaluate hcall operand).bind fun v => (OnlyReports.applyNegation _ _ _ _).traced

theorem Traced.evaluateAll (hcall : ∀ f line args, Traced (call f line args)) (es : List Expr) :
    Traced (evaluateAll limits call es) := by
  match es with
  | [] => exact .pure _
  | e :: rest =>
    refine (Traced.evaluate hcall e).bind fun v => ?_
    exact (Traced.evaluateAll hcall rest).bind fun vs => .pure _
end

theorem Traced.test (hcall : ∀ f line args, Traced (call f line args)) (condition : Expr) :
    Traced (test limits call condition) := by
  refine (Traced.evaluate hcall condition).bind fun r => ?_
  split
  · exact .pure _
  · exact (Traced.report _ _).bind fun _ => .pure _
  · exact .pure _

/-! ### Stores -/

theorem checkType_type (target : ValueType) (v : Value) (use : Finding.Use) (line : Nat)
    (m : Machine) :
    ∀ w, ((checkType target v use line).run m).1 = some w → w.type = target := by
  intro w hw
  unfold checkType at hw
  split at hw
  · next hfits =>
    obtain rfl := Option.some.inj hw
    simpa [Value.fitsType] using hfits
  · cases hw

/-- A value that passed a check has the type, and the scopes are as before. -/
theorem triple_checkType (m₀ : Machine) (target : ValueType) (v : Value) (use : Finding.Use)
    (line : Nat) (known : ScopeStack → Prop) :
    Triple (Leads m₀) (fun m => Leads m₀ m ∧ known m.scopes) (checkType target v use line)
      fun r m => (∀ w, r = some w → w.type = target) ∧ Leads m₀ m ∧ known m.scopes :=
  ((OnlyReports.checkType target v use line).triple m₀ known).and_result
    (checkType_type target v use line)

theorem accepts_scalar {b : Binding} {target : ValueType} {v : Value}
    (hkind : b.kind = .scalar target) (hv : v.type = target) : b.Accepts v := by
  rw [Binding.Accepts, hkind]
  exact hv

/-- A slot is one of a binding. -/
def Slot.Of (b : Binding) : Slot → Prop
  | .scalar target _ => b.kind = .scalar target
  | .whole type dimension => b.kind = .array type dimension
  | .element type index _ => ∃ dimension items, b.kind = .array type dimension ∧
      b.value = some (.recipe items) ∧ index < items.length

/-- An element that is found is inside the array. -/
theorem elementAt?_eq_some {v : Option Value} {index : Int} {w : Value}
    (h : elementAt? v index = some w) :
    ∃ items, v = some (.recipe items) ∧ 0 ≤ index ∧ items[index.toNat]? = some w := by
  unfold elementAt? at h
  split at h
  · split at h
    · cases h
    · next items hneg => exact ⟨items, rfl, Int.not_lt.1 hneg, h⟩
  · cases h

/-- A slot for an element is at the index that the place names. -/
def Slot.At : Place → Slot → Prop
  | .var _, _ => True
  | .element _ index, slot =>
    0 ≤ index ∧ ∃ element current, slot = .element element index.toNat current

/-- The slot that an assignment finds is one of the binding that the name resolves to, at the place.
What is known of the state behind the look-up and is not touched by findings is still known. -/
theorem triple_resolveSlot {inv pre known : Machine → Prop} (target : Place) (line : Nat)
    (hlookup : Triple inv pre (lookup target.name)
      fun r m => known m ∧ m.scopes.peek? target.name = r)
    (hreject : ∀ f, Triple inv known (reject f line : Exec (Option Slot)) fun r m =>
      r = none ∧ known m) :
    Triple inv pre (resolveSlot target line) fun r m =>
      known m ∧ ∀ slot, r = some slot →
        ∃ b, m.scopes.peek? target.name = some b ∧ slot.Of b ∧ slot.At target := by
  -- a rejected target leaves no slot
  have hrejected : ∀ (f : Finding) (b : Option Binding),
      Triple inv (fun m => known m ∧ m.scopes.peek? target.name = b)
        (reject f line : Exec (Option Slot)) fun r m => known m ∧ ∀ slot, r = some slot →
          ∃ b, m.scopes.peek? target.name = some b ∧ slot.Of b ∧ slot.At target := by
    intro f b
    refine (hreject f).mono (fun m hm => hm.1) ?_
    rintro r m ⟨rfl, hm⟩
    exact ⟨hm, nofun⟩
  have hfound : ∀ (slot : Slot) (b : Binding), slot.Of b → slot.At target →
      Triple inv (fun m => known m ∧ m.scopes.peek? target.name = some b)
        (return some slot : Exec (Option Slot)) fun r m => known m ∧ ∀ slot, r = some slot →
          ∃ b, m.scopes.peek? target.name = some b ∧ slot.Of b ∧ slot.At target := by
    intro slot b hof hat
    refine Triple.pure fun m hm => ⟨hm.1, ?_⟩
    rintro _ ⟨⟩
    exact ⟨b, hm.2, hof, hat⟩
  refine hlookup.bind fun r => ?_
  split
  · exact hrejected _ _
  · next b =>
    split
    · next hkind => exact hfound _ b hkind trivial
    · next hkind => exact hfound _ b hkind trivial
    · exact hrejected _ _
    · next hkind =>
      split
      · next hitem =>
        obtain ⟨items, hitems, hindex, hget⟩ := elementAt?_eq_some hitem
        have hlt := (List.getElem?_eq_some_iff.1 hget).1
        exact hfound _ b ⟨_, items, hkind, hitems, hlt⟩ ⟨hindex, _, _, rfl⟩
      · exact hrejected _ _
    · exact hrejected _ _

theorem fitsArray_iff {element : ValueType} {dimension : Nat} {v : Value} :
    fitsArray element dimension v = true ↔
      ∃ items, v = .recipe items ∧ items.length = dimension ∧ ∀ x ∈ items, x.type = element := by
  cases v <;> simp [fitsArray, Value.fitsType]

/-- What an assignment stores is accepted. -/
theorem triple_fillSlot (m₀ : Machine) (limits : Limits) {name : String} (op : AssignOp) (v : Value)
    (line : Nat) {slot : Slot} {b : Binding} (hslot : slot.Of b) :
    Triple (Leads m₀) (fun m => Leads m₀ m ∧ m.scopes.peek? name = some b)
      (fillSlot limits name op v line slot) fun _ => Leads m₀ := by
  -- the value is computed while the name keeps its binding
  have hcombine : ∀ current, Triple (Leads m₀)
      (fun m => Leads m₀ m ∧ m.scopes.peek? name = some b)
      (combine limits op current v name line)
      fun _ m => Leads m₀ m ∧ m.scopes.peek? name = some b :=
    fun current => (OnlyReports.combine limits op current v name line).triple m₀
      fun scopes => scopes.peek? name = some b
  cases slot with
  | scalar target current =>
    refine (hcombine current).bind fun r => ?_
    split
    · refine (triple_checkType m₀ target _ _ line
        fun scopes => scopes.peek? name = some b).bind fun r => ?_
      split
      · next w =>
        rintro m ⟨htype, hm⟩
        exact triple_store m₀ name (accepts_scalar hslot (htype w rfl)) m hm
      · exact Triple.pure fun m hm => hm.2.1
    · exact (Traced.pure ()).triple m₀ _
  | whole element dimension =>
    rw [fillSlot]
    split
    · next hfits =>
      refine triple_store m₀ name ?_
      rw [Binding.Accepts, hslot]
      rw [Bool.and_eq_true] at hfits
      exact fitsArray_iff.1 hfits.2
    · exact (Traced.report _ _).triple m₀ _
  | element element index current =>
    obtain ⟨dimension, items, hkind, hitems, hindex⟩ := hslot
    refine (hcombine (some current)).bind fun r => ?_
    split
    · refine (triple_checkType m₀ element _ _ line
        fun scopes => scopes.peek? name = some b).bind fun r => ?_
      split
      · next w =>
        refine Triple.modify fun m hm => ?_
        have hlead := hm.2.1.tail (.element hm.2.2 hkind hitems hindex (hm.1 w rfl))
        exact ⟨hlead, hlead⟩
      · exact Triple.pure fun m hm => hm.2.1
    · exact (Traced.pure ()).triple m₀ _

theorem Traced.assign (limits : Limits) (target : Place) (op : AssignOp) (v : Option Value)
    (line : Nat) : Traced (assign limits target op v line) := by
  intro m₀
  have hreject : ∀ f : Finding, Triple (Leads m₀) (Leads m₀)
      (Exec.reject f line : Exec (Option Slot)) fun r m => r = none ∧ Leads m₀ m := by
    intro f m hm
    obtain ⟨hpasses, hend⟩ := Traced.reject f line m₀ m hm
    exact ⟨hpasses, rfl, hend⟩
  refine (triple_resolveSlot target line (triple_lookup m₀ target.name) hreject).bind fun r => ?_
  split
  · next slot =>
    split
    · rintro m ⟨hm, hslot⟩
      obtain ⟨b, hb, hof, -⟩ := hslot slot rfl
      exact triple_fillSlot m₀ limits op _ line hof m ⟨hm, hb⟩
    · exact (Traced.pure ()).triple m₀ _
  · exact (Traced.pure ()).triple m₀ _

theorem triple_ask (m₀ : Machine) (name : String) (known : ScopeStack → Prop) :
    Triple (Leads m₀) (fun m => Leads m₀ m ∧ known m.scopes) (ask name)
      fun _ m => Leads m₀ m ∧ known m.scopes :=
  Triple.modifyGet fun m hm =>
    have hlead : Leads m₀ { m with input := (m.input.ask name).2 } := hm.1.tail (.input m _)
    ⟨hlead, hlead, hm.2⟩

theorem readInput?_type {type : ValueType} {text : String} {range : IntegerRange} {v : Value}
    (h : readInput? type text range = some v) : v.type = type := by
  cases type with
  | pinch =>
    simp only [readInput?] at h
    obtain ⟨n, -, rfl⟩ := Option.map_eq_some_iff.1 h
    rfl
  | skim =>
    simp only [readInput?] at h
    obtain ⟨x, -, rfl⟩ := Option.map_eq_some_iff.1 h
    rfl
  | pasta =>
    obtain rfl := Option.some.inj h
    rfl
  | bool =>
    simp only [readInput?] at h
    split at h
    · obtain rfl := Option.some.inj h
      rfl
    · split at h
      · obtain rfl := Option.some.inj h
        rfl
      · cases h
  | recipe => cases h

theorem Traced.readInput (limits : Limits) (name : String) (line : Nat) :
    Traced (readInput limits name line) := by
  refine fun m₀ => (triple_lookup m₀ name).bind fun r => ?_
  split
  · exact (Traced.report _ _).triple m₀ _
  · next b =>
    split
    · next type hkind =>
      refine (triple_ask m₀ name fun scopes => scopes.peek? name = some b).bind fun r => ?_
      split
      · exact (Traced.report _ _).triple m₀ _
      · split
        · next v hv =>
          exact triple_store m₀ name (accepts_scalar hkind (readInput?_type hv))
        · exact (Traced.report _ _).triple m₀ _
    · exact (Traced.report _ _).triple m₀ _

theorem Traced.report_false (f : Finding) (line : Nat) :
    Traced (Exec.report f line >>= fun _ => (return false)) :=
  (Traced.report f line).bind fun _ => .pure false

theorem Traced.takeStep (limits : Limits) (name : String) (op : StepOp) (line : Nat) :
    Traced (takeStep limits name op line) := by
  refine fun m₀ => (triple_lookup m₀ name).bind fun r => ?_
  split
  · exact (Traced.report_false _ line).triple m₀ _
  · next b =>
    split
    · next target current hkind hvalue =>
      split
      · exact (Traced.report_false _ line).triple m₀ _
      · -- the operator and the check only report, so the name still has the binding that was found
        refine ((OnlyReports.applyBinary limits op.binary current (.pinch 1) line).triple m₀
          fun scopes => scopes.peek? name = some b).bind fun r => ?_
        split
        · next next =>
          refine (triple_checkType m₀ target next _ line
            fun scopes => scopes.peek? name = some b).bind fun r => ?_
          split
          · next w =>
            rintro m ⟨htype, hm⟩
            have hstore := triple_store m₀ name (accepts_scalar hkind (htype w rfl))
            exact (hstore.bind fun _ => Keeps.pure true) m hm
          · exact Triple.pure fun m hm => hm.2.1
        · exact (Traced.pure false).triple m₀ _
    · exact (Traced.report_false _ line).triple m₀ _
    · exact (Traced.report_false _ line).triple m₀ _

/-! ### Declarations -/

/-- A step may rely on what is known of every result of the step before. -/
theorem Traced.bind_fact {α β : Type} {x : Exec α} {f : α → Exec β} (hx : Traced x)
    (fact : α → Prop) (hfact : ∀ m, fact (x.run m).1) (hf : ∀ a, fact a → Traced (f a)) :
    Traced (x >>= f) := by
  refine fun m₀ => ((hx m₀).and_result hfact).bind fun a => ?_
  rintro m ⟨ha, hm⟩
  exact hf a ha m₀ m hm

theorem wellTyped_scalar {name : String} {type : ValueType} {line : Nat} {value : Option Value}
    (h : ∀ v, value = some v → v.type = type) :
    Binding.WellTyped { Binding.scalar name type line with value } := h

theorem Traced.declareVariable (type : ValueType) (d : Declarator) :
    Traced (declareVariable type d) := by
  have hdeclare : ∀ value : Option Value, (∀ v, value = some v → v.type = type) →
      Traced (Exec.declare { Binding.scalar d.name type d.line with value }) :=
    fun value hvalue => .declare (wellTyped_scalar hvalue) rfl
  unfold Exec.declareVariable
  dsimp only
  split
  · exact (Traced.checkType _ _ _ _).bind_fact _ (checkType_type _ _ _ _) hdeclare
  · exact (Traced.pure none).bind_fact _ (fun m v hv => by cases hv) hdeclare

theorem Value.type_default (type : ValueType) : (Value.default type).type = type := by
  cases type <;> rfl

theorem Traced.arrayElements (element : ValueType) (name : String) (line : Nat)
    (literals : List Literal) : Traced (arrayElements element name line literals) := by
  induction literals with
  | nil => exact .pure _
  | cons l rest ih => exact (Traced.checkType _ _ _ _).bind fun v => ih.bind fun vs => .pure _

/-- There is one element for each literal, of the type of the elements. -/
theorem arrayElements_typed (element : ValueType) (name : String) (line : Nat)
    (literals : List Literal) (m : Machine) :
    ((arrayElements element name line literals).run m).1.length = literals.length ∧
      ∀ v ∈ ((arrayElements element name line literals).run m).1, v.type = element := by
  induction literals generalizing m with
  | nil => exact ⟨rfl, fun v hv => by cases hv⟩
  | cons l rest ih =>
    have hfirst := checkType_type element l.toValue (.arrayInitialization name) line m
    obtain ⟨hlength, htyped⟩ := ih ((checkType element l.toValue (.arrayInitialization name)
      line).run m).2
    refine ⟨congrArg (· + 1) hlength, List.forall_mem_cons.2 ⟨?_, htyped⟩⟩
    -- a literal that fails the check is replaced by the default, which is of the type as well
    cases hv : ((checkType element l.toValue (.arrayInitialization name) line).run m).1 with
    | none => exact Value.type_default element
    | some v => exact hfirst v hv

/-- A step may rely on the elements being not too many and of their type. -/
theorem Traced.bind_arrayElements {element : ValueType} {dimension : Nat}
    {f : List Value → Exec Unit} (hf : ∀ given : List Value,
      (given.length ≤ dimension ∧ ∀ v ∈ given, v.type = element) → Traced (f given))
    (name : String) (line : Nat) (literals : List Literal) :
    Traced (Exec.arrayElements element name line (literals.take dimension) >>= f) := by
  refine (Traced.arrayElements _ _ _ _).bind_fact _ (fun m => ?_) hf
  obtain ⟨hlength, htyped⟩ := arrayElements_typed element name line (literals.take dimension) m
  rw [List.length_take] at hlength
  exact ⟨by omega, htyped⟩

theorem wellTyped_array {name : String} {element : ValueType} {dimension line : Nat}
    {items : List Value} (hlength : items.length = dimension)
    (h : ∀ v ∈ items, v.type = element) :
    ((Binding.array name element dimension line).withValue (.recipe items)).WellTyped :=
  ⟨items, rfl, hlength, h⟩

theorem Traced.declareArray (limits : Limits) (a : ArrayDeclaration) :
    Traced (declareArray limits a) := by
  unfold Exec.declareArray
  dsimp only
  split
  · refine (Traced.report _ _).bind fun _ => .declare ?_ rfl
    exact wellTyped_array rfl fun v hv => by cases hv
  · next dimension hdimension =>
    -- what is missing is filled up
    have hdeclare : ∀ given : List Value,
        (given.length ≤ dimension ∧ ∀ v ∈ given, v.type = a.element.valueType) →
        Traced (Exec.declare ((Binding.array a.name a.element.valueType dimension a.line).withValue
          (.recipe (given ++ List.replicate (dimension - given.length)
            (Value.default a.element.valueType))))) := by
      rintro given ⟨hlength, htyped⟩
      refine .declare (wellTyped_array ?_ fun v hv => ?_) rfl
      · rw [List.length_append, List.length_replicate]
        omega
      · rcases List.mem_append.1 hv with hv | hv
        · exact htyped v hv
        · rw [List.eq_of_mem_replicate hv]
          exact Value.type_default _
    split
    · have hnone : ∀ v ∈ ([] : List Value), v.type = a.element.valueType := fun v hv => by cases hv
      exact (Traced.pure []).bind_fact _ (fun m => ⟨Nat.zero_le _, hnone⟩) hdeclare
    · split
      · exact (Traced.report _ _).bind fun _ => Traced.bind_arrayElements hdeclare _ _ _
      · split
        · exact (Traced.report _ _).bind fun _ => Traced.bind_arrayElements hdeclare _ _ _
        · exact Traced.bind_arrayElements hdeclare _ _ _

theorem Traced.declareOne (limits : Limits) (d : Declaration) : Traced (declareOne limits d) := by
  unfold Exec.declareOne
  split
  · exact Traced.forM (Traced.declareVariable _) _
  · exact .declareArray limits _

theorem Traced.declareAll (limits : Limits) (site : Site) (i : Nat) (ds : List Declaration) :
    Traced (declareAll limits site i ds) := by
  induction ds generalizing i with
  | nil => exact .pure _
  | cons d ds ih => exact ((Traced.declareOne limits d).atSite _).bind fun _ => ih _

/-! ### Statements -/

theorem Traced.callStatement (hcall : ∀ f line args, Traced (call f line args)) (name : String)
    (args : List Expr) (line : Nat) : Traced (callStatement limits call name args line) := by
  refine (Traced.resolveFunction name line).bind fun r => ?_
  split
  · exact (Traced.evaluateAll hcall args).bind fun values => (hcall _ _ _).bind fun _ => .pure _
  · exact .pure _

theorem Traced.serveParts (hcall : ∀ f line args, Traced (call f line args)) (parts : List Expr)
    (line : Nat) : Traced (serveParts limits call parts line) := by
  refine (Traced.evaluateAll hcall parts).bind fun values => ?_
  split
  · exact .modify fun m => .output m _
  · exact .pure _

theorem Traced.declareLoopVariable (var : String) (initial : Option Value) (line : Nat) :
    Traced (declareLoopVariable var initial line) := by
  have hdeclare : ∀ value : Option Value, (∀ v, value = some v → v.type = .pinch) →
      Traced (Exec.declare { Binding.scalar var .pinch line with value } >>=
        fun _ => (return value.isSome)) :=
    fun value hvalue => (Traced.declare (wellTyped_scalar hvalue) rfl).bind fun _ => .pure _
  unfold Exec.declareLoopVariable
  dsimp only
  split
  · exact (Traced.checkType _ _ _ _).bind_fact _ (checkType_type _ _ _ _) hdeclare
  · exact (Traced.pure none).bind_fact _ (fun m v hv => by cases hv) hdeclare

theorem Traced.reuseLoopVariable (var : String) (initial : Option Value) (line : Nat) :
    Traced (reuseLoopVariable var initial line) := by
  refine fun m₀ => (triple_lookup m₀ var).bind fun r => ?_
  split
  · exact (Traced.report_false _ line).triple m₀ _
  · next b =>
    split
    · next target hkind =>
      split
      · next v =>
        refine (triple_checkType m₀ target v _ line
          fun scopes => scopes.peek? var = some b).bind fun r => ?_
        split
        · next w =>
          rintro m ⟨htype, hm⟩
          have hstore := triple_store m₀ var (accepts_scalar hkind (htype w rfl))
          exact (hstore.bind fun _ => Keeps.pure true) m hm
        · exact Triple.pure fun m hm => hm.2.1
      · exact (Traced.pure false).triple m₀ _
    · exact (Traced.report_false _ line).triple m₀ _

theorem Traced.beginFor (declares : Bool) (var : String) (initial : Option Value) (line : Nat) :
    Traced (beginFor declares var initial line) := by
  unfold Exec.beginFor
  split
  · exact .declareLoopVariable var initial line
  · exact .reuseLoopVariable var initial line

mutual
theorem Traced.execute (hcall : ∀ f line args, Traced (call f line args)) (site : Site)
    (st : Statement) : Traced (execute limits call site st) := by
  -- what is called makes no other changes by hypothesis, so the structure of the statement suffices
  match st with
  | .call name args line => exact (Traced.callStatement hcall name args line).atSite site
  | .assign target op value line =>
    refine Traced.atSite ?_ site
    exact (Traced.evaluate hcall value).bind fun v => .assign limits target op v line
  | .step name op line =>
    exact ((Traced.takeStep limits name op line).bind fun _ => .pure _).atSite site
  | .taste branches otherwise line =>
    refine Traced.atSite ?_ site
    exact Traced.executeBranches hcall site 0 branches (Traced.executeOptional hcall _ otherwise)
  | .flip subject cases otherwise line =>
    refine ((Traced.readVariable subject line).bind fun r => ?_).atSite site
    split
    · exact Traced.executeCases hcall site subject _ 0 cases
        (Traced.executeOptional hcall _ otherwise)
    · exact .pure _
  | .forLoop declares var init condition stepVar step body line =>
    refine ((Traced.evaluate hcall init).bind fun initial =>
      (Traced.beginFor declares var initial line).bind fun begun => ?_).atSite site
    split
    · have hpass := ((Traced.executeAll hcall site 0 body).inScope (.push .loop)).bind fun _ =>
        Traced.takeStep limits stepVar step line
      exact fun m₀ => Keeps.repeatWhile (Traced.test hcall condition m₀) (hpass m₀)
        (Traced.report _ _ m₀) _
    · exact .pure _
  | .simmer condition body line =>
    refine Traced.atSite (fun m₀ => ?_) site
    have hpass := ((Traced.executeAll hcall site 0 body).inScope (.push .loop)).bind fun _ =>
      Traced.pure true
    exact Keeps.repeatWhile (Traced.test hcall condition m₀) (hpass m₀) (Traced.report _ _ m₀) _
  | .keepmix body condition line =>
    refine Traced.atSite (fun m₀ => ?_) site
    have hpass := (Traced.executeAll hcall site 0 body).inScope (.push .loop)
    exact Keeps.repeatUntil (hpass m₀) (Traced.test hcall condition m₀) (Traced.report _ _ m₀) _
  | .serve parts line => exact (Traced.serveParts hcall parts line).atSite site
  | .make target line => exact (Traced.readInput limits target line).atSite site

theorem Traced.executeAll (hcall : ∀ f line args, Traced (call f line args)) (site : Site) (i : Nat)
    (sts : List Statement) : Traced (executeAll limits call site i sts) := by
  match sts with
  | [] => exact .pure _
  | st :: rest =>
    exact (Traced.execute hcall _ st).bind fun _ => Traced.executeAll hcall site (i + 1) rest

theorem Traced.executeOptional (hcall : ∀ f line args, Traced (call f line args)) (site : Site)
    (body : Option (List Statement)) : Traced (executeOptional limits call site body) := by
  match body with
  | none => exact .pure _
  | some body => exact (Traced.executeAll hcall site 0 body).inScope (.push .branch)

theorem Traced.executeBranches (hcall : ∀ f line args, Traced (call f line args)) (site : Site)
    (i : Nat) (branches : List Branch) {otherwise : Exec Unit} (ho : Traced otherwise) :
    Traced (executeBranches limits call site i branches otherwise) := by
  match branches with
  | [] => exact ho
  | ⟨condition, body, _⟩ :: rest =>
    refine (Traced.test hcall condition).bind fun b => ?_
    split
    · exact (Traced.executeAll hcall _ 0 body).inScope (.push .branch)
    · exact Traced.executeBranches hcall site (i + 1) rest ho

theorem Traced.executeCases (hcall : ∀ f line args, Traced (call f line args)) (site : Site)
    (subject : String) (v : Value) (i : Nat) (cases : List Case) {otherwise : Exec Unit}
    (ho : Traced otherwise) :
    Traced (executeCases limits call site subject v i cases otherwise) := by
  match cases with
  | [] => exact ho
  | ⟨value, body, line⟩ :: rest =>
    rw [Exec.executeCases]
    split
    · exact (Traced.report _ _).bind fun _ =>
        Traced.executeCases hcall site subject v (i + 1) rest ho
    · split
      · exact (Traced.executeAll hcall _ 0 body).inScope (.push .branch)
      · exact Traced.executeCases hcall site subject v (i + 1) rest ho
end

/-! ### Calls -/

theorem Traced.checkArguments (f : Function) (line place : Nat) (parameters : List Parameter)
    (values : List Value) : Traced (checkArguments f line place parameters values) := by
  induction parameters generalizing place values with
  | nil => exact .pure _
  | cons p parameters ih =>
    cases values with
    | nil => exact .pure _
    | cons v values =>
      exact (Traced.checkType _ _ _ _).bind fun v => (ih _ values).bind fun vs => .pure _

/-- The values fit the parameters. -/
def Fit : List Parameter → List Value → Prop
  | p :: parameters, v :: values => v.type = p.type.valueType ∧ Fit parameters values
  | _, _ => True

theorem checkArguments_fit (f : Function) (line place : Nat) (parameters : List Parameter)
    (values : List Value) (m : Machine) :
    ∀ ws, allValues ((checkArguments f line place parameters values).run m).1 = some ws →
      Fit parameters ws := by
  induction parameters generalizing place values m with
  | nil => exact fun ws _ => by unfold Fit; trivial
  | cons p parameters ih =>
    cases values with
    | nil =>
      intro ws hws
      obtain rfl := Option.some.inj hws
      trivial
    | cons v values =>
      intro ws hws
      have htype := checkType_type p.type.valueType v (.argument place f.name p.name) line m
      have hrest := ih (place + 1) values
        ((checkType p.type.valueType v (.argument place f.name p.name) line).run m).2
      -- all values are there only if the check of the first one gave one
      change allValues (((checkType p.type.valueType v (.argument place f.name p.name) line).run
        m).1 :: _) = some ws at hws
      cases hv : ((checkType p.type.valueType v (.argument place f.name p.name) line).run m).1 with
      | none =>
        rw [hv] at hws
        cases hws
      | some w =>
        rw [hv] at hws
        obtain ⟨ws', hws', rfl⟩ := Option.map_eq_some_iff.1 hws
        exact ⟨htype w hv, hrest ws' hws'⟩

theorem Traced.bindParameters {parameters : List Parameter} {values : List Value}
    (h : Fit parameters values) : Traced (bindParameters parameters values) := by
  induction parameters generalizing values with
  | nil => exact .pure _
  | cons p parameters ih =>
    cases values with
    | nil => exact .pure _
    | cons v values =>
      obtain ⟨hv, hvalues⟩ := h
      refine (Traced.declare (b := (Binding.scalar p.name p.type.valueType p.line).withValue v)
        (wellTyped_scalar ?_) rfl).bind fun _ => ih hvalues
      intro w hw
      obtain rfl := Option.some.inj hw
      exact hv

theorem Traced.functionResult (hcall : ∀ f line args, Traced (call f line args)) (f : Function)
    (site : Site) : Traced (functionResult limits call f site) := by
  unfold Exec.functionResult
  split
  · refine ((Traced.evaluate hcall _).bind fun r => ?_).atSite site
    split
    · exact .checkType _ _ _ _
    · exact .pure _
  · exact .pure _

theorem Traced.runBody (hcall : ∀ f line args, Traced (call f line args)) (f : Function)
    {values : List Value} (h : Fit f.parameters values) :
    Traced (runBody limits call f values) := by
  refine Traced.inCall ?_
  refine (Traced.bindParameters h).bind fun _ => ?_
  refine (Traced.declareAll limits _ 0 f.locals).bind fun _ => ?_
  exact (Traced.executeAll hcall _ 0 f.body).bind fun _ => .functionResult hcall f _

/-- A call makes the changes of a run only, however deep calls are nested in it. -/
theorem Traced.invoke (limits : Limits) (depth : Nat) (f : Function) (line : Nat)
    (args : List (Option Value)) : Traced (invoke limits depth f line args) := by
  -- on the depth: what a call runs can call at one level less only
  induction depth generalizing f line args with
  | zero =>
    unfold Exec.invoke
    split
    · exact .reject _ _
    · split
      · exact .pure _
      · exact .reject _ _
  | succ depth ih =>
    unfold Exec.invoke
    split
    · exact .reject _ _
    · split
      · exact .pure _
      · refine (Traced.checkArguments f line 1 f.parameters _).bind_fact
          (fun checked => ∀ ws, allValues checked = some ws → Fit f.parameters ws)
          (checkArguments_fit f line 1 f.parameters _) fun checked hchecked => ?_
        split
        · exact .pure _
        · next values hvalues => exact .runBody ih f (hchecked values hvalues)

/-! ### Runs -/

theorem Traced.declareFunction (f : Function) : Traced (declareFunction f) := by
  refine fun m₀ => Triple.bind_get fun m hm => ?_
  split
  · next scopes hscopes =>
    have hlead := hm.tail (.function hscopes)
    exact Triple.set fun _ _ => ⟨hlead, hlead⟩
  · refine (Traced.report _ _ m₀).mono ?_ fun _ _ h => h
    rintro n rfl
    exact hm

/-- **A run makes the changes of a run only.** -/
theorem Traced.runProgram (limits : Limits) (p : Program) : Traced (runProgram limits p) := by
  refine (Traced.declareAll limits _ 0 p.globals).bind fun _ => ?_
  refine (Traced.forM Traced.declareFunction p.functions).bind fun _ => ?_
  refine (Traced.modify fun m => .push m .entry .global).bind fun _ => ?_
  refine (Traced.declareAll limits _ 0 p.locals).bind fun _ => ?_
  refine (Traced.executeAll (Traced.invoke limits _) _ 0 p.body).bind fun _ => ?_
  unfold Exec.checkExit
  split
  · exact .pure _
  · exact .report _ _

end Exec

end Bistro
