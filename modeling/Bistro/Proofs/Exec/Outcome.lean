import Bistro.Proofs.Exec.Completion
import Bistro.Proofs.Exec.Glance

/-!
# What comes of a store

An assignment, a step and input all begin with one look at a name.  What they come to then is
decided by what the name resolves to and by the value at hand: an error is reported, a value is put
in place, or nothing is done because there is no value.

## Main definitions

* `Exec.Outcome`, `Exec.Outcome.Leads` — what a statement comes to, and what it then does.
* `Place.put` — puts a value in place.
* `Place.slot?` — what an assignment stores into, for a given binding.
* `Exec.assignOutcome`, `Exec.stepOutcome`, `Exec.inputOutcome` — what assignments, steps and input
  come to.

## Main results

* `Exec.leads_assign`, `Exec.leads_takeStep`, `Exec.leads_readInput` — they do what they come to.
-/

namespace Bistro

/-- Puts a value in place: as the value of a variable, or as an element of an array. -/
def Place.put : Place → Value → Binding → Binding
  | .var _, v => (·.withValue v)
  | .element _ index, v => Exec.replaceElement index.toNat v

/-- What an assignment to a place stores into, if this is a part of the binding of its name. -/
def Place.slot? (target : Place) (b : Binding) : Option Exec.Slot :=
  match target, b.kind with
  | .var _, .scalar type => some (.scalar type b.value)
  | .var _, .array type dimension => some (.whole type dimension)
  | .var _, .function _ => none
  | .element _ index, .array type _ =>
    (Exec.elementAt? b.value index).map (.element type index.toNat)
  | .element _ _, _ => none

/-- The assignment operator that does the same as a step, if the given value is one. -/
def StepOp.compound : StepOp → AssignOp
  | increment => .add
  | decrement => .sub

theorem StepOp.binary?_compound (op : StepOp) : op.compound.binary? = some op.binary := by
  cases op <;> rfl

namespace Exec

variable {α β : Type} {m k : Machine}

/-! ### Results that do not depend on the state -/

/-- The result of a step that gives the same in all states. -/
def result? (x : Exec (Option α)) : Option α := (x.run default).1

theorem Decides.cases {x : Exec (Option α)} (h : Decides (·.isSome) x) :
    (∃ a, x.result? = some a ∧ ∀ m, x.run m = (some a, m)) ∨
    (x.result? = none ∧ ∃ f line, f.kind.severity = .error ∧
      ∀ m, x.run m = (none, ((report f line).run m).2)) := by
  rcases h with ⟨r, hr, hrun⟩ | ⟨f, line, hf, hrun⟩
  · obtain ⟨a, rfl⟩ := Option.isSome_iff_exists.1 hr
    exact .inl ⟨a, congrArg Prod.fst (hrun default), hrun⟩
  · exact .inr ⟨congrArg Prod.fst (hrun default), f, line, hf, hrun⟩

/-- The operators of assignments give a value or reject. -/
theorem decides_applyBinary_of_binary? {op : AssignOp} {binary : BinaryOp}
    (h : op.binary? = some binary) (limits : Limits) (left right : Value) (line : Nat) :
    Decides (·.isSome) (applyBinary limits binary left right line) := by
  have harithmetic := decides_arithmetic limits binary left right line
  cases op with
  | assign => cases h
  | add | sub | mul | div | mod =>
    obtain rfl := Option.some.inj h
    exact harithmetic

theorem decides_combine (limits : Limits) (op : AssignOp) (current : Option Value) (v : Value)
    (name : String) (line : Nat) :
    Decides (·.isSome) (combine limits op current v name line) := by
  unfold combine
  split
  · exact .result rfl
  · next binary hbinary =>
    split
    · exact .reject rfl line
    · exact decides_applyBinary_of_binary? hbinary limits _ v line

/-! ### Outcomes -/

/-- What a statement that is to store a value comes to. -/
inductive Outcome
  /-- An error is reported. -/
  | error
  /-- Nothing is done. -/
  | nothing
  /-- A value is put in place. -/
  | put (v : Value)

/-- What is done from a state, of which the findings and the scopes are followed. -/
def Outcome.Leads (target : Place) (m m' : Machine) : Outcome → Prop
  | .error => m'.scopes = m.scopes ∧ ∃ f line, f.kind.severity = .error ∧
      m'.diagnostics = m.diagnostics.push (Finding.onLine f line)
  | .nothing => m'.scopes = m.scopes ∧ m'.diagnostics = m.diagnostics
  | .put v => m'.scopes = m.scopes.adjust target.name (target.put v) ∧
      m'.diagnostics = m.diagnostics

theorem leads_report (target : Place) {f : Finding} (hf : f.kind.severity = .error) (line : Nat)
    (m : Machine) : Outcome.error.Leads target m ((report f line).run m).2 :=
  ⟨rfl, f, line, hf, rfl⟩

/-- A computed value is put in place if it has the type. -/
def Outcome.checked (type : ValueType) (x : Exec (Option Value)) : Outcome :=
  match x.result? with
  | some v => if v.fitsType type then .put v else .error
  | none => .error

theorem leads_withChecked {x : Exec (Option Value)} (hx : Decides (·.isSome) x) {target : Place}
    (type : ValueType) (use : Finding.Use) (line : Nat) (given : β) {f : Value → Exec β}
    (hf : ∀ v, ((f v).run m).2 =
      { m with scopes := m.scopes.adjust target.name (target.put v) }) :
    (Outcome.checked type x).Leads target m ((withChecked x type use line given f).run m).2 := by
  unfold Outcome.checked
  rw [withChecked, run_bind]
  rcases hx.cases with ⟨v, hresult, hrun⟩ | ⟨hresult, g, l, hg, hrun⟩
  · rw [hresult, hrun]
    dsimp only
    rw [run_bind]
    by_cases hfits : v.fitsType type = true
    · simp only [checkType, hfits, if_true]
      show Outcome.Leads target m ((f v).run m).2 (.put v)
      rw [hf]
      exact ⟨rfl, rfl⟩
    · simp only [checkType, hfits]
      exact leads_report target rfl line m
  · rw [hresult, hrun]
    exact leads_report target hg l m

/-! ### Assignments -/

/-- What the assignment of a value to a slot of `name` comes to. -/
def Slot.outcome (limits : Limits) (name : String) (op : AssignOp) (v : Value) (line : Nat) :
    Slot → Outcome
  | .scalar type current => .checked type (combine limits op current v name line)
  | .whole type dimension =>
    if op = .assign && fitsArray type dimension v then .put v else .error
  | .element type _ current => .checked type (combine limits op (some current) v name line)

/-- What an assignment comes to if the name resolves to the given binding, or to nothing. -/
def assignOutcome (limits : Limits) (target : Place) (op : AssignOp) (v : Option Value) (line : Nat)
    (b : Option Binding) : Outcome :=
  match b.bind target.slot?, v with
  | none, _ => .error
  | some _, none => .nothing
  | some slot, some v => slot.outcome limits target.name op v line

theorem leads_fillSlot (limits : Limits) {target : Place} (op : AssignOp) (v : Value) (line : Nat)
    {b : Binding} {slot : Slot} (hslot : target.slot? b = some slot) (m : Machine) :
    (slot.outcome limits target.name op v line).Leads target m
      ((fillSlot limits target.name op v line slot).run m).2 := by
  have hcombine := fun current => decides_combine limits op current v target.name line
  unfold Place.slot? at hslot
  split at hslot
  · obtain rfl := Option.some.inj hslot
    exact leads_withChecked (hcombine _) _ _ line () fun _ => rfl
  · obtain rfl := Option.some.inj hslot
    rw [Slot.outcome, fillSlot]
    split
    · exact ⟨rfl, rfl⟩
    · exact leads_report _ rfl line m
  · cases hslot
  · obtain ⟨current, -, rfl⟩ := Option.map_eq_some_iff.1 hslot
    exact leads_withChecked (hcombine _) _ _ line () fun _ => rfl
  · cases hslot

/-- An assignment finds what it stores into, or it rejects. -/
theorem resolveSlot_cases (target : Place) (line : Nat) (m : Machine) :
    (∃ b slot, m.scopes.view target.name = some b ∧ target.slot? b = some slot ∧
      (resolveSlot target line).run m = (some slot, m.noted [target.name] [])) ∨
    ((m.scopes.view target.name).bind target.slot? = none ∧ ∃ f, f.kind.severity = .error ∧
      (resolveSlot target line).run m =
        (none, ((report f line).run (m.noted [target.name] [])).2)) := by
  rw [resolveSlot, run_bind, run_lookup_eq]
  cases m.scopes.view target.name with
  | none => exact .inr ⟨rfl, _, rfl, rfl⟩
  | some b =>
    obtain ⟨_, kind, value, _, _⟩ := b
    cases target with
    | var name =>
      cases kind with
      | scalar type => exact .inl ⟨_, _, rfl, rfl, rfl⟩
      | array type dimension => exact .inl ⟨_, _, rfl, rfl, rfl⟩
      | function f => exact .inr ⟨rfl, _, rfl, rfl⟩
    | element name index =>
      cases kind with
      | scalar type => exact .inr ⟨rfl, _, rfl, rfl⟩
      | function f => exact .inr ⟨rfl, _, rfl, rfl⟩
      | array type dimension =>
        cases hitem : elementAt? value index with
        | none =>
          refine .inr ⟨?_, .outOfBounds name index dimension, rfl, ?_⟩
          · simp only [Option.bind_some, Place.slot?, hitem, Option.map_none]
          · simp only [Option.map_some, Binding.marked, hitem]
            rfl
        | some current =>
          refine .inl ⟨_, .element type index.toNat current, rfl, ?_, ?_⟩
          · simp only [Place.slot?, hitem, Option.map_some]
          · simp only [Option.map_some, Binding.marked, hitem]
            rfl

/-- An assignment does what it comes to. -/
theorem leads_assign (limits : Limits) (target : Place) (op : AssignOp) (v : Option Value)
    (line : Nat) (m : Machine) :
    (assignOutcome limits target op v line (m.scopes.view target.name)).Leads target
      (m.noted [target.name] []) ((assign limits target op v line).run m).2 := by
  unfold assignOutcome
  rw [assign, run_bind]
  rcases resolveSlot_cases target line m with ⟨b, slot, hb, hslot, hrun⟩ | ⟨hnone, f, hf, hrun⟩
  · rw [hrun, hb, Option.bind_some, hslot]
    cases v with
    | none => exact ⟨rfl, rfl⟩
    | some v => exact leads_fillSlot limits op v line hslot _
  · rw [hrun, hnone]
    exact leads_report target hf line _

/-! ### Steps -/

/-- What a step comes to if the name resolves to the given binding, or to nothing. -/
def stepOutcome (limits : Limits) (op : StepOp) (line : Nat) : Option Binding → Outcome
  | some ⟨_, .scalar type, some current, _, _⟩ =>
    if current.isNumeric then
      .checked type (applyBinary limits op.binary current (.pinch 1) line)
    else .error
  | _ => .error

/-- A step does what it comes to. -/
theorem leads_takeStep (limits : Limits) (name : String) (op : StepOp) (line : Nat) (m : Machine) :
    (stepOutcome limits op line (m.scopes.view name)).Leads (.var name) (m.noted [name] [])
      ((takeStep limits name op line).run m).2 := by
  have hreport : ∀ f : Finding, f.kind.severity = .error → Outcome.error.Leads (.var name)
      (m.noted [name] []) ((report f line).run (m.noted [name] [])).2 :=
    fun f hf => leads_report _ hf line _
  rw [takeStep, run_bind, run_lookup_eq]
  cases m.scopes.view name with
  | none => exact hreport _ rfl
  | some b =>
    obtain ⟨_, kind, value, _, _⟩ := b
    cases kind with
    | array type dimension => exact hreport _ rfl
    | function f => exact hreport _ rfl
    | scalar type =>
      cases value with
      | none => exact hreport _ rfl
      | some current =>
        rw [stepOutcome]
        by_cases hnumeric : current.isNumeric = true
        · have hnext := decides_applyBinary_of_binary? op.binary?_compound limits current (.pinch 1)
            line
          simp only [Option.map_some, Binding.marked, hnumeric, if_true]
          exact leads_withChecked hnext type (.update name) line false fun _ => rfl
        · simp only [Option.map_some, Binding.marked, hnumeric]
          exact hreport _ rfl

/-! ### Input -/

/-- What input comes to with a given answer, if there is one, and if the name resolves to the given
binding, or to nothing. -/
def inputOutcome (limits : Limits) : Option String → Option Binding → Outcome
  | some text, some ⟨_, .scalar type, _, _, _⟩ =>
    match readInput? type text limits.integerRange with
    | some v => .put v
    | none => .error
  | _, _ => .error

/-- Input does what it comes to. -/
theorem leads_readInput (limits : Limits) (name : String) (line : Nat) (m : Machine) :
    (inputOutcome limits (m.input.ask name).1 (m.scopes.view name)).Leads (.var name)
      (m.noted [name] []) ((readInput limits name line).run m).2 := by
  have hreport : ∀ (f : Finding) (input : Input), f.kind.severity = .error →
      Outcome.error.Leads (.var name) (m.noted [name] [])
        ((report f line).run { m.noted [name] [] with input }).2 :=
    fun f _ hf => ⟨rfl, f, line, hf, rfl⟩
  have hanswer : (ask name).run (m.noted [name] []) =
      ((m.input.ask name).1, { m.noted [name] [] with input := (m.input.ask name).2 }) := rfl
  rw [readInput, run_bind, run_lookup_eq]
  cases m.scopes.view name with
  | none =>
    cases (m.input.ask name).1 <;> exact hreport _ m.input rfl
  | some b =>
    obtain ⟨_, kind, value, _, _⟩ := b
    cases kind with
    | array type dimension =>
      cases (m.input.ask name).1 <;> exact hreport _ m.input rfl
    | function f => cases (m.input.ask name).1 <;> exact hreport _ m.input rfl
    | scalar type =>
      simp only [Option.map_some, Binding.marked]
      rw [run_bind, hanswer]
      cases (m.input.ask name).1 with
      | none => exact hreport _ _ rfl
      | some text =>
        rw [inputOutcome]
        dsimp only
        cases readInput? type text limits.integerRange with
        | none => exact hreport _ _ rfl
        | some v => exact ⟨rfl, rfl⟩

end Exec

end Bistro
