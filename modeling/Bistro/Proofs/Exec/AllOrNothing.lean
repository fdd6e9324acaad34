import Bistro.Proofs.Exec.Outcome
import Bistro.Proofs.Exec.Reports

/-!
# Stores are all or nothing

An assignment, a step and input either put the value that they compute in one place and report
nothing, or they report an error and change no value.  An assignment is seen from the moment its
right-hand side was evaluated, so what the calls in there store does not count.

A right-hand side without a value owes an error, with one exception: the comparison with what is not
a number gives nothing and reports nothing, so that the assignment of it does neither.

## Main definitions

* `Place.Takes`, `Place.filled` — a place can take a value, and what is in the variable then.
* `ScopeStack.Stored` — a value was stored in a place and nowhere else.
* `Exec.Computes`, `Exec.StepsTo`, `Exec.Reads` — the value that is to be stored.
* `Exec.AllOrNothing` — a step stores a value and reports nothing, or reports and stores nothing.
* `Exec.Silent` — a step gives no value and reports no error.

## Main results

* `Exec.allOrNothing_of_leads` — what a store comes to is all or nothing.
* `Exec.not_silent_evaluate` — regular expressions are not silent.
* `Exec.stores_all_or_nothing` — **assignments, steps and input are all or nothing.**
* `Exec.silent_store` — an assignment that is neither.
-/

namespace Bistro

/-! ### What is stored -/

/-- The value of a variable or an array once a value was put in a place of it. -/
def Place.filled : Place → Value → Option Value → Option Value
  | .var _, v, _ => some v
  | .element _ index, v, some (.recipe items) => some (.recipe (items.set index.toNat v))
  | .element _ _, _, former => former

/-- A place of a binding can take a value: the whole binding accepts it, or the array has an element
at the index, and the value is of the type of the elements. -/
def Place.Takes (target : Place) (v : Value) (b : Binding) : Prop :=
  match target with
  | .var _ => b.Accepts v
  | .element _ index => ∃ type dimension items, b.kind = .array type dimension ∧
      b.value = some (.recipe items) ∧ 0 ≤ index ∧ index.toNat < items.length ∧ v.type = type

/-- A value was stored: at the home of the name its binding took it in this place, and all other
values and all declarations are as before. -/
def ScopeStack.Stored (target : Place) (v : Value) (s s' : ScopeStack) : Prop :=
  ∃ i b, s.home? target.name = some i ∧ s.cell? i target.name = some b ∧ target.Takes v b ∧
    s'.bare = s.bare ∧
    ∀ j n, s'.value? j n =
      if j = i ∧ n = target.name then target.filled v b.value else s.value? j n

theorem Place.value_put (target : Place) (v : Value) (b : Binding) :
    (target.put v b).value = target.filled v b.value := by
  cases target with
  | var name => rfl
  | element name index =>
    obtain ⟨_, _, value, _, _⟩ := b
    match value with
    | none => rfl
    | some (.recipe items) => rfl
    | some (.pinch _) | some (.skim _) | some (.pasta _) | some (.bool _) => rfl

theorem Place.valueOnly_put (target : Place) (v : Value) : Binding.ValueOnly (target.put v) := by
  cases target with
  | var name => exact Binding.valueOnly_withValue v
  | element name index => exact Exec.valueOnly_replaceElement _ v

/-- What a name is seen to resolve to is at its home. -/
theorem ScopeStack.exists_home {s : ScopeStack} {name : String} {b : Binding}
    (h : s.view name = some b) :
    ∃ i b', s.home? name = some i ∧ s.cell? i name = some b' ∧ b'.unmarked = b := by
  obtain ⟨b', hb', hb⟩ := Option.map_eq_some_iff.1 h
  rw [peek?_eq_bind_home?] at hb'
  obtain ⟨i, hi, hcell⟩ := Option.bind_eq_some_iff.1 hb'
  exact ⟨i, b', hi, hcell, hb⟩

/-- A value that is put in place is stored, and marks make no difference. -/
theorem ScopeStack.stored_adjust {s k : ScopeStack} {target : Place} {v : Value} {b : Binding}
    (hk : SameValues s k) (hb : s.view target.name = some b) (htakes : target.Takes v b) :
    s.Stored target v (k.adjust target.name (target.put v)) := by
  have hsame := hk.adjust (target.valueOnly_put v) (fun b b' h => by
    rw [Place.value_put, Place.value_put, h]) target.name
  obtain ⟨i, b', hi, hcell, rfl⟩ := exists_home hb
  refine ⟨i, b', hi, hcell, htakes, ?_, fun j n => ?_⟩
  · rw [bare_adjust (target.valueOnly_put v), hk.bare]
  · rw [hsame.value?, value?_adjust]
    by_cases hn : n = target.name
    · subst hn
      simp only [true_and, and_true, hi, Option.some.injEq, eq_comm (a := i)]
      split
      · next hj => rw [hj, hcell, Option.bind_some, Place.value_put]
      · rfl
    · rw [if_neg fun h : target.name = n ∧ _ => hn h.1.symm,
        if_neg fun h : j = i ∧ n = target.name => hn h.2]

/-- The value in a place of a variable or an array with the given value. -/
def Place.part? (target : Place) (v : Option Value) : Option Value :=
  match target with
  | .var _ => v
  | .element _ index => Exec.elementAt? v index

theorem valueAt?_eq_part? (s : ScopeStack) (target : Place) :
    s.valueAt? target = target.part? ((s.view target.name).bind (·.value)) := by
  have hvalue : (s.peek? target.name).bind (·.value) = (s.view target.name).bind (·.value) := by
    rw [ScopeStack.view, Option.bind_map]
    rfl
  rw [← hvalue]
  cases target <;> rfl

namespace Exec

open Machine (Failed)

variable {α : Type} {m : Machine} {limits : Limits} {target : Place}

/-! ### All or nothing -/

/-- A step stores a value that is the computed one and reports nothing, or it reports an error, be
it one that was recorded before, and changes no value. -/
def AllOrNothing (target : Place) (computed : Value → Prop) (x : Exec α) (m : Machine) : Prop :=
  (¬x.ReportsError m ∧ (x.run m).2.diagnostics = m.diagnostics ∧
    ∃ v, computed v ∧ m.scopes.Stored target v (x.run m).2.scopes) ∨
  (x.ReportsError m ∧ m.scopes.SameValues (x.run m).2.scopes)

theorem Outcome.Leads.failed {m m' : Machine} (h : Outcome.error.Leads target m m') :
    m'.Failed := by
  obtain ⟨-, f, line, hf, hpush⟩ := h
  have hfailed := failed_report hf line m
  rw [Failed, hpush]
  exact hfailed

/-- What a store comes to is all or nothing, if it does not come to nothing. -/
theorem allOrNothing_of_leads {x : Exec α} {computed : Value → Prop} {o : Outcome}
    (hleads : ∀ records, o.Leads target ((m.recording records).noted [target.name] [])
      (x.run (m.recording records)).2)
    (ho : o ≠ .nothing)
    (hput : ∀ v, o = .put v → computed v ∧
      ∃ b, m.scopes.view target.name = some b ∧ target.Takes v b) :
    AllOrNothing target computed x m := by
  have hmarks := ScopeStack.sameValues_mark [target.name] m.scopes
  have hrun := hleads m.diagnostics.records
  have hclean := hleads []
  cases o with
  | nothing => exact absurd rfl ho
  | error =>
    refine .inr ⟨hclean.failed, ?_⟩
    have hscopes : (x.run m).2.scopes = m.scopes.mark [target.name] := hrun.1
    rw [hscopes]
    exact hmarks
  | put v =>
    obtain ⟨hcomputed, b, hb, htakes⟩ := hput v rfl
    refine .inl ⟨?_, hrun.2, v, hcomputed, ?_⟩
    · rw [ReportsError, Failed, hclean.2]
      exact m.not_failed_recording
    · have hscopes : (x.run m).2.scopes =
          (m.scopes.mark [target.name]).adjust target.name (target.put v) := hrun.1
      rw [hscopes]
      exact ScopeStack.stored_adjust hmarks hb htakes

theorem checked_eq_put {type : ValueType} {x : Exec (Option Value)} {v : Value}
    (h : Outcome.checked type x = .put v) : x.result? = some v ∧ v.type = type := by
  unfold Outcome.checked at h
  split at h
  · next w hw =>
    split at h
    · next hfits =>
      obtain rfl := Outcome.put.inj h
      exact ⟨hw, by simpa [Value.fitsType] using hfits⟩
    · cases h
  · cases h

theorem checked_ne_nothing (type : ValueType) (x : Exec (Option Value)) :
    Outcome.checked type x ≠ .nothing := by
  unfold Outcome.checked
  split
  · split <;> simp
  · simp

theorem Decides.run_eq {x : Exec (Option α)} (h : Decides (·.isSome) x) {a : α}
    (ha : x.result? = some a) (m : Machine) : x.run m = (some a, m) := by
  rcases h.cases with ⟨a', ha', hrun⟩ | ⟨hnone, -⟩
  · obtain rfl := Option.some.inj (ha'.symm.trans ha)
    exact hrun m
  · cases hnone.symm.trans ha

/-! ### Assignments -/

/-- The value that an assignment of `v` is to store: `v` itself, or what the operator makes of the
value in the place and `v`. -/
def Computes (limits : Limits) (target : Place) (op : AssignOp) (v : Value) (line : Nat)
    (m : Machine) (next : Value) : Prop :=
  match op.binary? with
  | none => next = v
  | some binary => ∃ current, m.scopes.valueAt? target = some current ∧
      (applyBinary limits binary current v line).run m = (some next, m)

theorem computes_of_combine {op : AssignOp} {v next : Value} {name : String} {line : Nat}
    (h : (combine limits op (m.scopes.valueAt? target) v name line).result? = some next) :
    Computes limits target op v line m next := by
  unfold combine at h
  unfold Computes
  cases hop : op.binary? with
  | none =>
    rw [hop] at h
    exact (Option.some.inj h).symm
  | some binary =>
    rw [hop] at h
    cases hcurrent : m.scopes.valueAt? target with
    | none =>
      rw [hcurrent] at h
      cases h
    | some current =>
      rw [hcurrent] at h
      have hdecides := decides_applyBinary_of_binary? hop limits current v line
      exact ⟨current, rfl, hdecides.run_eq h m⟩

/-- What an assignment puts in place is the computed value, and the place can take it. -/
theorem computes_of_assignOutcome {op : AssignOp} {v next : Value} {line : Nat}
    (h : assignOutcome limits target op (some v) line (m.scopes.view target.name) = .put next) :
    Computes limits target op v line m next ∧
      ∃ b, m.scopes.view target.name = some b ∧ target.Takes next b := by
  have hcurrent := valueAt?_eq_part? m.scopes target
  unfold assignOutcome at h
  cases hb : m.scopes.view target.name with
  | none =>
    rw [hb] at h
    cases h
  | some b =>
    rw [hb, Option.bind_some] at h hcurrent
    suffices hboth : Computes limits target op v line m next ∧ target.Takes next b from
      ⟨hboth.1, b, rfl, hboth.2⟩
    obtain ⟨_, kind, value, _, _⟩ := b
    cases target with
    | var name =>
      cases kind with
      | scalar type =>
        replace hcurrent : m.scopes.valueAt? (.var name) = value := hcurrent
        obtain ⟨hresult, htype⟩ := checked_eq_put h
        exact ⟨computes_of_combine (hcurrent.symm ▸ hresult), htype⟩
      | array type dimension =>
        simp only [Place.slot?, Slot.outcome] at h
        split at h
        · next hfits =>
          obtain rfl := Outcome.put.inj h
          rw [Bool.and_eq_true, decide_eq_true_eq] at hfits
          obtain ⟨rfl, hfits⟩ := hfits
          exact ⟨rfl, fitsArray_iff.1 hfits⟩
        · cases h
      | function f => cases h
    | element name index =>
      cases kind with
      | scalar type => cases h
      | function f => cases h
      | array type dimension =>
        simp only [Place.slot?] at h
        cases hitem : elementAt? value index with
        | none =>
          rw [hitem] at h
          cases h
        | some current =>
          rw [hitem] at h
          replace hcurrent : m.scopes.valueAt? (.element name index) = some current :=
            hcurrent.trans hitem
          obtain ⟨hresult, htype⟩ := checked_eq_put h
          obtain ⟨items, rfl, hindex, hget⟩ := elementAt?_eq_some hitem
          exact ⟨computes_of_combine (hcurrent ▸ hresult), type, dimension, items, rfl, rfl, hindex,
            (List.getElem?_eq_some_iff.1 hget).1, htype⟩

theorem assignOutcome_ne_nothing (op : AssignOp) (v : Value) (line : Nat) (b : Option Binding) :
    assignOutcome limits target op (some v) line b ≠ .nothing := by
  unfold assignOutcome
  cases b.bind target.slot? with
  | none => simp
  | some slot =>
    cases slot with
    | scalar type current => exact checked_ne_nothing _ _
    | element type index current => exact checked_ne_nothing _ _
    | whole type dimension =>
      simp only [Slot.outcome]
      split <;> simp

theorem allOrNothing_assign (limits : Limits) (target : Place) (op : AssignOp) (v : Value)
    (line : Nat) (m : Machine) :
    AllOrNothing target (Computes limits target op v line m)
      (assign limits target op (some v) line) m :=
  allOrNothing_of_leads (fun _ => leads_assign limits target op (some v) line _)
    (assignOutcome_ne_nothing op v line _) fun _ h => computes_of_assignOutcome h

/-- Without a value an assignment stores nothing. -/
theorem sameValues_assign_none (limits : Limits) (target : Place) (op : AssignOp) (line : Nat)
    (m : Machine) :
    m.scopes.SameValues ((assign limits target op none line).run m).2.scopes := by
  have hmarks := ScopeStack.sameValues_mark [target.name] m.scopes
  have hleads := leads_assign limits target op none line m
  have hscopes : ((assign limits target op none line).run m).2.scopes =
      m.scopes.mark [target.name] := by
    unfold assignOutcome at hleads
    cases hslot : (m.scopes.view target.name).bind target.slot? with
    | none =>
      rw [hslot] at hleads
      exact hleads.1
    | some slot =>
      rw [hslot] at hleads
      exact hleads.1
  rw [hscopes]
  exact hmarks

/-! ### Steps and input -/

/-- The value that a step is to store. -/
def StepsTo (limits : Limits) (name : String) (op : StepOp) (line : Nat) (m : Machine)
    (next : Value) : Prop :=
  ∃ current, m.scopes.valueAt? (.var name) = some current ∧
    (applyBinary limits op.binary current (.pinch 1) line).run m = (some next, m)

theorem allOrNothing_takeStep (limits : Limits) (name : String) (op : StepOp) (line : Nat)
    (m : Machine) :
    AllOrNothing (.var name) (StepsTo limits name op line m) (takeStep limits name op line) m := by
  have hcurrent := valueAt?_eq_part? m.scopes (.var name)
  refine allOrNothing_of_leads (o := stepOutcome limits op line (m.scopes.view name))
    (fun _ => leads_takeStep limits name op line _) ?_ fun next h => ?_
  · unfold stepOutcome
    split
    · split
      · exact checked_ne_nothing _ _
      · simp
    · simp
  · unfold stepOutcome at h
    split at h
    · next type current _ _ hb =>
      split at h
      · obtain ⟨hresult, htype⟩ := checked_eq_put h
        replace hcurrent : m.scopes.valueAt? (.var name) = some current :=
          hcurrent.trans (congrArg (Option.bind · _) hb)
        have hdecides := decides_applyBinary_of_binary? op.binary?_compound limits current
          (.pinch 1) line
        exact ⟨⟨current, hcurrent, hdecides.run_eq hresult m⟩, _, hb, htype⟩
      · cases h
    · cases h

/-- The value that input is to store: an answer is given, and it spells a value of the declared
type. -/
def Reads (limits : Limits) (name : String) (m : Machine) (v : Value) : Prop :=
  ∃ b type text, m.scopes.peek? name = some b ∧ b.kind = .scalar type ∧
    (m.input.ask name).1 = some text ∧ readInput? type text limits.integerRange = some v

theorem allOrNothing_readInput (limits : Limits) (name : String) (line : Nat) (m : Machine) :
    AllOrNothing (.var name) (Reads limits name m) (readInput limits name line) m := by
  refine allOrNothing_of_leads
    (o := inputOutcome limits (m.input.ask name).1 (m.scopes.view name))
    (fun _ => leads_readInput limits name line _) ?_ fun v h => ?_
  · unfold inputOutcome
    split
    · split <;> simp
    · simp
  · unfold inputOutcome at h
    split at h
    · next text _ type _ _ _ htext hb =>
      split at h
      · next w hw =>
        obtain rfl := Outcome.put.inj h
        obtain ⟨b, hpeek, hunmarked⟩ := Option.map_eq_some_iff.1 hb
        have hkind : b.kind = .scalar type := congrArg Binding.kind hunmarked
        exact ⟨⟨b, type, text, hpeek, hkind, htext, hw⟩, _, hb, readInput?_type hw⟩
      · cases h
    · cases h

/-! ### What has no value -/

/-- A step gives no value and reports no error. -/
def Silent (x : Exec (Option α)) (m : Machine) : Prop := (x.run m).1 = none ∧ ¬x.ReportsError m

/-- In a regular state no expression with regular literals is silent. -/
theorem not_silent_evaluate (limits : Limits) (depth : Nat) (hm : m.Regular) {e : Expr}
    (he : Word.AllRegular e.words) : ¬(evaluate limits (invoke limits depth) e).Silent m := by
  rintro ⟨hnone, hsilent⟩
  -- the evaluation has no value either if nothing is recorded yet, and then it explains itself
  obtain ⟨records, hsame⟩ := (heedless_evaluate limits depth e).same m []
  exact hsilent ((explains_evaluate (answers_invoke limits depth) e he).failed
    (m := m.recording []) hm ((congrArg Prod.fst hsame).trans hnone))

/-! ### Statements -/

/-- **Stores are all or nothing.**  From every state, at every site and with any number of calls
that may still be nested:

* once the right-hand side of an assignment has a value, either what is computed from it is stored
  in the place, which can take it, and nowhere else, and nothing is reported; or an error is
  reported, and no value changes.  If the right-hand side has no value, no value changes; in a
  regular state, which is every state of a run of a regular program, an error was then reported for
  it, if its literals are regular as well;
* likewise a step stores the next value of its variable, or reports an error and changes no value;
* likewise input stores the value that the answer spells, or reports an error and changes no
  value.

Programs that come from a source text are regular. -/
theorem stores_all_or_nothing (limits : Limits) (depth : Nat) (site : Site) (m : Machine) :
    (∀ target op e line,
      let x := evaluate limits (invoke limits depth) e
      let v := (x.run (m.at site)).1
      let k := (x.run (m.at site)).2
      let y := assign limits target op v line
      ((execute limits (invoke limits depth) site (.assign target op e line)).run m).2 =
          (y.run k).2.at m.diagnostics.site ∧
        (∀ w, v = some w → AllOrNothing target (Computes limits target op w line k) y k) ∧
        (v = none → k.scopes.SameValues (y.run k).2.scopes ∧
          (m.Regular → Word.AllRegular e.words → x.ReportsError (m.at site)))) ∧
    (∀ name op line,
      let y := takeStep limits name op line
      ((execute limits (invoke limits depth) site (.step name op line)).run m).2 =
          (y.run (m.at site)).2.at m.diagnostics.site ∧
        AllOrNothing (.var name) (StepsTo limits name op line (m.at site)) y (m.at site)) ∧
    (∀ name line,
      let y := readInput limits name line
      ((execute limits (invoke limits depth) site (.make name line)).run m).2 =
          (y.run (m.at site)).2.at m.diagnostics.site ∧
        AllOrNothing (.var name) (Reads limits name (m.at site)) y (m.at site)) ∧
    ∀ (p : Program) input, p.Regular → p.Reaches limits input m → m.Regular := by
  refine ⟨fun target op e line => ?_, fun name op line => ?_, fun name line => ?_,
    fun p input hp hm => hm.regular hp⟩
  · intro x v k y
    refine ⟨rfl, fun w hw => ?_, fun hnone => ⟨?_, fun hm he => ?_⟩⟩
    · have hy : y = assign limits target op (some w) line :=
        congrArg (assign limits target op · line) hw
      rw [hy]
      exact allOrNothing_assign limits target op w line k
    · have hy : y = assign limits target op none line :=
        congrArg (assign limits target op · line) hnone
      rw [hy]
      exact sameValues_assign_none limits target op line k
    · have hregular : (m.at site).Regular := hm
      by_contra hsilent
      exact not_silent_evaluate limits depth hregular he ⟨hnone, hsilent⟩
  · exact ⟨rfl, allOrNothing_takeStep limits name op line _⟩
  · exact ⟨rfl, allOrNothing_readInput limits name line _⟩

theorem regular_trayProgram : trayProgram.Regular := by
  refine ⟨?_, nofun⟩
  simp [Program.words, trayProgram, Declaration.words, Statement.wordsAll, Statement.words,
    Place.words, Expr.words, Word.Regular, Literal.toValue, Value.Regular]

/-- The second element of a full tray of two is increased by five, and an unknown name is assigned
to it: the former is stored, and the latter reported. -/
theorem stores_all_or_nothing_tray :
    let m := trayProgram.run .standard (.ofAnswers [])
    let site : Site := ⟨.entry, []⟩
    let target : Place := .element "tray" 1
    let five := evaluate .standard (invoke .standard 3) (.literal (.pinch 5) 4)
    let bowl := evaluate .standard (invoke .standard 3) (.var "bowl" 4)
    (five.run (m.at site)).1 = some (.pinch 5) ∧
      AllOrNothing target (Computes .standard target .add (.pinch 5) 4 (m.at site))
        (assign .standard target .add (some (.pinch 5)) 4) (m.at site) ∧
      ((assign .standard target .add (some (.pinch 5)) 4).run
        (m.at site)).2.scopes.value? 0 "tray" = some (.recipe [.pinch 0, .pinch 12]) ∧
      (bowl.run (m.at site)).1 = none ∧ bowl.ReportsError (m.at site) := by
  intro m site target five bowl
  obtain ⟨hstores, -, -, hregular⟩ := stores_all_or_nothing .standard 3 site m
  have hfive := hstores target .add (.literal (.pinch 5) 4) 4
  have hbowl := hstores target .assign (.var "bowl" 4) 4
  have hm : m.Regular := hregular trayProgram (.ofAnswers []) regular_trayProgram
    (trayProgram.reaches_run _ _)
  exact ⟨rfl, hfive.2.1 (.pinch 5) rfl, rfl, rfl,
    (hbowl.2.2 rfl).2 hm (by simp [Expr.words, Word.Regular])⟩

/-- A program with a truth value and an integer, which it leaves unset. -/
def unsetProgram : Program where
  globals := [.variables .bool [⟨"b", none, 1⟩], .variables .pinch [⟨"n", none, 1⟩]]
  functions := []
  locals := []
  body := []
  exitCode := 0
  exitLine := 3

/-- The comparison of what is not a number, which can be written as a literal by hand but not in a
source text, with zero. -/
def nanBelowZero : Expr := .binary .less (.literal (.skim .nan) 2) (.literal (.skim .zero) 2) 2

/-- The comparison with what is not a number is assigned to a variable: nothing is stored, and
nothing is reported. -/
theorem silent_store :
    let m := unsetProgram.run .standard (.ofAnswers [])
    let x := evaluate .standard (invoke .standard 3) nanBelowZero
    let y := execute .standard (invoke .standard 3) ⟨.entry, []⟩
      (.assign (.var "b") .assign nanBelowZero 2)
    Decimal.read? "nan" = some .nan ∧ unsetProgram.Reaches .standard (.ofAnswers []) m ∧
      x.Silent m ∧ ¬y.ReportsError m ∧ (y.run m).2.diagnostics = m.diagnostics ∧
      m.scopes.view "b" = some ⟨"b", .scalar .bool, none, false, 1⟩ ∧
      (y.run m).2.scopes.value? 0 "b" = none := by
  intro m x y
  exact ⟨rfl, unsetProgram.reaches_run _ _, ⟨rfl, nofun⟩, nofun, rfl, rfl, rfl⟩

end Exec

end Bistro
