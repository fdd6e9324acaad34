import Bistro.Exec.Run
import Bistro.Proofs.Exec.Logic
import Bistro.Proofs.Scope.WellTyped
import Mathlib.Logic.Relation

/-!
# The changes a run makes

However calls and loops are nested, a run changes its state in few ways: it records findings, output
and requests, opens and closes scopes, counts calls, marks bindings as used, declares bindings and
stores values.  What is declared and stored has passed the checks for it.  So whatever these changes
keep, holds along every run.

## Main definitions

* `Machine.Change`, `Machine.Leads` — one change, and a row of them.
* `Exec.OnlyReports` — a step that changes nothing but the findings.
* `Exec.Traced` — a step that makes such changes only.

## Main results

* `Exec.OnlyReports.applyBinary`, `Exec.OnlyReports.combine` — operators only report.
* `Exec.triple_lookup`, `Exec.triple_store` — a name that was looked up keeps its binding until a
  value is stored that the binding accepts.
* `Exec.Traced.declare`, `Exec.Traced.inScope`, `Exec.Traced.inCall` — declarations and scopes.
-/

namespace Bistro

/-! ### Changes -/

/-- A value may be stored in a variable or an array as a whole. -/
def Binding.Accepts (b : Binding) (v : Value) : Prop :=
  match b.kind with
  | .scalar type => v.type = type
  | .array element dimension =>
    ∃ items, v = .recipe items ∧ items.length = dimension ∧ ∀ x ∈ items, x.type = element
  | .function _ => False

/-- One change of the state of a run. -/
inductive Machine.Change : Machine → Machine → Prop
  /-- The findings or the present site. -/
  | findings (m : Machine) (diagnostics : Diagnostics Site) : Change m { m with diagnostics }
  /-- The output. -/
  | output (m : Machine) (output : Output) : Change m { m with output }
  /-- The input. -/
  | input (m : Machine) (input : Input) : Change m { m with input }
  /-- The number of calls in progress. -/
  | calls (m : Machine) (callDepth : Nat) : Change m { m with callDepth }
  /-- A binding is marked as used. -/
  | mark (m : Machine) (name : String) :
      Change m { m with scopes := m.scopes.adjust name Binding.marked }
  /-- A value is stored that the binding accepts. -/
  | store {m : Machine} {name : String} {b : Binding} {v : Value}
      (hb : m.scopes.peek? name = some b) (hv : b.Accepts v) :
      Change m { m with scopes := m.scopes.adjust name (·.withValue v) }
  /-- An element of an array is replaced by a value of the same type. -/
  | element {m : Machine} {name : String} {b : Binding} {element : ValueType} {dimension : Nat}
      {items : List Value} {index : Nat} {v : Value} (hb : m.scopes.peek? name = some b)
      (hkind : b.kind = .array element dimension) (hitems : b.value = some (.recipe items))
      (hindex : index < items.length) (hv : v.type = element) :
      Change m { m with scopes := m.scopes.adjust name (Exec.replaceElement index v) }
  /-- A well-typed variable or array is declared. -/
  | declare {m : Machine} {b : Binding} {scopes : ScopeStack}
      (h : m.scopes.declare b = .ok scopes) (hb : b.WellTyped) (hf : b.isFunction = false) :
      Change m { m with scopes }
  /-- A function is declared. -/
  | function {m : Machine} {f : Function} {scopes : ScopeStack}
      (h : m.scopes.declareGlobal (.function f) = .ok scopes) : Change m { m with scopes }
  /-- A scope is opened. -/
  | push (m : Machine) (kind : Scope.Kind) (link : Scope.Link) :
      Change m { m with scopes := { m.scopes with inner := .opened kind link :: m.scopes.inner } }
  /-- A scope is closed. -/
  | pop {m : Machine} {scope : Scope} {scopes : ScopeStack}
      (h : m.scopes.pop? = some (scope, scopes)) : Change m { m with scopes }

/-- A row of changes. -/
def Machine.Leads : Machine → Machine → Prop := Relation.ReflTransGen Machine.Change

open Machine (Change Leads)

namespace Exec

variable {α β : Type} {x : Exec α}

/-! ### Steps that only report -/

/-- A step that changes nothing but the findings. -/
def OnlyReports (x : Exec α) : Prop :=
  ∀ m n, x.passes m n → ∃ diagnostics, n = { m with diagnostics }

theorem OnlyReports.run (h : OnlyReports x) (m : Machine) :
    ∃ diagnostics, (x.run m).2 = { m with diagnostics } := by
  rcases x.passes_end m with heq | hpass
  · exact ⟨m.diagnostics, heq⟩
  · exact h m _ hpass

theorem OnlyReports.pure (a : α) : OnlyReports (pure a : Exec α) := fun _ _ h => False.elim h

theorem OnlyReports.bind {f : α → Exec β} (hx : OnlyReports x) (hf : ∀ a, OnlyReports (f a)) :
    OnlyReports (x >>= f) := by
  rintro m n (hn | hn)
  · exact hx m n hn
  · obtain ⟨d, hd⟩ := hf _ _ n hn
    obtain ⟨d', hd'⟩ := hx.run m
    exact ⟨d, by rw [hd, hd']⟩

theorem OnlyReports.report (f : Finding) (line : Nat) : OnlyReports (report f line) := by
  rintro m n rfl
  exact ⟨_, rfl⟩

theorem OnlyReports.reject (f : Finding) (line : Nat) :
    OnlyReports (reject f line : Exec (Option α)) :=
  (OnlyReports.report f line).bind fun _ => .pure _

theorem OnlyReports.checkType (target : ValueType) (v : Value) (use : Finding.Use) (line : Nat) :
    OnlyReports (checkType target v use line) := by
  unfold Exec.checkType
  split
  · exact .pure _
  · exact .reject _ _

/-! ### Operators only report -/

theorem OnlyReports.integerArithmetic (limits : Limits) (op : BinaryOp) (a b : Int) (line : Nat) :
    OnlyReports (integerArithmetic limits op a b line) := by
  unfold Exec.integerArithmetic
  split
  · exact .reject _ _
  · split
    · exact .reject _ _
    · split
      · exact .pure _
      · exact .reject _ _

theorem OnlyReports.fractionArithmetic (op : BinaryOp) (x y : Binary64) (line : Nat) :
    OnlyReports (fractionArithmetic op x y line) := by
  unfold Exec.fractionArithmetic
  split
  · exact .reject _ _
  · split
    · exact .pure _
    · exact .reject _ _

theorem OnlyReports.arithmetic (limits : Limits) (op : BinaryOp) (left right : Value)
    (line : Nat) : OnlyReports (arithmetic limits op left right line) := by
  unfold Exec.arithmetic
  split
  · split
    · exact .pure _
    · exact .reject _ _
  · exact .integerArithmetic _ _ _ _ _
  · split
    · exact .fractionArithmetic _ _ _ _
    · exact .reject _ _

theorem OnlyReports.equality (op : BinaryOp) (left right : Value) (line : Nat) :
    OnlyReports (equality op left right line) := by
  unfold Exec.equality
  split
  · exact .pure _
  · split
    · exact .pure _
    · split
      · exact .pure _
      · exact .reject _ _

theorem OnlyReports.order (op : BinaryOp) (left right : Value) (line : Nat) :
    OnlyReports (order op left right line) := by
  unfold Exec.order
  split
  · exact .pure _
  · exact .pure _
  · split
    · exact .pure _
    · exact .reject _ _

theorem OnlyReports.applyBinary (limits : Limits) (op : BinaryOp) (left right : Value)
    (line : Nat) : OnlyReports (applyBinary limits op left right line) := by
  have hequality := OnlyReports.equality op left right line
  have horder := OnlyReports.order op left right line
  unfold Exec.applyBinary
  cases op with
  | add | sub | mul | div | mod => exact .arithmetic _ _ _ _ _
  | equal | notEqual => exact hequality.bind fun _ => .pure _
  | less | greater | lessEqual | greaterEqual => exact horder.bind fun _ => .pure _
  | both | either =>
    dsimp only
    split
    · exact .pure _
    · exact .reject _ _

theorem OnlyReports.applyBinary? (limits : Limits) (op : BinaryOp) (left right : Option Value)
    (line : Nat) : OnlyReports (applyBinary? limits op left right line) := by
  unfold Exec.applyBinary?
  split
  · exact .applyBinary _ _ _ _ _
  · exact .pure _

theorem OnlyReports.applyNegation (symbol : String) (f : Bool → Bool) (v : Option Value)
    (line : Nat) : OnlyReports (applyNegation symbol f v line) := by
  unfold Exec.applyNegation
  split
  · exact .pure _
  · exact .pure _
  · exact .reject _ _

theorem OnlyReports.combine (limits : Limits) (op : AssignOp) (current : Option Value) (v : Value)
    (name : String) (line : Nat) : OnlyReports (combine limits op current v name line) := by
  unfold Exec.combine
  split
  · exact .pure _
  · split
    · exact .reject _ _
    · exact .applyBinary _ _ _ _ _

/-! ### Steps that make such changes only -/

/-- A step that makes the changes of a run only. -/
def Traced (x : Exec α) : Prop := ∀ m₀, Keeps (Leads m₀) x

theorem Traced.leads (h : Traced x) {m n : Machine} (hn : x.passes m n) : Leads m n :=
  (h m m .refl).1 n hn

/-- What else is known before a step may be forgotten. -/
theorem Traced.triple (h : Traced x) (m₀ : Machine) (known : Machine → Prop) :
    Triple (Leads m₀) (fun m => Leads m₀ m ∧ known m) x fun _ => Leads m₀ :=
  (h m₀).mono (fun _ hm => hm.1) fun _ _ h => h

theorem Traced.pure (a : α) : Traced (pure a : Exec α) := fun _ => .pure a

theorem Traced.bind {f : α → Exec β} (hx : Traced x) (hf : ∀ a, Traced (f a)) :
    Traced (x >>= f) :=
  fun m₀ => (hx m₀).bind fun a => hf a m₀

theorem Traced.modify {f : Machine → Machine} (h : ∀ m, Change m (f m)) :
    Traced (modify f : Exec PUnit) :=
  fun _ => .modify fun m hm => hm.tail (h m)

theorem OnlyReports.traced (h : OnlyReports x) : Traced x := by
  refine fun m₀ => .of_passes fun m n hm hn => ?_
  obtain ⟨d, rfl⟩ := h m n hn
  exact hm.tail (.findings m d)

theorem Traced.report (f : Finding) (line : Nat) : Traced (report f line) :=
  (OnlyReports.report f line).traced

theorem Traced.reject (f : Finding) (line : Nat) : Traced (reject f line : Exec (Option α)) :=
  (OnlyReports.reject f line).traced

theorem Traced.checkType (target : ValueType) (v : Value) (use : Finding.Use) (line : Nat) :
    Traced (checkType target v use line) :=
  (OnlyReports.checkType target v use line).traced

theorem Traced.forM {f : α → Exec PUnit} (h : ∀ a, Traced (f a)) (as : List α) :
    Traced (as.forM f) :=
  fun m₀ => .forM (fun a => h a m₀) as

theorem traced_enter (site : Site) : Traced
    (modify fun m => { m with diagnostics := m.diagnostics.enter site } : Exec PUnit) :=
  .modify fun m => .findings m _

theorem Traced.atSite (h : Traced x) (site : Site) : Traced (atSite site x) := by
  intro m₀
  refine Triple.bind_get fun m hm => ?_
  -- which site is gone back to is known only once the state was looked at
  have hrest := (traced_enter site).bind fun _ => h.bind fun a =>
    (traced_enter m.diagnostics.site).bind fun _ => .pure a
  refine (hrest m₀).mono ?_ fun _ _ h => h
  rintro n rfl
  exact hm

/-! ### Scopes -/

/-- A name that was looked up resolves to the binding that was found. -/
theorem triple_lookup (m₀ : Machine) (name : String) :
    Triple (Leads m₀) (Leads m₀) (lookup name)
      fun r m => Leads m₀ m ∧ m.scopes.peek? name = r :=
  Triple.modifyGet fun m hm =>
    have hlead : Leads m₀ { m with scopes := (m.scopes.lookup name).2 } :=
      hm.tail (.mark m name)
    ⟨hlead, hlead, rfl⟩

theorem Traced.lookup (name : String) : Traced (lookup name) :=
  fun m₀ => (triple_lookup m₀ name).mono (fun _ hm => hm) fun _ _ h => h.1

/-- Findings do not touch what is known of the scopes. -/
theorem OnlyReports.triple (h : OnlyReports x) (m₀ : Machine) (known : ScopeStack → Prop) :
    Triple (Leads m₀) (fun m => Leads m₀ m ∧ known m.scopes) x
      fun _ m => Leads m₀ m ∧ known m.scopes := by
  rintro m ⟨hm, hknown⟩
  refine ⟨(h.traced m₀ m hm).1, (h.traced m₀ m hm).2, ?_⟩
  obtain ⟨d, hd⟩ := h.run m
  rw [hd]
  exact hknown

theorem triple_store (m₀ : Machine) (name : String) {b : Binding} {v : Value}
    (hv : b.Accepts v) :
    Triple (Leads m₀) (fun m => Leads m₀ m ∧ m.scopes.peek? name = some b) (store name v)
      fun _ => Leads m₀ :=
  Triple.modify fun _ hm =>
    have hlead := hm.1.tail (.store hm.2 hv)
    ⟨hlead, hlead⟩

theorem Traced.declare {b : Binding} (hb : b.WellTyped) (hf : b.isFunction = false) :
    Traced (declare b) := by
  refine fun m₀ => Triple.bind_get fun m hm => ?_
  split
  · next scopes hscopes =>
    refine Triple.set fun _ _ => ?_
    have hlead := hm.tail (.declare hscopes hb hf)
    exact ⟨hlead, hlead⟩
  · refine (Traced.report _ _ m₀).mono ?_ fun _ _ h => h
    rintro n rfl
    exact hm

theorem Traced.closeScope : Traced closeScope := by
  refine fun m₀ => Triple.bind_get fun m hm => ?_
  split
  · refine Triple.pure ?_
    rintro n rfl
    exact hm
  · next scope scopes hpop =>
    have hset : Triple (Leads m₀) (· = m) (set { m with scopes } : Exec PUnit)
        fun _ => Leads m₀ := by
      have hlead := hm.tail (.pop hpop)
      exact Triple.set fun _ _ => ⟨hlead, hlead⟩
    refine hset.bind fun _ => ?_
    -- the warnings are findings of the state in which the scope is closed already
    split
    · exact Keeps.pure _
    · exact Traced.forM (fun b => .modify fun m => .findings m _) _ m₀

/-- An opened scope is empty. -/
def Opens (opened : ScopeStack → ScopeStack) : Prop :=
  ∃ kind link, ∀ s : ScopeStack, opened s = { s with inner := .opened kind link :: s.inner }

theorem Opens.push (kind : Scope.Kind) : Opens (·.push kind) := ⟨kind, .outer, fun _ => rfl⟩

theorem Traced.inScope {opened : ScopeStack → ScopeStack} (ho : Opens opened) (hx : Traced x) :
    Traced (inScope opened x) := by
  obtain ⟨kind, link, ho⟩ := ho
  refine Traced.bind (.modify fun m => ?_) fun _ => hx.bind fun a => ?_
  · rw [ho]
    exact .push m kind link
  · exact Traced.closeScope.bind fun _ => .pure a

theorem Traced.inCall (hx : Traced x) : Traced (inCall x) := by
  refine Traced.bind (fun m₀ => .modify fun m hm => ?_) fun _ => hx.bind fun a =>
    Traced.bind (fun m₀ => .modify fun m hm => ?_) fun _ => .pure a
  · exact (hm.tail (.push m .function .global)).tail (.calls _ _)
  · exact (Traced.closeScope m₀ m hm).2.tail (.calls _ _)

end Exec

end Bistro
