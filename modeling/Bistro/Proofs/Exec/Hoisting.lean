import Bistro.Proofs.Exec.Glance
import Bistro.Proofs.Exec.Order
import Mathlib.Data.List.Induction

/-!
# Hoisting

Before the entry point runs, the globals are declared and then all functions are registered.  The
globals never clash with each other, so each of their names is bound to its last declaration.  A
function takes its name if that is free, and otherwise a clash is reported.

Clashes are reported outside of any construct, so they share one site.  Two of them are the same
finding if they have the same name and the same line, and then only the first is recorded.

## Main definitions

* `Declaration.bindings` — what a declaration binds.
* `Exec.Declares` — a step that declares a row of bindings and reports no clash.
* `Function.clashing` — the functions whose name is taken.
* `Program.hoisted` — the state before the entry point runs.

## Main results

* `Exec.declares_declareAll` — declarations bind what they say.
* `Exec.run_hoist` — what registering a row of functions does.
* `Diagnostics.ofKind_pushAll` — what is recorded of findings of one kind.
* `Program.hoisting_reports` — **what is bound by hoisting, and which clashes are recorded.**
-/

namespace Bistro

/-! ### What declarations bind -/

/-- The value of a literal, if it has the type. -/
def Literal.fitted (type : ValueType) (l : Literal) : Option Value :=
  if l.toValue.fitsType type then some l.toValue else none

/-- The binding of a declared variable. -/
def Declarator.binding (type : ValueType) (d : Declarator) : Binding :=
  { Binding.scalar d.name type d.line with value := d.init.bind (Literal.fitted type) }

/-- The binding of a declared array. -/
def ArrayDeclaration.binding (limits : Limits) (a : ArrayDeclaration) : Binding :=
  let element := a.element.valueType
  match Exec.arrayLength? limits a.dimension with
  | none => (Binding.array a.name element 0 a.line).withValue (.recipe [])
  | some dimension =>
    let given := ((a.elements.getD []).take dimension).map fun l =>
      (l.fitted element).getD (Value.default element)
    (Binding.array a.name element dimension a.line).withValue
      (.recipe (given ++ List.replicate (dimension - given.length) (Value.default element)))

/-- What a declaration binds, in order. -/
def Declaration.bindings (limits : Limits) : Declaration → List Binding
  | .variables type declarators => declarators.map (Declarator.binding type.valueType)
  | .array a => [a.binding limits]

/-- What the global declarations bind, in order. -/
def Program.globalBindings (limits : Limits) (p : Program) : List Binding :=
  p.globals.flatMap (Declaration.bindings limits)

theorem ArrayDeclaration.name_binding (limits : Limits) (a : ArrayDeclaration) :
    (a.binding limits).name = a.name := by
  unfold binding
  dsimp only
  split <;> rfl

theorem ArrayDeclaration.isFunction_binding (limits : Limits) (a : ArrayDeclaration) :
    (a.binding limits).isFunction = false := by
  unfold binding
  dsimp only
  split <;> rfl

theorem Declaration.map_name_bindings (limits : Limits) (d : Declaration) :
    (d.bindings limits).map Binding.name = d.names := by
  match d with
  | .variables type declarators => simp [bindings, names, Declarator.binding, Binding.scalar]
  | .array a => simp [bindings, names, a.name_binding limits]

theorem Declaration.isFunction_bindings (limits : Limits) (d : Declaration) :
    ∀ b ∈ d.bindings limits, b.isFunction = false := by
  intro b hb
  match d with
  | .variables type declarators =>
    obtain ⟨declarator, -, rfl⟩ := List.mem_map.1 hb
    rfl
  | .array a =>
    obtain rfl := List.mem_singleton.1 hb
    exact a.isFunction_binding limits

theorem Program.map_name_globalBindings (limits : Limits) (p : Program) :
    (p.globalBindings limits).map Binding.name = p.globalNames := by
  simp [globalBindings, globalNames, List.map_flatMap, Declaration.map_name_bindings]

/-! ### Scopes with more bindings -/

namespace Scope

/-- The scope with a row of bindings declared in it. -/
def withAll (bs : List Binding) (s : Scope) : Scope :=
  bs.foldl (fun s b => { s with bindings := s.bindings.set b.name b }) s

theorem withAll_append (bs bs' : List Binding) (s : Scope) :
    s.withAll (bs ++ bs') = (s.withAll bs).withAll bs' :=
  List.foldl_append

theorem All.withAll {p : Binding → Prop} {bs : List Binding} {s : Scope} (h : s.All p)
    (hbs : ∀ b ∈ bs, p b) : (s.withAll bs).All p := by
  induction bs generalizing s with
  | nil => exact h
  | cons b bs ih =>
    rw [List.forall_mem_cons] at hbs
    exact ih (h.set hbs.1 b.name) hbs.2

/-- A name is bound to the last of its bindings. -/
theorem get?_withAll (bs : List Binding) (s : Scope) (name : String) :
    (s.withAll bs).get? name = (bs.reverse.find? (·.name = name)).or (s.get? name) := by
  induction bs generalizing s with
  | nil => rfl
  | cons b bs ih =>
    have hset : Scope.get? { s with bindings := s.bindings.set b.name b } name =
        if b.name = name then some b else s.get? name := Dictionary.get?_set _ _ _ _
    rw [withAll, List.foldl_cons, ← withAll, ih, hset, List.reverse_cons, List.find?_append,
      Option.or_assoc]
    by_cases hname : b.name = name <;> simp [hname]

theorem declare_of_isFunction {s : Scope} {b : Binding} (hb : b.isFunction = false)
    (hs : s.All fun b => b.isFunction = false) :
    s.declare b = .ok { s with bindings := s.bindings.set b.name b } := by
  unfold declare
  cases hget : s.get? b.name with
  | none => rfl
  | some earlier =>
    have hearlier : earlier.isFunction = false := hs.get? hget
    simp [hearlier, hb]

end Scope

/-! ### Steps that report no clash -/

/-- Findings were added, but no clash of names, and the site is the same. -/
structure Diagnostics.Spares {σ : Type} [DecidableEq σ] (ds ds' : Diagnostics σ) : Prop where
  site : ds'.site = ds.site
  clashes : ds'.ofKind .duplicateDeclaration = ds.ofKind .duplicateDeclaration

theorem Diagnostics.Spares.refl {σ : Type} [DecidableEq σ] (ds : Diagnostics σ) : ds.Spares ds :=
  ⟨rfl, rfl⟩

theorem Diagnostics.Spares.trans {σ : Type} [DecidableEq σ] {ds ds' ds'' : Diagnostics σ}
    (h : ds.Spares ds') (h' : ds'.Spares ds'') : ds.Spares ds'' :=
  ⟨h'.site.trans h.site, h'.clashes.trans h.clashes⟩

theorem Diagnostics.spares_push {σ : Type} [DecidableEq σ] {d : Diagnostic} (ds : Diagnostics σ)
    (hd : d.kind ≠ .duplicateDeclaration) : ds.Spares (ds.push d) := by
  refine ⟨site_record _ _ _, ?_⟩
  rw [ofKind, items_push]
  split
  · rfl
  · simp [ofKind, hd]

namespace Exec

variable {α β : Type}

/-- A step that gives a result and does nothing but to report, and that no clash of names. -/
def Yields (x : Exec α) (a : α) : Prop :=
  ∀ m, ∃ diagnostics, x.run m = (a, { m with diagnostics }) ∧ m.diagnostics.Spares diagnostics

theorem Yields.pure (a : α) : Yields (pure a : Exec α) a := fun m => ⟨m.diagnostics, rfl, .refl _⟩

theorem Yields.bind {x : Exec α} {f : α → Exec β} {a : α} {b : β} (hx : Yields x a)
    (hf : Yields (f a) b) : Yields (x >>= f) b := by
  intro m
  obtain ⟨ds, hrun, hspares⟩ := hx m
  obtain ⟨ds', hrun', hspares'⟩ := hf { m with diagnostics := ds }
  refine ⟨ds', ?_, hspares.trans hspares'⟩
  rw [run_bind, hrun]
  exact hrun'

theorem yields_report {f : Finding} (hf : f.kind ≠ .duplicateDeclaration) (line : Nat) :
    Yields (report f line) () :=
  fun m => ⟨_, rfl, m.diagnostics.spares_push hf⟩

theorem yields_checkType (type : ValueType) (l : Literal) (use : Finding.Use) (line : Nat) :
    Yields (checkType type l.toValue use line) (l.fitted type) := by
  unfold checkType Literal.fitted
  split
  · exact .pure _
  · exact (yields_report (by simp [Finding.kind]) line).bind (.pure _)

theorem yields_arrayElements (element : ValueType) (name : String) (line : Nat)
    (literals : List Literal) :
    Yields (arrayElements element name line literals)
      (literals.map fun l => (l.fitted element).getD (Value.default element)) := by
  induction literals with
  | nil => exact .pure _
  | cons l rest ih => exact (yields_checkType element l _ line).bind (ih.bind (.pure _))

/-- A step that declares a row of bindings in the global scope, as long as no other scope is open
and no function is declared, and that reports no clash. -/
def Declares (x : Exec Unit) (bs : List Binding) : Prop :=
  ∀ m : Machine, m.scopes.inner = [] → (m.scopes.global.All fun b => b.isFunction = false) →
    ∃ diagnostics, (x.run m).2 =
        { m with scopes := { m.scopes with global := m.scopes.global.withAll bs }, diagnostics } ∧
      m.diagnostics.Spares diagnostics

theorem Declares.of_yields {x : Exec α} {a : α} {f : α → Exec Unit} {bs : List Binding}
    (hx : Yields x a) (hf : Declares (f a) bs) : Declares (x >>= f) bs := by
  intro m hinner hglobal
  obtain ⟨ds, hrun, hspares⟩ := hx m
  obtain ⟨ds', hrun', hspares'⟩ := hf { m with diagnostics := ds } hinner hglobal
  refine ⟨ds', ?_, hspares.trans hspares'⟩
  rw [run_bind, hrun]
  exact hrun'

theorem Declares.append {x y : Exec Unit} {bs bs' : List Binding} (hx : Declares x bs)
    (hbs : ∀ b ∈ bs, b.isFunction = false) (hy : Declares y bs') :
    Declares (x >>= fun _ => y) (bs ++ bs') := by
  intro m hinner hglobal
  obtain ⟨ds, hrun, hspares⟩ := hx m hinner hglobal
  obtain ⟨ds', hrun', hspares'⟩ := hy { m with
    scopes := { m.scopes with global := m.scopes.global.withAll bs }, diagnostics := ds }
    hinner (hglobal.withAll hbs)
  refine ⟨ds', ?_, hspares.trans hspares'⟩
  rw [run_bind, hrun, hrun', Scope.withAll_append]

theorem declares_nil : Declares (pure ()) [] := fun m _ _ => ⟨m.diagnostics, rfl, .refl _⟩

theorem declares_declare {b : Binding} (hb : b.isFunction = false) : Declares (declare b) [b] := by
  intro m hinner hglobal
  have hdecl : m.scopes.declare b =
      .ok { m.scopes with global := m.scopes.global.withAll [b] } := by
    obtain ⟨⟨inner, global⟩, _, _, _, _⟩ := m
    obtain rfl : inner = [] := hinner
    show (global.declare b).map _ = _
    rw [Scope.declare_of_isFunction hb hglobal]
    rfl
  exact ⟨m.diagnostics, by rw [run_declare, hdecl], .refl _⟩

theorem Declares.atSite {x : Exec Unit} {bs : List Binding} (hx : Declares x bs) (site : Site) :
    Declares (atSite site x) bs := by
  intro m hinner hglobal
  obtain ⟨ds, hrun, hspares⟩ := hx { m with diagnostics := m.diagnostics.enter site } hinner hglobal
  refine ⟨ds.enter m.diagnostics.site, ?_, rfl, hspares.clashes⟩
  rw [run_atSite]
  dsimp only
  rw [hrun]

theorem declares_declareVariable (type : ValueType) (d : Declarator) :
    Declares (declareVariable type d) [d.binding type] := by
  have hdeclare : ∀ value, Declares (declare { Binding.scalar d.name type d.line with value })
      [{ Binding.scalar d.name type d.line with value }] := fun _ => declares_declare rfl
  unfold declareVariable Declarator.binding
  cases d.init with
  | none => exact .of_yields (.pure none) (hdeclare none)
  | some init => exact .of_yields (yields_checkType _ _ _ _) (hdeclare (init.fitted type))

theorem declares_declareArray (limits : Limits) (a : ArrayDeclaration) :
    Declares (declareArray limits a) [a.binding limits] := by
  have hdeclare : ∀ dimension v, Declares
      (declare ((Binding.array a.name a.element.valueType dimension a.line).withValue v))
      [(Binding.array a.name a.element.valueType dimension a.line).withValue v] :=
    fun _ _ => declares_declare rfl
  unfold declareArray ArrayDeclaration.binding
  dsimp only
  cases arrayLength? limits a.dimension with
  | none => exact .of_yields (yields_report (by simp [Finding.kind]) _) (hdeclare 0 _)
  | some dimension =>
    -- the given elements are those of the literals that fit, whatever is said of their number
    have hgiven := fun given : List Value => hdeclare dimension (.recipe
      (given ++ List.replicate (dimension - given.length) (Value.default a.element.valueType)))
    cases a.elements with
    | none => exact .of_yields (.pure []) (by simpa using hgiven [])
    | some literals =>
      have helements := yields_arrayElements a.element.valueType a.name a.line
        (literals.take dimension)
      dsimp only [Option.getD_some]
      split
      · exact .of_yields (yields_report (by simp [Finding.kind]) _)
          (.of_yields helements (hgiven _))
      · split
        · exact .of_yields (yields_report (by simp [Finding.kind]) _)
            (.of_yields helements (hgiven _))
        · exact .of_yields helements (hgiven _)

theorem declares_declareOne (limits : Limits) (d : Declaration) :
    Declares (declareOne limits d) (d.bindings limits) := by
  match d with
  | .array a => exact declares_declareArray limits a
  | .variables type declarators =>
    unfold declareOne Declaration.bindings
    induction declarators with
    | nil => exact declares_nil
    | cons d declarators ih =>
      exact (declares_declareVariable type.valueType d).append (List.forall_mem_singleton.2 rfl) ih

/-- Declarations bind what they say. -/
theorem declares_declareAll (limits : Limits) (site : Site) (i : Nat) (ds : List Declaration) :
    Declares (declareAll limits site i ds) (ds.flatMap (Declaration.bindings limits)) := by
  induction ds generalizing i with
  | nil => exact declares_nil
  | cons d ds ih =>
    rw [List.flatMap_cons]
    exact ((declares_declareOne limits d).atSite _).append (d.isFunction_bindings limits) (ih _)

end Exec

/-! ### Registering functions -/

namespace Function

/-- The functions whose name is taken, be it one of the given names or that of an earlier
function. -/
def clashing (taken : List String) : List Function → List Function
  | [] => []
  | f :: rest => (if f.name ∈ taken then [f] else []) ++ clashing (f.name :: taken) rest

/-- The finding that the name of a function is taken. -/
def clash (f : Function) : Diagnostic := (Finding.duplicateFunction f.name).onLine f.line

/-- Clashes of one name on one line are the same finding. -/
theorem clash_inj {f g : Function} : f.clash = g.clash ↔ f.name = g.name ∧ f.line = g.line := by
  constructor
  · intro h
    exact ⟨Option.some.inj (congrArg Diagnostic.identifier h),
      Option.some.inj (congrArg Diagnostic.line h)⟩
  · rintro ⟨hname, hline⟩
    rw [clash, clash, hname, hline]

end Function

/-- Taking a function whose name is bound is refused, and one whose name is free is bound to it. -/
theorem ScopeStack.declareGlobal_function (s : ScopeStack) (f : Function) :
    (∃ b, s.global.get? f.name = some b ∧ ∃ e, s.declareGlobal (.function f) = .error e) ∨
    (s.global.get? f.name = none ∧
      s.declareGlobal (.function f) = .ok { s with global := s.global.withAll [.function f] }) := by
  unfold declareGlobal Scope.declare
  cases hget : s.global.get? f.name with
  | none =>
    refine .inr ⟨rfl, ?_⟩
    simp only [Binding.function, hget]
    rfl
  | some b =>
    refine .inl ⟨b, rfl, ⟨f.name, b.line⟩, ?_⟩
    have hfunction : (b.isFunction || (Binding.function f).isFunction) = true := Bool.or_true _
    simp only [show (Binding.function f).name = f.name from rfl, hget, hfunction, if_true]
    rfl

namespace Exec

/-- A scope binds the given names and no others. -/
def BoundNames (taken : List String) (scope : Scope) : Prop :=
  ∀ name, (scope.get? name).isSome = true ↔ name ∈ taken

/-- What registering a function does: if its name is free it is bound, and else it is reported. -/
theorem run_declareFunction_of_taken {taken : List String} {m : Machine}
    (htaken : BoundNames taken m.scopes.global) (f : Function) :
    ∃ global : Scope, ((declareFunction f).run m).2 =
        { m with
          scopes := { m.scopes with global }
          diagnostics := m.diagnostics.pushAll (if f.name ∈ taken then [f.clash] else []) } ∧
      ∀ name, global.get? name = (m.scopes.global.get? name).or
        (if f.name = name then some (.function f) else none) := by
  rw [run_declareFunction]
  rcases m.scopes.declareGlobal_function f with ⟨b, hget, e, hdecl⟩ | ⟨hget, hdecl⟩
  · have hmem : f.name ∈ taken := (htaken f.name).1 (by rw [hget]; rfl)
    rw [hdecl, if_pos hmem]
    refine ⟨m.scopes.global, rfl, fun name => ?_⟩
    split
    · next hname => rw [← hname, hget, Option.some_or]
    · exact Option.or_none.symm
  · have hmem : f.name ∉ taken := fun h => by
      have hbound := (htaken f.name).2 h
      rw [hget] at hbound
      cases hbound
    rw [hdecl, if_neg hmem]
    refine ⟨m.scopes.global.withAll [.function f], rfl, fun name => ?_⟩
    have hset : (m.scopes.global.withAll [.function f]).get? name =
        if f.name = name then some (.function f) else m.scopes.global.get? name :=
      Dictionary.get?_set _ _ _ _
    rw [hset]
    split
    · next hname => rw [← hname, hget, Option.none_or]
    · exact Option.or_none.symm

theorem BoundNames.cons {taken : List String} {scope global : Scope} {f : Function}
    (h : BoundNames taken scope) (hglobal : ∀ name, global.get? name = (scope.get? name).or
      (if f.name = name then some (.function f) else none)) :
    BoundNames (f.name :: taken) global := by
  intro name
  rw [hglobal, Option.isSome_or, Bool.or_eq_true, h name, List.mem_cons, or_comm]
  by_cases hname : f.name = name
  · simp [hname]
  · simp [hname, Ne.symm hname]

/-- **What registering a row of functions does**: a name that is free is bound to the first function
that has it, and all functions whose name is taken are reported, in order. -/
theorem run_hoist (fs : List Function) (taken : List String) (m : Machine)
    (htaken : BoundNames taken m.scopes.global) :
    ∃ global : Scope, ((fs.forM declareFunction).run m).2 =
        { m with
          scopes := { m.scopes with global }
          diagnostics := m.diagnostics.pushAll ((Function.clashing taken fs).map Function.clash) } ∧
      ∀ name, global.get? name =
        (m.scopes.global.get? name).or ((fs.find? (·.name = name)).map Binding.function) := by
  induction fs generalizing m taken with
  | nil => exact ⟨m.scopes.global, rfl, fun name => (Option.or_none).symm⟩
  | cons f fs ih =>
    obtain ⟨global, hfirst, hglobal⟩ := run_declareFunction_of_taken htaken f
    have hrun : (((f :: fs).forM declareFunction).run m).2 =
        ((fs.forM declareFunction).run ((declareFunction f).run m).2).2 := rfl
    rw [hrun, hfirst]
    obtain ⟨global', hrest, hglobal'⟩ := ih (f.name :: taken)
      { m with
        scopes := { m.scopes with global }
        diagnostics := m.diagnostics.pushAll (if f.name ∈ taken then [f.clash] else []) }
      (htaken.cons hglobal)
    have hclashes : (if f.name ∈ taken then [f.clash] else []) ++
        (Function.clashing (f.name :: taken) fs).map Function.clash =
        (Function.clashing taken (f :: fs)).map Function.clash := by
      rw [Function.clashing]
      split <;> rfl
    refine ⟨global', ?_, fun name => ?_⟩
    · rw [hrest, ← hclashes, Diagnostics.pushAll_append]
    · rw [hglobal' name]
      dsimp only
      rw [hglobal name, Option.or_assoc, List.find?_cons]
      by_cases hname : f.name = name <;> simp [hname]

end Exec

/-! ### What is recorded of a row of findings -/

section
variable {α : Type} [DecidableEq α]

theorem eraseDups_concat (l : List α) (a : α) :
    (l ++ [a]).eraseDups = if a ∈ l then l.eraseDups else l.eraseDups ++ [a] := by
  rw [List.eraseDups_append]
  by_cases ha : a ∈ l <;> simp [List.removeAll, ha, List.eraseDups_cons]

theorem length_eraseDups_le (l : List α) : l.eraseDups.length ≤ l.length := by
  induction l using List.reverseRecOn with
  | nil => exact Nat.le_refl 0
  | append_singleton l a ih =>
    rw [eraseDups_concat]
    split <;> simp <;> omega

/-- Nothing is dropped if and only if nothing stands twice. -/
theorem length_eraseDups_eq_iff (l : List α) : l.eraseDups.length = l.length ↔ l.Nodup := by
  induction l using List.reverseRecOn with
  | nil => simp
  | append_singleton l a ih =>
    have hle := length_eraseDups_le l
    rw [eraseDups_concat, (List.perm_append_singleton a l).nodup_iff, List.nodup_cons, ← ih]
    by_cases ha : a ∈ l
    · simp [ha]
      omega
    · simp [ha]

end

/-- Of a row of findings of one kind, none of which was there, each is recorded once, at its first
place. -/
theorem Diagnostics.ofKind_pushAll {σ : Type} [DecidableEq σ] {kind : Diagnostic.Kind}
    {ds : List Diagnostic} (hds : ∀ d ∈ ds, d.kind = kind) {all : Diagnostics σ}
    (hall : all.ofKind kind = []) : (all.pushAll ds).ofKind kind = ds.eraseDups := by
  induction ds using List.reverseRecOn with
  | nil => exact hall
  | append_singleton ds d ih =>
    have hkind : d.kind = kind := hds d (List.mem_append_right ds List.mem_cons_self)
    have hrest := ih fun d hd => hds d (List.mem_append_left _ hd)
    -- it was recorded if and only if it is in the row before
    have hmem : (d, some (all.pushAll ds).site) ∈ (all.pushAll ds).records ↔ d ∈ ds := by
      constructor
      · intro h
        have hitem : d ∈ (all.pushAll ds).ofKind kind := by
          refine List.mem_filter.2 ⟨?_, decide_eq_true hkind⟩
          exact List.mem_reverse.2 (List.mem_map.2 ⟨_, h, rfl⟩)
        rwa [hrest, List.mem_eraseDups] at hitem
      · intro h
        rw [site_pushAll]
        exact mem_records_pushAll h all
    have hpush : (all.pushAll (ds ++ [d])).items =
        if d ∈ ds then (all.pushAll ds).items else (all.pushAll ds).items ++ [d] := by
      rw [pushAll_append]
      show ((all.pushAll ds).push d).items = _
      rw [items_push]
      simp only [hmem]
    rw [ofKind, hpush, eraseDups_concat, ← hrest]
    split
    · rfl
    · simp [ofKind, hkind]

/-! ### Hoisting -/

namespace Program

open Exec

/-- The state when the globals of a program are declared and the given functions registered. -/
def hoist (limits : Limits) (p : Program) (fs : List Function) (input : Input) : Machine :=
  let m := ((declareAll limits ⟨.globals, []⟩ 0 p.globals).run (Machine.initial input)).2
  ((fs.forM declareFunction).run m).2

/-- The state before the entry point runs. -/
def hoisted (limits : Limits) (p : Program) (input : Input) : Machine :=
  p.hoist limits p.functions input

/-- The definition `f` behind the functions `before` is bound: its name is free when its turn comes,
and before the entry point runs the name stands for it. -/
def Binds (limits : Limits) (p : Program) (input : Input) (before : List Function) (f : Function) :
    Prop :=
  (p.hoist limits before input).scopes.global.get? f.name = none ∧
    (p.hoisted limits input).scopes.global.get? f.name = some (.function f)

/-- The functions of a program whose name is that of a global variable or of an earlier function. -/
def clashing (p : Program) : List Function := Function.clashing p.globalNames p.functions

theorem run_eq_hoisted (limits : Limits) (p : Program) (input : Input) :
    p.run limits input = ((runEntry limits p).run (p.hoisted limits input)).2 := rfl

/-- The last declaration of a global name. -/
def lastGlobal? (limits : Limits) (p : Program) (name : String) : Option Binding :=
  (p.globalBindings limits).reverse.find? (·.name = name)

theorem isSome_lastGlobal? (limits : Limits) (p : Program) (name : String) :
    (p.lastGlobal? limits name).isSome = true ↔ name ∈ p.globalNames := by
  rw [← p.map_name_globalBindings limits]
  simp [lastGlobal?]

/-- What hoisting binds, and what it records. -/
theorem hoist_spec (limits : Limits) (p : Program) (fs : List Function) (input : Input) :
    (∀ name, (p.hoist limits fs input).scopes.global.get? name =
      (p.lastGlobal? limits name).or ((fs.find? (·.name = name)).map Binding.function)) ∧
    (p.hoist limits fs input).diagnostics.ofKind .duplicateDeclaration =
      ((Function.clashing p.globalNames fs).map Function.clash).eraseDups := by
  obtain ⟨ds, hglobals, hspares⟩ := declares_declareAll limits ⟨.globals, []⟩ 0 p.globals
    (Machine.initial input) rfl (Scope.All.opened _ _)
  have hget : ∀ name, ((Machine.initial input).scopes.global.withAll
      (p.globalBindings limits)).get? name = p.lastGlobal? limits name :=
    fun name => (Scope.get?_withAll _ _ name).trans Option.or_none
  obtain ⟨global, hrun, hglobal⟩ := run_hoist fs p.globalNames
    ((declareAll limits ⟨.globals, []⟩ 0 p.globals).run (Machine.initial input)).2 fun name => by
      rw [hglobals, ← p.isSome_lastGlobal? limits, ← hget name]
      rfl
  unfold hoist
  rw [hrun]
  refine ⟨fun name => ?_, Diagnostics.ofKind_pushAll ?_ ?_⟩
  · refine (hglobal name).trans ?_
    rw [hglobals, ← hget name]
    rfl
  · intro d hd
    obtain ⟨f, -, rfl⟩ := List.mem_map.1 hd
    rfl
  · rw [hglobals]
    exact hspares.clashes

theorem binds_iff (limits : Limits) (p : Program) (input : Input) {before after : List Function}
    {f : Function} (hp : p.functions = before ++ f :: after) :
    p.Binds limits input before f ↔ f.name ∉ p.globalNames ∧ ∀ g ∈ before, g.name ≠ f.name := by
  have hlast : p.lastGlobal? limits f.name = none ↔ f.name ∉ p.globalNames := by
    rw [← p.isSome_lastGlobal? limits, ← Option.not_isSome_iff_eq_none]
  have hbefore : (before.find? (·.name = f.name)).map Binding.function = none ↔
      ∀ g ∈ before, g.name ≠ f.name := by
    simp [List.find?_eq_none]
  rw [Binds, hoisted, (p.hoist_spec limits before input).1, (p.hoist_spec limits _ input).1,
    Option.or_eq_none_iff, hlast, hbefore, and_iff_left_iff_imp]
  rintro ⟨hglobals, hnames⟩
  -- the first function of this name is `f`
  rw [hlast.2 hglobals, Option.none_or, hp, List.find?_append,
    Option.map_eq_none_iff.1 (hbefore.2 hnames), Option.none_or, List.find?_cons_of_pos (by simp)]
  rfl

/-- **What is bound by hoisting, and which clashes are recorded.**  In the state from which the
entry point runs, for every program, limits and input:

* a function definition is bound if and only if no global variable and no earlier function has its
  name;
* the name of a global variable stands for its last declaration;
* the clashes that are recorded are those of all functions that are not bound, in order, but those
  with the same name and the same line are recorded once.

So their number is that of the functions that are not bound if and only if no two of these have both
the same name and the same line. -/
theorem hoisting_reports (limits : Limits) (p : Program) (input : Input) :
    let m := p.hoisted limits input
    let clashes := m.diagnostics.ofKind .duplicateDeclaration
    p.run limits input = ((runEntry limits p).run m).2 ∧
    (∀ before f after, p.functions = before ++ f :: after →
      (p.Binds limits input before f ↔
        f.name ∉ p.globalNames ∧ ∀ g ∈ before, g.name ≠ f.name)) ∧
    (∀ name ∈ p.globalNames, ∃ b, p.lastGlobal? limits name = some b ∧
      m.scopes.global.get? name = some b) ∧
    clashes = (p.clashing.map Function.clash).eraseDups ∧
    (clashes.length = p.clashing.length ↔
      (p.clashing.map fun f => (f.name, f.line)).Nodup) := by
  intro m clashes
  obtain ⟨hbound, hclashes⟩ := p.hoist_spec limits p.functions input
  refine ⟨run_eq_hoisted limits p input, fun before f after hp => binds_iff limits p input hp,
    fun name hname => ?_, hclashes, ?_⟩
  · obtain ⟨b, hb⟩ := Option.isSome_iff_exists.1 ((p.isSome_lastGlobal? limits name).2 hname)
    refine ⟨b, hb, (hbound name).trans ?_⟩
    rw [hb, Option.some_or]
  · have hlength : (p.clashing.map Function.clash).length = p.clashing.length := List.length_map _
    have hnodup : (p.clashing.map Function.clash).Nodup ↔
        (p.clashing.map fun f => (f.name, f.line)).Nodup := by
      simp only [List.Nodup, List.pairwise_map, ne_eq, Function.clash_inj, Prod.mk.injEq]
    rw [← hnodup, ← length_eraseDups_eq_iff, hlength]
    exact iff_of_eq (congrArg (List.length · = _) hclashes)

/-- A function without parameters that does nothing, on the first line. -/
def idler : Function := ⟨"f", none, [], [], [], none, 1⟩

/-- Three functions of one name on one line: two are not bound, and one clash is recorded. -/
theorem hoisting_hides_clash :
    let p : Program := ⟨[], [idler, idler, idler], [], [], 0, 1⟩
    let m := p.hoisted .standard (.ofAnswers [])
    p.clashing.length = 2 ∧ (m.diagnostics.ofKind .duplicateDeclaration).length = 1 := by
  decide

end Program

end Bistro
