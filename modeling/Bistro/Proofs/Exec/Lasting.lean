import Bistro.Proofs.Exec.WiderLimits

/-!
# Errors last

An error that is recorded at any moment of a run is still recorded at its end: no step takes a
finding back.  And a step that is taken in the course of another one begins and ends in states that
the other one passes through.  So if a run ends without errors, then so does every step on its way.

## Main definitions

* `Machine.Failed` — an error is recorded.
* `Exec.Lasting` — a step that takes no error back.
* `Exec.Taken` — a step is taken in the course of another one.
* `Program.Takes` — a step is taken in the course of a run.

## Main results

* `Exec.lasting_congruence`, `Exec.lasting_runProgram` — no step of a run takes an error back.
* `Program.Reaches.failed_run` — **an error in any state of a run is there at its end.**
* `Program.Takes.reaches`, `Program.Takes.reaches_run` — where a step of a run begins and ends.
* `Program.exists_takes_body` — the statements of the entry point are among the steps of a run.
-/

namespace Bistro

/-- An error is recorded. -/
def Machine.Failed (m : Machine) : Prop := m.diagnostics.hasErrors = true

namespace Exec

open Machine (Failed)

variable {α β : Type} {x : Exec α} {m : Machine}

/-! ### Steps that take no error back -/

/-- If an error is recorded before a step from a state or while it is taken, then also behind it. -/
structure LastingAt (x : Exec α) (m : Machine) : Prop where
  before : m.Failed → (x.run m).2.Failed
  amid : ∀ n, x.passes m n → n.Failed → (x.run m).2.Failed

/-- A step takes no error back. -/
def Lasting (x : Exec α) : Prop := ∀ m, LastingAt x m

theorem LastingAt.bind {f : α → Exec β} (hx : LastingAt x m)
    (hf : LastingAt (f (x.run m).1) (x.run m).2) : LastingAt (x >>= f) m := by
  refine ⟨fun hm => hf.before (hx.before hm), ?_⟩
  rintro n (hn | hn) hfailed
  · exact hf.before (hx.amid n hn hfailed)
  · exact hf.amid n hn hfailed

theorem LastingAt.modifyGet {f : Machine → α × Machine} (h : m.Failed → (f m).2.Failed) :
    LastingAt (modifyGet f : Exec α) m := by
  refine ⟨h, ?_⟩
  rintro n rfl hfailed
  exact hfailed

theorem Lasting.pure (a : α) : Lasting (pure a : Exec α) := fun _ => ⟨id, nofun⟩

theorem Lasting.bind {f : α → Exec β} (hx : Lasting x) (hf : ∀ a, Lasting (f a)) :
    Lasting (x >>= f) :=
  fun m => (hx m).bind (hf _ _)

theorem Lasting.modifyGet {f : Machine → α × Machine} (h : ∀ m, m.Failed → (f m).2.Failed) :
    Lasting (modifyGet f : Exec α) :=
  fun m => .modifyGet (h m)

/-- A step that begins with a look at the state knows which one it is in. -/
theorem Lasting.bind_get {f : Machine → Exec α} (h : ∀ m, LastingAt (f m) m) :
    Lasting (get >>= f) :=
  fun m => LastingAt.bind ⟨id, nofun⟩ (h m)

theorem LastingAt.set {n : Machine} (h : m.Failed → n.Failed) :
    LastingAt (set n : Exec PUnit) m :=
  .modifyGet h

theorem failed_record {key : Option Site} {d : Diagnostic} {ds : Diagnostics Site}
    (h : ds.hasErrors = true) : (ds.record key d).hasErrors = true := by
  rw [Diagnostics.hasErrors_record, h, Bool.true_or]

theorem Lasting.report (f : Finding) (line : Nat) : Lasting (report f line) :=
  .modifyGet fun _ hm => failed_record hm

theorem Lasting.reportOnce (f : Finding) (line : Nat) : Lasting (reportOnce f line) :=
  .modifyGet fun _ hm => failed_record hm

theorem Lasting.declare (b : Binding) : Lasting (declare b) := by
  refine .bind_get fun m => ?_
  split
  · exact .set id
  · exact Lasting.report _ _ m

theorem Lasting.atSite (hx : Lasting x) (site : Site) : Lasting (atSite site x) := by
  refine .bind_get fun m => ?_
  refine Lasting.bind (.modifyGet fun _ hm => hm) (fun _ => hx.bind fun a => ?_) m
  exact Lasting.bind (.modifyGet fun _ hm => hm) fun _ => .pure a

theorem Lasting.forM {f : α → Exec PUnit} (h : ∀ a, Lasting (f a)) (as : List α) :
    Lasting (as.forM f) := by
  induction as with
  | nil => exact .pure _
  | cons a as ih => exact (h a).bind fun _ => ih

theorem Lasting.closeScope : Lasting closeScope := by
  refine .bind_get fun m => ?_
  split
  · exact Lasting.pure _ m
  · refine LastingAt.bind (.set id) ?_
    split
    · exact Lasting.pure _ _
    · exact Lasting.forM (fun _ => .reportOnce _ _) _ _

theorem Lasting.inScope (hx : Lasting x) (opened : ScopeStack → ScopeStack) :
    Lasting (inScope opened x) :=
  Lasting.bind (.modifyGet fun _ hm => hm) fun _ => hx.bind fun a =>
    Lasting.closeScope.bind fun _ => .pure a

theorem Lasting.inCall (hx : Lasting x) : Lasting (inCall x) := by
  refine Lasting.bind (.modifyGet fun _ hm => hm) fun _ => hx.bind fun a => ?_
  exact Lasting.bind (.modifyGet fun m hm => (Lasting.closeScope m).before hm) fun _ => .pure a

theorem lasting_primitive : Primitive (fun _ x _ => Lasting x) (fun _ x _ => Lasting x) where
  pure a := .pure a
  bind hx hf := hx.bind hf
  row hx hf := hx.bind hf
  loosen hx := hx
  report f line := .report f line
  lookup _ := .modifyGet fun _ hm => hm
  adjust _ _ := .modifyGet fun _ hm => hm
  serve _ _ := .modifyGet fun _ hm => hm
  ask _ := .modifyGet fun _ hm => hm
  declare b := .declare b
  atSite site hx := hx.atSite site
  rowAtSite site hx := hx.atSite site
  inScope _ hx := hx.inScope _

theorem lasting_congruence (limits : Limits) :
    Congruence limits limits (fun _ x _ => Lasting x) (fun _ x _ => Lasting x) :=
  lasting_primitive.congruence limits

theorem lasting_invoke (limits : Limits) (depth : Nat) :
    CallsAlike (fun _ x _ => Lasting x) (invoke limits depth) (invoke limits depth) :=
  Congruence.invoke limits (fun _ => lasting_primitive) (fun _ _ _ hx => hx.inCall) depth

theorem lasting_runBody (limits : Limits) (depth : Nat) (f : Function) (values : List Value) :
    Lasting (runBody limits (invoke limits depth) f values) :=
  (lasting_congruence limits).runBody (T := fun x _ => Lasting x) (lasting_invoke limits depth)
    (fun _ _ hx => hx.inCall) f values

theorem lasting_declareFunction (f : Function) : Lasting (declareFunction f) := by
  refine .bind_get fun m => ?_
  split
  · exact .set id
  · exact Lasting.report _ _ m

theorem lasting_runProgram (limits : Limits) (p : Program) : Lasting (runProgram limits p) := by
  have hsteps := lasting_congruence limits
  refine Lasting.bind (hsteps.declareAll _ 0 p.globals) fun _ => ?_
  refine Lasting.bind (.forM lasting_declareFunction p.functions) fun _ => ?_
  refine Lasting.bind (.modifyGet fun _ hm => hm) fun _ => ?_
  refine Lasting.bind (hsteps.declareAll _ 0 p.locals) fun _ => ?_
  refine Lasting.bind (hsteps.executeAll (lasting_invoke limits _) _ 0 p.body) fun _ => ?_
  unfold checkExit
  split
  · exact .pure _
  · exact .report _ _

/-! ### Steps in the course of others -/

/-- `Taken y n x m` says that in the course of the step `x` from the state `m` the step `y` is taken
from the state `n`. -/
inductive Taken {β : Type} (y : Exec β) (n : Machine) : {α : Type} → Exec α → Machine → Prop
  /-- The step itself. -/
  | self : Taken y n y n
  /-- In the course of the first of two steps. -/
  | first {α γ : Type} {x : Exec α} {f : α → Exec γ} {m : Machine} (h : Taken y n x m) :
      Taken y n (x >>= f) m
  /-- In the course of the step that the result of the first one asks for. -/
  | second {α γ : Type} {x : Exec α} {f : α → Exec γ} {m : Machine}
      (h : Taken y n (f (x.run m).1) (x.run m).2) : Taken y n (x >>= f) m

variable {y : Exec β} {n : Machine}

/-- A step passes through the states that the steps in its course pass through. -/
theorem Taken.passes (h : Taken y n x m) {k : Machine} (hk : y.passes n k) : x.passes m k := by
  induction h with
  | self => exact hk
  | first _ ih => exact .inl ih
  | second _ ih => exact .inr ih

/-- A step in the course of another one begins where that one begins or passes through. -/
theorem Taken.begins (h : Taken y n x m) : n = m ∨ x.passes m n := by
  induction h with
  | self => exact .inl rfl
  | @first _ _ x f m _ ih => exact ih.imp_right .inl
  | @second _ _ x f m _ ih =>
    rcases ih with rfl | hn
    · exact (x.passes_end m).imp_right .inl
    · exact .inr (.inr hn)

/-- In the course of a block each of its statements is executed, from some state. -/
theorem exists_taken_executeAll (limits : Limits) (call : Call) (site : Site) {i : Nat}
    {body : List Statement} {s : Statement} (hs : s ∈ body) (m : Machine) :
    ∃ j n, Taken (execute limits call (site.child j) s) n
      (executeAll limits call site i body) m := by
  induction body generalizing i m with
  | nil => cases hs
  | cons first rest ih =>
    rcases List.mem_cons.1 hs with rfl | hs
    · exact ⟨i, m, .first .self⟩
    · obtain ⟨j, n, hn⟩ := ih hs ((execute limits call (site.child i) first).run m).2
      exact ⟨j, n, .second hn⟩

end Exec

/-! ### Runs -/

/-- In the course of a run of a program on the given input a step is taken from a state. -/
def Program.Takes {α : Type} (limits : Limits) (p : Program) (input : Input) (y : Exec α)
    (n : Machine) : Prop :=
  Exec.Taken y n (Exec.runProgram limits p) (.initial input)

namespace Program

variable {α : Type} {limits : Limits} {p : Program} {input : Input} {m n : Machine} {y : Exec α}

/-- An error in any state of a run is there at its end. -/
theorem Reaches.failed_run (h : p.Reaches limits input m) (hm : m.Failed) :
    (p.run limits input).Failed := by
  have hlasting := Exec.lasting_runProgram limits p (.initial input)
  rcases h with rfl | hpass
  · exact hlasting.before hm
  · exact hlasting.amid m hpass hm

/-- A step in the course of a run begins in a state of the run. -/
theorem Takes.reaches (h : p.Takes limits input y n) : p.Reaches limits input n := h.begins

/-- A step in the course of a run ends in a state of the run. -/
theorem Takes.reaches_run (h : p.Takes limits input y n) :
    p.Reaches limits input (y.run n).2 := by
  rcases y.passes_end n with heq | hpass
  · rw [heq]
    exact h.reaches
  · exact .inr (h.passes hpass)

/-- In the course of a run each statement of the entry point is executed. -/
theorem exists_takes_body {s : Statement} (hs : s ∈ p.body) :
    ∃ j n, p.Takes limits input
      (Exec.execute limits (Exec.invoke limits limits.maxCallDepth)
        (((⟨.entry, []⟩ : Site).child 1).child j) s) n := by
  obtain ⟨j, n, hn⟩ := Exec.exists_taken_executeAll limits (Exec.invoke limits limits.maxCallDepth)
    ((⟨.entry, []⟩ : Site).child 1) hs _
  exact ⟨j, n, .second (.second (.second (.second (.first hn))))⟩

end Program

end Bistro
