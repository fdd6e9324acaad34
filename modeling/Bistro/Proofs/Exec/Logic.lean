import Bistro.Exec.Machine

/-!
# A logic of steps

What is shown of a run is mostly of one form: if a step is taken from a state of some kind, then all
states it passes through are of a certain kind, and its result and its last state fit together.
Such statements are composed along a step in the way the step itself is.

## Main definitions

* `Exec.Triple` — what a step passes through and where it ends.
* `Exec.Keeps` — a step that does not leave the states of one kind.

## Main results

* `Exec.Triple.bind` — steps one after the other.
* `Exec.Keeps.repeatWhile`, `Exec.Keeps.repeatUntil` — loops.
-/

namespace Bistro.Exec

variable {α β : Type} {inv pre : Machine → Prop} {post : α → Machine → Prop}

/-! ### Results of steps -/

theorem run_bind (x : Exec α) (f : α → Exec β) (m : Machine) :
    (x >>= f).run m = (f (x.run m).1).run (x.run m).2 := rfl

theorem run_lookup (name : String) (m : Machine) :
    (lookup name).run m =
      ((m.scopes.lookup name).1, { m with scopes := (m.scopes.lookup name).2 }) := rfl

/-! ### Triples -/

/-- From every state with `pre`, a step passes through states with `inv` only, and its result and
its last state satisfy `post`. -/
def Triple (inv pre : Machine → Prop) (x : Exec α) (post : α → Machine → Prop) : Prop :=
  ∀ m, pre m → (∀ n, x.passes m n → inv n) ∧ post (x.run m).1 (x.run m).2

/-! ### Rules -/

theorem Triple.pure {a : α} (h : ∀ m, pre m → post a m) :
    Triple inv pre (pure a : Exec α) post :=
  fun m hm => ⟨fun _ hn => False.elim hn, h m hm⟩

theorem Triple.bind {x : Exec α} {f : α → Exec β} {mid : α → Machine → Prop}
    {post : β → Machine → Prop} (hx : Triple inv pre x mid)
    (hf : ∀ a, Triple inv (mid a) (f a) post) : Triple inv pre (x >>= f) post := by
  intro m hm
  obtain ⟨hpasses, hmid⟩ := hx m hm
  obtain ⟨hpasses', hpost⟩ := hf _ _ hmid
  refine ⟨?_, hpost⟩
  rintro n (hn | hn)
  · exact hpasses n hn
  · exact hpasses' n hn

theorem Triple.modifyGet {f : Machine → α × Machine}
    (h : ∀ m, pre m → inv (f m).2 ∧ post (f m).1 (f m).2) :
    Triple inv pre (modifyGet f : Exec α) post := by
  intro m hm
  refine ⟨?_, (h m hm).2⟩
  rintro n rfl
  exact (h m hm).1

theorem Triple.modify {f : Machine → Machine} {post : PUnit → Machine → Prop}
    (h : ∀ m, pre m → inv (f m) ∧ post () (f m)) :
    Triple inv pre (modify f : Exec PUnit) post :=
  Triple.modifyGet h

/-- A step that begins with a look at the state knows which one it is in. -/
theorem Triple.bind_get {f : Machine → Exec α} (h : ∀ m, pre m → Triple inv (· = m) (f m) post) :
    Triple inv pre (get >>= f) post := by
  intro m hm
  obtain ⟨hpasses, hpost⟩ := h m hm m rfl
  refine ⟨?_, hpost⟩
  rintro n (hn | hn)
  · exact False.elim hn
  · exact hpasses n hn

theorem Triple.set {n : Machine} {post : PUnit → Machine → Prop}
    (h : ∀ m, pre m → inv n ∧ post () n) : Triple inv pre (set n : Exec PUnit) post :=
  Triple.modifyGet h

/-- A stronger condition before a step, and a weaker one behind it. -/
theorem Triple.mono {x : Exec α} {pre' : Machine → Prop} {post' : α → Machine → Prop}
    (h : Triple inv pre x post) (hpre : ∀ m, pre' m → pre m)
    (hpost : ∀ a m, post a m → post' a m) : Triple inv pre' x post' :=
  fun m hm => ⟨(h m (hpre m hm)).1, hpost _ _ (h m (hpre m hm)).2⟩

/-- What is known of every result of a step may be added. -/
theorem Triple.and_result {x : Exec α} {fact : α → Prop} (h : Triple inv pre x post)
    (hx : ∀ m, fact (x.run m).1) : Triple inv pre x fun a m => fact a ∧ post a m :=
  fun m hm => ⟨(h m hm).1, hx m, (h m hm).2⟩

/-! ### Steps that stay among the states of one kind -/

/-- A step does not leave the states of one kind. -/
def Keeps (inv : Machine → Prop) (x : Exec α) : Prop := Triple inv inv x fun _ => inv

/-- It suffices to look at the states on the way, as the last one is among them. -/
theorem Keeps.of_passes {x : Exec α} (h : ∀ m n, inv m → x.passes m n → inv n) : Keeps inv x := by
  intro m hm
  refine ⟨fun n => h m n hm, ?_⟩
  rcases x.passes_end m with heq | hpass
  · rw [heq]
    exact hm
  · exact h m _ hm hpass

theorem Keeps.pure (a : α) : Keeps inv (pure a : Exec α) := Triple.pure fun _ hm => hm

theorem Keeps.bind {x : Exec α} {f : α → Exec β} (hx : Keeps inv x) (hf : ∀ a, Keeps inv (f a)) :
    Keeps inv (x >>= f) :=
  Triple.bind hx hf

theorem Keeps.modify {f : Machine → Machine} (h : ∀ m, inv m → inv (f m)) :
    Keeps inv (modify f : Exec PUnit) :=
  Triple.modify fun m hm => ⟨h m hm, h m hm⟩

theorem Keeps.forM {f : α → Exec PUnit} (h : ∀ a, Keeps inv (f a)) (as : List α) :
    Keeps inv (as.forM f) := by
  induction as with
  | nil => exact Keeps.pure _
  | cons a as ih => exact (h a).bind fun _ => ih

theorem Keeps.repeatWhile {test pass : Exec Bool} {stopped : Exec Unit} (htest : Keeps inv test)
    (hpass : Keeps inv pass) (hstopped : Keeps inv stopped) (passes : Nat) :
    Keeps inv (repeatWhile test pass stopped passes) := by
  induction passes with
  | zero =>
    refine htest.bind fun b => ?_
    split
    · exact hstopped
    · exact Keeps.pure _
  | succ passes ih =>
    refine htest.bind fun b => ?_
    split
    · refine hpass.bind fun goesOn => ?_
      split
      · exact ih
      · exact Keeps.pure _
    · exact Keeps.pure _

theorem Keeps.repeatUntil {pass : Exec Unit} {test : Exec Bool} {stopped : Exec Unit}
    (hpass : Keeps inv pass) (htest : Keeps inv test) (hstopped : Keeps inv stopped)
    (passes : Nat) : Keeps inv (repeatUntil pass test stopped passes) := by
  induction passes with
  | zero => exact hstopped
  | succ passes ih =>
    refine hpass.bind fun _ => htest.bind fun b => ?_
    split
    · exact ih
    · exact Keeps.pure _

end Bistro.Exec
