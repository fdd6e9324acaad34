import Bistro.Grammar.Basic
import Mathlib.Logic.Function.Iterate
import Mathlib.Tactic.ByContra

/-!
# Rounds that lead to a fixed point

The sets of a grammar are computed in rounds, until one changes nothing.  The rounds end because
each of them adds something to what is known, and only so much can be known.  A round that adds
nothing need not be the last one, since it may still put down that there is nothing to know; but
the round after it is.

## Main results

* `Grammar.stabilize_eq_iterate`, `Grammar.stabilize_eq` — what rounds lead to.
* `Grammar.exists_settled` — **rounds that add to a bounded amount settle.**
-/

namespace Bistro.Grammar

variable {α : Type} {round : α → α}

/-- To stop at the first round that changes nothing makes no difference. -/
theorem stabilize_eq_iterate [DecidableEq α] (rounds : Nat) (a : α) :
    stabilize round rounds a = round^[rounds] a := by
  induction rounds generalizing a with
  | zero => rfl
  | succ rounds ih =>
    rw [stabilize]
    split
    · next hfix => rw [Function.iterate_fixed hfix]
    · exact ih (round a)

/-- If some rounds lead to what one more round does not change, at least as many rounds give it. -/
theorem stabilize_eq [DecidableEq α] {b : α} (hb : round b = b) {k rounds : Nat} (hk : k ≤ rounds)
    {a : α} (ha : round^[k] a = b) : stabilize round rounds a = b := by
  obtain ⟨more, rfl⟩ := Nat.exists_eq_add_of_le' hk
  rw [stabilize_eq_iterate, Function.iterate_add_apply, ha, Function.iterate_fixed hb]

/-- **Rounds that add to a bounded amount settle**, if a round that adds nothing is followed by one
that changes nothing. -/
theorem exists_settled {amount : α → Nat} {bound : Nat} {a : α}
    (hbound : ∀ k, amount (round^[k] a) ≤ bound)
    (hstep : ∀ k, amount (round^[k] a) < amount (round^[k + 1] a) ∨
      round (round^[k + 1] a) = round^[k + 1] a) :
    ∃ k ≤ bound + 1, round (round^[k] a) = round^[k] a := by
  by_contra! hmove
  -- then each of the first rounds adds something, and after them more is known than can be
  have hgrow : ∀ k ≤ bound + 1, k ≤ amount (round^[k] a) := by
    intro k
    induction k with
    | zero => exact fun _ => Nat.zero_le _
    | succ k ih =>
      intro hk
      have hk' := ih (by omega)
      have := (hstep k).resolve_right (hmove (k + 1) hk)
      omega
  have := hgrow (bound + 1) (Nat.le_refl _)
  have := hbound (bound + 1)
  omega

end Bistro.Grammar
