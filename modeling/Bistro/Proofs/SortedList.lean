import Bistro.SortedList
import Mathlib.Data.List.Basic
import Mathlib.Data.List.Nodup

/-!
# Sorted lists stand for sets

If the order of the members is a linear one, then adding members keeps a list in increasing order,
and a list in increasing order is determined by its members.  So two sets that are kept in this way
are equal as lists as soon as they have the same members.

## Main definitions

* `SortedList.Increasing` — in increasing order, so without repetition.

## Main results

* `SortedList.Increasing.insert`, `SortedList.Increasing.union` — what keeps the order.
* `SortedList.Increasing.ext` — **lists in increasing order with the same members are equal.**
-/

namespace Bistro.SortedList

variable {α : Type} [DecidableEq α] [Ord α]

/-- In increasing order, so without repetition. -/
def Increasing (xs : List α) : Prop := xs.Pairwise fun a b => compare a b = .lt

omit [DecidableEq α] in
theorem increasing_nil : Increasing ([] : List α) := List.Pairwise.nil

omit [DecidableEq α] in
theorem increasing_singleton (a : α) : Increasing [a] := List.pairwise_singleton _ a

variable [Std.TransOrd α] [Std.LawfulEqOrd α] {xs ys : List α}

theorem Increasing.insert (h : Increasing xs) (a : α) : Increasing (SortedList.insert a xs) := by
  induction xs with
  | nil => exact increasing_singleton a
  | cons b rest ih =>
    obtain ⟨hb, hrest⟩ := List.pairwise_cons.1 h
    unfold SortedList.insert
    split
    · exact h
    · next hne =>
      split
      · next hlt =>
        refine List.pairwise_cons.2 ⟨fun c hc => ?_, h⟩
        rcases List.mem_cons.1 hc with rfl | hc
        · exact hlt
        · exact Std.TransCmp.lt_trans hlt (hb c hc)
      · next hnlt =>
        -- the new member is neither `b` nor before it, so it goes somewhere behind
        have hgt : compare b a = .lt := by
          cases hcmp : compare a b with
          | lt => exact absurd hcmp hnlt
          | eq => exact absurd (Std.LawfulEqCmp.eq_of_compare hcmp) hne
          | gt => exact Std.OrientedCmp.gt_iff_lt.1 hcmp
        refine List.pairwise_cons.2 ⟨fun c hc => ?_, ih hrest⟩
        rcases mem_insert.1 hc with rfl | hc
        · exact hgt
        · exact hb c hc

theorem Increasing.union (h : Increasing ys) (xs : List α) :
    Increasing (SortedList.union xs ys) := by
  induction xs generalizing ys with
  | nil => exact h
  | cons a rest ih => exact ih (h.insert a)

omit [DecidableEq α] [Std.LawfulEqOrd α] in
theorem Increasing.nodup (h : Increasing xs) : xs.Nodup := by
  refine List.Pairwise.imp (fun {a b} hlt => ?_) h
  rintro rfl
  simp at hlt

omit [DecidableEq α] [Std.LawfulEqOrd α] in
/-- Lists in increasing order with the same members are equal. -/
theorem Increasing.ext (hx : Increasing xs) (hy : Increasing ys) (h : ∀ a, a ∈ xs ↔ a ∈ ys) :
    xs = ys := by
  refine List.Perm.eq_of_pairwise (fun a b _ _ hlt hgt => ?_) hx hy
    ((List.perm_ext_iff_of_nodup hx.nodup hy.nodup).2 h)
  -- no two members are before each other
  rw [← Std.OrientedCmp.gt_iff_lt, hlt] at hgt
  cases hgt

end Bistro.SortedList
