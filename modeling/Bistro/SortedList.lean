/-!
# Sets as sorted lists

The sets that a grammar's analysis computes are small and are shown in order, so they are kept
as lists in increasing order without repetition.

## Main definitions

* `SortedList.insert`, `SortedList.union`, `SortedList.ofList`.

## Main results

* `SortedList.mem_insert`, `SortedList.mem_union`, `SortedList.mem_ofList` — membership.
-/

namespace Bistro.SortedList

variable {α : Type} [DecidableEq α] [Ord α]

/-- Adds a member in its place. -/
def insert (a : α) : List α → List α
  | [] => [a]
  | b :: rest =>
    if a = b then b :: rest
    else if compare a b = .lt then a :: b :: rest
    else b :: insert a rest

/-- Adds the members of the first list to the second. -/
def union (xs ys : List α) : List α := xs.foldl (fun acc x => insert x acc) ys

/-- The members of a list, in order and each once. -/
def ofList (xs : List α) : List α := union xs []

@[simp] theorem mem_insert {a x : α} {xs : List α} : x ∈ insert a xs ↔ x = a ∨ x ∈ xs := by
  induction xs with
  | nil => simp [insert]
  | cons b rest ih =>
    unfold insert
    split
    · next h => subst h; simp
    · split
      · simp
      · simp only [List.mem_cons, ih, or_left_comm]

@[simp] theorem mem_union {x : α} {xs ys : List α} : x ∈ union xs ys ↔ x ∈ xs ∨ x ∈ ys := by
  induction xs generalizing ys with
  | nil => simp [union]
  | cons a rest ih =>
    have : union (a :: rest) ys = union rest (insert a ys) := rfl
    rw [this, ih, mem_insert, List.mem_cons, or_left_comm, or_assoc]

@[simp] theorem mem_ofList {x : α} {xs : List α} : x ∈ ofList xs ↔ x ∈ xs := by simp [ofList]

end Bistro.SortedList
