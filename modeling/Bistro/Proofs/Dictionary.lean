import Bistro.Dictionary

/-!
# Entries of a dictionary

What is found in a dictionary is one of its entries.  If no key stands twice, every entry is found.
A change of all values leaves the keys in their places.

## Main definitions

* `Dictionary.mapValues` — a change of all values.

## Main results

* `Dictionary.get?_eq_some_iff` — what is found.
* `Dictionary.mem_put` — what stands there after a write.
* `Dictionary.mapValues_set` — a write before a change of all values.
-/

namespace Bistro

namespace Dictionary

variable {κ α : Type} [DecidableEq κ]

theorem mem_of_find {k : κ} {v : α} {entries : List (κ × α)} (h : find k entries = some v) :
    (k, v) ∈ entries := by
  induction entries with
  | nil => simp [find] at h
  | cons e rest ih =>
    obtain ⟨k', w⟩ := e
    rw [find] at h
    split at h
    · next hk =>
      obtain rfl := Option.some.inj h
      exact hk ▸ List.mem_cons_self
    · exact List.mem_cons_of_mem _ (ih h)

theorem find_of_mem {k : κ} {v : α} {entries : List (κ × α)}
    (hn : (entries.map Prod.fst).Nodup) (h : (k, v) ∈ entries) : find k entries = some v := by
  induction entries with
  | nil => cases h
  | cons e rest ih =>
    obtain ⟨k', w⟩ := e
    rw [List.map_cons, List.nodup_cons] at hn
    rcases List.mem_cons.1 h with he | h
    · obtain ⟨rfl, rfl⟩ := Prod.mk.inj he
      simp [find]
    · have hk : k' ≠ k := by
        rintro rfl
        exact hn.1 (List.mem_map.2 ⟨_, h, rfl⟩)
      rw [find, if_neg hk, ih hn.2 h]

theorem get?_eq_some_iff {d : Dictionary κ α} (hn : d.keys.Nodup) {k : κ} {v : α} :
    d.get? k = some v ↔ (k, v) ∈ d.entries :=
  ⟨mem_of_find, find_of_mem hn⟩

/-- After a write an entry is the new one or one from before. -/
theorem mem_put {k : κ} {v : α} {entries : List (κ × α)} {e : κ × α}
    (h : e ∈ put k v entries) : e.2 = v ∨ e ∈ entries := by
  induction entries with
  | nil =>
    obtain rfl := List.mem_singleton.1 h
    exact .inl rfl
  | cons d rest ih =>
    obtain ⟨key, w⟩ := d
    rw [put] at h
    split at h
    · rcases List.mem_cons.1 h with rfl | h
      · exact .inl rfl
      · exact .inr (List.mem_cons_of_mem _ h)
    · rcases List.mem_cons.1 h with rfl | h
      · exact .inr List.mem_cons_self
      · exact (ih h).imp_right (List.mem_cons_of_mem _)

theorem getD_set (d : Dictionary κ α) (k k' : κ) (v default : α) :
    (d.set k v).getD k' default = if k = k' then v else d.getD k' default := by
  unfold getD
  rw [get?_set]
  split <;> rfl

theorem contains_set (d : Dictionary κ α) (k k' : κ) (v : α) :
    (d.set k v).contains k' = true ↔ k = k' ∨ d.contains k' = true := by
  unfold contains
  rw [get?_set]
  split <;> simp_all

/-! ### Changing all values -/

variable {β : Type} {g : α → β}

/-- The dictionary with all values changed. -/
def mapValues (g : α → β) (d : Dictionary κ α) : Dictionary κ β :=
  ⟨d.entries.map fun e => (e.1, g e.2)⟩

theorem get?_mapValues (d : Dictionary κ α) (k : κ) :
    (d.mapValues g).get? k = (d.get? k).map g := by
  obtain ⟨entries⟩ := d
  show find k (entries.map fun e => (e.1, g e.2)) = (find k entries).map g
  induction entries with
  | nil => rfl
  | cons e rest ih =>
    by_cases hk : e.1 = k
    · simp [find, hk]
    · simp [find, hk, ih]

theorem mapValues_set (d : Dictionary κ α) (k : κ) (v : α) :
    (d.set k v).mapValues g = (d.mapValues g).set k (g v) := by
  obtain ⟨entries⟩ := d
  show Dictionary.mk ((put k v entries).map fun e => (e.1, g e.2)) =
    ⟨put k (g v) (entries.map fun e => (e.1, g e.2))⟩
  congr 1
  induction entries with
  | nil => rfl
  | cons e rest ih =>
    by_cases hk : e.1 = k
    · simp [put, hk]
    · simp [put, hk, ih]

/-- A value that is written where it stands changes nothing. -/
theorem set_eq_self {d : Dictionary κ α} {k : κ} {v : α} (h : d.get? k = some v) :
    d.set k v = d := by
  obtain ⟨entries⟩ := d
  show Dictionary.mk (put k v entries) = ⟨entries⟩
  congr 1
  replace h : find k entries = some v := h
  induction entries with
  | nil => cases h
  | cons e rest ih =>
    by_cases hk : e.1 = k
    · obtain rfl : e.2 = v := by simpa [find, hk] using h
      simp [put, ← hk]
    · have hrest : find k rest = some v := by simpa [find, hk] using h
      simp [put, hk, ih hrest]

end Dictionary

end Bistro
