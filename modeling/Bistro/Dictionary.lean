/-!
# Dictionaries in order of insertion

A `Dictionary` maps keys to values and remembers the order in which its keys were first set.
Setting a key again replaces the value and keeps the key's place.  Grammars keep their rules
this way, and scopes their symbols: both are read back in the order of declaration.

## Main definitions

* `Dictionary` — the entries, each key at most once.
* `Dictionary.get?`, `Dictionary.set` — the reading and the writing of one key.

## Main results

* `Dictionary.get?_set` — what is read after a write.
* `Dictionary.keys_set` — a write keeps the order of the keys and appends a new one.
-/

namespace Bistro

/-- A finite map whose keys keep the order in which they were first set. -/
structure Dictionary (κ α : Type) where
  /-- The entries, oldest key first. -/
  entries : List (κ × α)
  deriving DecidableEq, Repr, Inhabited

namespace Dictionary

variable {κ α : Type} [DecidableEq κ]

/-- The dictionary without entries. -/
def empty : Dictionary κ α := ⟨[]⟩

/-- The value at `k` in a list of entries: that of the first entry with this key. -/
def find (k : κ) : List (κ × α) → Option α
  | [] => none
  | (k', v) :: rest => if k' = k then some v else find k rest

/-- The entries with the value at `k` replaced, or with a new entry at the end. -/
def put (k : κ) (v : α) : List (κ × α) → List (κ × α)
  | [] => [(k, v)]
  | (k', w) :: rest => if k' = k then (k', v) :: rest else (k', w) :: put k v rest

/-- The value at a key. -/
def get? (d : Dictionary κ α) (k : κ) : Option α := find k d.entries

/-- The value at a key, or `default` where there is none. -/
def getD (d : Dictionary κ α) (k : κ) (default : α) : α := (d.get? k).getD default

/-- Whether a key has a value. -/
def contains (d : Dictionary κ α) (k : κ) : Bool := (d.get? k).isSome

/-- Sets the value at a key. -/
def set (d : Dictionary κ α) (k : κ) (v : α) : Dictionary κ α := ⟨put k v d.entries⟩

/-- The keys, oldest first. -/
def keys (d : Dictionary κ α) : List κ := d.entries.map Prod.fst

/-- The values, in the order of their keys. -/
def values (d : Dictionary κ α) : List α := d.entries.map Prod.snd

/-- How many keys have a value. -/
def size (d : Dictionary κ α) : Nat := d.entries.length

/-! ### Reading after writing -/

@[simp] theorem get?_empty (k : κ) : (empty : Dictionary κ α).get? k = none := rfl

theorem find_put (k k' : κ) (v : α) (entries : List (κ × α)) :
    find k' (put k v entries) = if k = k' then some v else find k' entries := by
  induction entries with
  | nil => simp [put, find]
  | cons e rest ih =>
    obtain ⟨key, w⟩ := e
    by_cases hk : key = k
    · subst hk
      by_cases hkk : key = k' <;> simp [put, find, hkk]
    · by_cases hkk : key = k'
      · subst hkk
        simp [put, find, hk, Ne.symm hk]
      · simp [put, find, hk, hkk, ih]

/-- A written key has the written value, and every other key the value it had. -/
theorem get?_set (d : Dictionary κ α) (k k' : κ) (v : α) :
    (d.set k v).get? k' = if k = k' then some v else d.get? k' :=
  find_put k k' v d.entries

@[simp] theorem get?_set_self (d : Dictionary κ α) (k : κ) (v : α) :
    (d.set k v).get? k = some v := by simp [get?_set]

/-! ### Order of the keys -/

theorem map_fst_put (k : κ) (v : α) (entries : List (κ × α)) :
    (put k v entries).map Prod.fst =
      if k ∈ entries.map Prod.fst then entries.map Prod.fst else entries.map Prod.fst ++ [k] := by
  induction entries with
  | nil => simp [put]
  | cons e rest ih =>
    obtain ⟨key, w⟩ := e
    by_cases hk : key = k
    · simp [put, hk]
    · have hk' : k ≠ key := fun h => hk h.symm
      by_cases hm : k ∈ rest.map Prod.fst <;> simp_all [put]

/-- A write keeps the keys in order; a new key comes last. -/
theorem keys_set (d : Dictionary κ α) (k : κ) (v : α) :
    (d.set k v).keys = if k ∈ d.keys then d.keys else d.keys ++ [k] :=
  map_fst_put k v d.entries

end Dictionary

end Bistro
