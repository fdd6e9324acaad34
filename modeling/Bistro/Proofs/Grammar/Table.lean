import Bistro.Grammar.Table
import Bistro.Proofs.Dictionary

/-!
# What a parse table holds

A table is filled production by production, and filling fails as soon as a cell is filled twice.  So
a table that was filled completely holds exactly what the PREDICT sets put there: a lookahead
selects an alternative if and only if it is in the PREDICT set of this alternative.

## Main definitions

* `Grammar.Tables.predicts` — the PREDICT set of a production.

## Main results

* `Grammar.fillRow_ok` — what a row holds behind the cells of one production.
* `Grammar.Table.select?_ofPredictions` — what a table holds.
* `Grammar.Tables.select?_ofGrammar` — **a lookahead selects exactly the alternative that predicts
  it.**
-/

namespace Bistro

namespace Grammar

variable {N T : Type}

variable [DecidableEq T]

/-! ### Rows -/

section
variable [Ord T]

/-- A new cell is read back, and no other cell is touched. -/
theorem Row.get?_insert {row : Row T} {a : Lookahead T} (h : Row.get? row a = none) (i : Nat)
    (b : Lookahead T) :
    Row.get? (Row.insert a i row) b = if a = b then some i else Row.get? row b := by
  induction row with
  | nil => simp [Row.insert, Row.get?, Dictionary.find]
  | cons cell rest ih =>
    obtain ⟨c, j⟩ := cell
    -- the new cell goes before `c` or somewhere behind it, but `a` itself is not in the row
    have hc : c ≠ a := by
      rintro rfl
      simp [Row.get?, Dictionary.find] at h
    have hrest : Row.get? rest a = none := by
      simpa [Row.get?, Dictionary.find, hc] using h
    unfold Row.insert
    split
    · simp [Row.get?, Dictionary.find]
    · have := ih hrest
      simp only [Row.get?, Dictionary.find] at this ⊢
      rw [this]
      by_cases hb : c = b
      · subst hb
        simp [Ne.symm hc]
      · simp [hb]

/-- Behind the cells of one production, a row holds what it held and these cells. -/
theorem fillRow_ok {p : Prediction N T} {earlier : Nat → Production N T} {as : List (Lookahead T)}
    {row filled : Row T} (h : fillRow p earlier as row = .ok filled) (a : Lookahead T) (i : Nat) :
    Row.get? filled a = some i ↔ Row.get? row a = some i ∨ a ∈ as ∧ p.alternative = i := by
  induction as generalizing row with
  | nil =>
    obtain rfl := Except.ok.inj h
    simp
  | cons b as ih =>
    rw [fillRow] at h
    split at h
    · cases h
    · next hb =>
      -- the cell was empty, or there would have been a conflict
      rw [ih h, Row.get?_insert hb]
      by_cases hab : b = a
      · subst hab
        simp [hb]
      · simp [hab, Ne.symm hab]

end

/-! ### Productions and their places -/

omit [DecidableEq T] in
theorem mem_productions (g : Grammar N T) (n : N) (i : Nat) (α : Production N T) :
    (n, i, α) ∈ g.productions ↔ ∃ alternatives, (n, alternatives) ∈ g.rules.entries ∧
      alternatives[i]? = some α := by
  simp only [productions, List.mem_flatMap, List.mem_map, Prod.exists, Prod.mk.injEq,
    List.mem_zipIdx_iff_getElem?]
  constructor
  · rintro ⟨m, alternatives, hm, β, j, hj, rfl, rfl, rfl⟩
    exact ⟨alternatives, hm, hj⟩
  · rintro ⟨alternatives, hm, hi⟩
    exact ⟨n, alternatives, hm, α, i, hi, rfl, rfl, rfl⟩

variable [DecidableEq N]

omit [DecidableEq T] in
theorem mem_productions_iff {g : Grammar N T} (hg : g.rules.keys.Nodup) (n : N) (i : Nat)
    (α : Production N T) : (n, i, α) ∈ g.productions ↔ (g.alternatives n)[i]? = some α := by
  rw [mem_productions]
  simp only [← Dictionary.get?_eq_some_iff hg]
  unfold alternatives Dictionary.getD
  cases g.rules.get? n <;> simp

/-! ### Tables -/

theorem Table.select?_eq (table : Table N T) (n : N) (a : Lookahead T) :
    Table.select? table n a = Row.get? (Dictionary.getD table n []) a := by
  unfold Table.select? Table.row? Dictionary.getD
  cases Dictionary.get? table n <;> rfl

theorem Table.select?_set (table : Table N T) (m n : N) (row : Row T) (a : Lookahead T) :
    Table.select? (Dictionary.set table m row) n a =
      if m = n then Row.get? row a else Table.select? table n a := by
  rw [Table.select?_eq, Table.select?_eq, Dictionary.getD, Dictionary.get?_set]
  split <;> rfl

variable [Ord T]

/-- Filling a table with a row of predictions adds their cells to it. -/
theorem Table.select?_foldlM (earlier : Prediction N T → Nat → Production N T)
    {ps : List (Prediction N T)} {table filled : Table N T}
    (h : ps.foldlM (fun table p => do
        let row ← fillRow p (earlier p) p.lookaheads (Dictionary.getD table p.head [])
        return Dictionary.set table p.head row) table = .ok filled)
    (n : N) (a : Lookahead T) (i : Nat) :
    Table.select? filled n a = some i ↔ Table.select? table n a = some i ∨
      ∃ p ∈ ps, p.head = n ∧ a ∈ p.lookaheads ∧ p.alternative = i := by
  induction ps generalizing table with
  | nil =>
    obtain rfl := Except.ok.inj h
    simp
  | cons p ps ih =>
    rw [List.foldlM_cons] at h
    cases hrow : fillRow p (earlier p) p.lookaheads (Dictionary.getD table p.head []) with
    | error e => rw [hrow] at h; cases h
    | ok row =>
      rw [hrow] at h
      rw [ih h, Table.select?_set]
      -- the row of another nonterminal is not touched
      by_cases hn : p.head = n
      · subst hn
        rw [if_pos rfl, fillRow_ok hrow, ← Table.select?_eq]
        simp [or_assoc]
      · simp [hn]

/-- A table that was filled holds exactly what the PREDICT sets put there. -/
theorem Table.select?_ofPredictions {ps : List (Prediction N T)} {table : Table N T}
    (h : Table.ofPredictions ps = .ok table) (n : N) (a : Lookahead T) (i : Nat) :
    Table.select? table n a = some i ↔
      ∃ p ∈ ps, p.head = n ∧ a ∈ p.lookaheads ∧ p.alternative = i := by
  rw [Table.select?_foldlM (fun p => productionAt ps p.head) h]
  simp [Table.select?_eq, Dictionary.getD, Row.get?, Dictionary.find]

/-! ### Tables of a grammar -/

/-- The PREDICT set of a production. -/
def Tables.predicts (t : Tables N T) (n : N) (α : Production N T) : List (Lookahead T) :=
  (firstOf t.first α).lookaheads (t.follow.getD n [])

/-- What stands in the tables of a grammar. -/
theorem Tables.ofGrammar_ok {g : Grammar N T} {t : Tables N T} (h : Tables.ofGrammar g = .ok t) :
    t.grammar = g ∧ t.first = g.firstSets ∧ t.follow = g.followSets g.start g.firstSets ∧
      Table.ofPredictions (g.predictions t.first t.follow) = .ok t.table := by
  unfold Tables.ofGrammar at h
  dsimp only at h
  cases ht : Table.ofPredictions
      (g.predictions g.firstSets (g.followSets g.start g.firstSets)) with
  | error e => rw [ht] at h; cases h
  | ok table =>
    rw [ht] at h
    obtain rfl := Except.ok.inj h
    exact ⟨rfl, rfl, rfl, ht⟩

/-- A grammar has tables if those sets have a table that are computed for it. -/
theorem Tables.exists_ofGrammar {g : Grammar N T} {first : FirstSets N T} {follow : FollowSets N T}
    (hfirst : g.firstSets = first) (hfollow : g.followSets g.start first = follow)
    (h : (Table.ofPredictions (g.predictions first follow)).isOk = true) :
    ∃ t, Tables.ofGrammar g = .ok t := by
  unfold Tables.ofGrammar
  dsimp only
  rw [hfirst, hfollow]
  cases ht : Table.ofPredictions (g.predictions first follow) with
  | error e => rw [ht] at h; cases h
  | ok table => exact ⟨⟨g, first, follow, g.predictions first follow, table⟩, rfl⟩

/-- **A lookahead selects exactly the alternative that predicts it.** -/
theorem Tables.select?_ofGrammar {g : Grammar N T} {t : Tables N T}
    (h : Tables.ofGrammar g = .ok t) (hg : g.rules.keys.Nodup) (n : N) (a : Lookahead T) (i : Nat) :
    t.select? n a = some i ↔
      ∃ α, (g.alternatives n)[i]? = some α ∧ a ∈ t.predicts n α := by
  obtain ⟨-, -, -, ht⟩ := Tables.ofGrammar_ok h
  rw [Tables.select?, Table.select?_ofPredictions ht]
  simp only [Grammar.predictions, List.mem_map, Prod.exists]
  constructor
  · rintro ⟨-, ⟨m, j, α, hα, rfl⟩, rfl, ha, rfl⟩
    exact ⟨α, (mem_productions_iff hg _ _ _).1 hα, ha⟩
  · rintro ⟨α, hα, ha⟩
    exact ⟨_, ⟨n, i, α, (mem_productions_iff hg _ _ _).2 hα, rfl⟩, rfl, ha, rfl⟩

end Grammar

end Bistro
