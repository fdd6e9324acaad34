import Bistro.Proofs.Grammar.Follow

/-!
# When a grammar has a parse table

A table is filled production by production, and each production fills the cells of its PREDICT set
in increasing order.  Filling stops at the first cell that an earlier alternative of the same head
has filled.  So there is a table if and only if no two alternatives of a nonterminal share a
lookahead, and otherwise the conflict that is reported is the first one in the order of the grammar,
at the smallest lookahead that the later alternative shares with an earlier one.

Alternatives of a nonterminal may come from several rules.  They are still numbered in the order in
which they stand among all productions, because a nonterminal has one entry only.

## Main definitions

* `Grammar.Built` — a grammar that rules were added to.
* `Grammar.predictSet` — the PREDICT set of a production.
* `Grammar.Clashes` — an alternative shares a lookahead with an earlier one.
* `Grammar.FirstConflict` — the first conflict of a grammar.

## Main results

* `Grammar.inOrder_predictions` — alternatives are numbered in the order of their predictions.
* `Grammar.Table.ofPredictions_error` — where filling stops.
* `Grammar.table_decides` — **there is a table exactly if no two alternatives share a lookahead, and
  else the first conflict is reported.**
-/

namespace Bistro.Grammar

variable {N T : Type} [DecidableEq N] [DecidableEq T] [Ord T]

/-! ### Grammars that rules were added to -/

/-- A grammar to which rules were added, one after the other. -/
inductive Built : Grammar N T → Prop
  /-- There are no rules. -/
  | ofStart (start : N) : Built (Grammar.ofStart start)
  /-- Alternatives are added to a nonterminal. -/
  | rule {g : Grammar N T} (h : Built g) (head : N) (alternatives : List (Production N T)) :
      Built (g.rule head alternatives)

omit [DecidableEq T] [Ord T] in
/-- A nonterminal has one entry, however many rules were added for it. -/
theorem Built.nodup_heads {g : Grammar N T} (h : g.Built) : g.heads.Nodup := by
  induction h with
  | ofStart start => exact List.nodup_nil
  | @rule g _ head alternatives ih =>
    show (g.rules.set head _).keys.Nodup
    rw [Dictionary.keys_set]
    split
    · exact ih
    · next hnew =>
      refine List.nodup_append.2 ⟨ih, List.nodup_singleton _, ?_⟩
      rintro n hn _ hm rfl
      rw [List.mem_singleton] at hm
      exact hnew (hm ▸ hn)

/-! ### The order of predictions -/

/-- The PREDICT set of a production. -/
def predictSet (first : FirstSets N T) (follow : FollowSets N T) (n : N) (α : Production N T) :
    List (Lookahead T) :=
  (firstOf first α).lookaheads (follow.getD n [])

/-- The alternatives of each nonterminal are numbered in the order in which they stand there. -/
def InOrder (ps : List (Prediction N T)) : Prop :=
  ps.Pairwise fun p q => p.head = q.head → p.alternative < q.alternative

section
variable {g : Grammar N T} {first : FirstSets N T} {follow : FollowSets N T}

theorem mem_predictions (hg : g.heads.Nodup) {p : Prediction N T} :
    p ∈ g.predictions first follow ↔
      (g.alternatives p.head)[p.alternative]? = some p.production ∧
        p.lookaheads = predictSet first follow p.head p.production := by
  obtain ⟨n, i, α, as⟩ := p
  simp only [predictions, List.mem_map, Prod.exists, Prediction.mk.injEq]
  constructor
  · rintro ⟨m, j, β, hβ, rfl, rfl, rfl, rfl⟩
    exact ⟨(mem_productions_iff hg _ _ _).1 hβ, rfl⟩
  · rintro ⟨hα, rfl⟩
    exact ⟨n, i, α, (mem_productions_iff hg _ _ _).2 hα, rfl, rfl, rfl, rfl⟩

/-- **Alternatives are numbered in the order of their predictions.** -/
theorem inOrder_predictions (hg : g.heads.Nodup) : InOrder (g.predictions first follow) := by
  unfold InOrder predictions productions
  rw [List.pairwise_map, List.pairwise_flatMap]
  refine ⟨?_, ?_⟩
  · -- the alternatives in one entry
    rintro ⟨head, alternatives⟩ -
    rw [List.pairwise_map]
    have hlt : (List.range' 0 alternatives.length).Pairwise (· < ·) := List.pairwise_lt_range'
    rw [← List.zipIdx_map_snd, List.pairwise_map] at hlt
    refine hlt.imp ?_
    rintro ⟨α, i⟩ ⟨β, j⟩ hij -
    exact hij
  · -- two entries are those of different nonterminals
    have hne : (g.rules.entries.map Prod.fst).Pairwise (· ≠ ·) := hg
    rw [List.pairwise_map] at hne
    refine hne.imp fun {a b} hab x hx y hy heq => absurd heq ?_
    obtain ⟨_, -, rfl⟩ := List.mem_map.1 hx
    obtain ⟨_, -, rfl⟩ := List.mem_map.1 hy
    exact hab

end

section
variable {ps before behind : List (Prediction N T)} {p q : Prediction N T}

omit [DecidableEq N] [DecidableEq T] [Ord T] in
/-- What stands before a prediction of the same head is just what has a smaller number. -/
theorem InOrder.mem_before_iff (h : InOrder (before ++ p :: behind))
    (hq : q ∈ before ++ p :: behind) (hhead : q.head = p.head) :
    q ∈ before ↔ q.alternative < p.alternative := by
  obtain ⟨-, hrest, hacross⟩ := List.pairwise_append.1 h
  obtain ⟨hbehind, -⟩ := List.pairwise_cons.1 hrest
  constructor
  · exact fun hq => hacross q hq p List.mem_cons_self hhead
  · intro hlt
    rcases List.mem_append.1 hq with hq | hq
    · exact hq
    · rcases List.mem_cons.1 hq with rfl | hq
      · exact absurd hlt (Nat.lt_irrefl _)
      · have := hbehind q hq hhead.symm
        omega

omit [DecidableEq N] [DecidableEq T] [Ord T] in
/-- A prediction is determined by its head and its number. -/
theorem InOrder.eq_of_place (h : InOrder ps) (hp : p ∈ ps) (hq : q ∈ ps)
    (hhead : q.head = p.head) (hplace : q.alternative = p.alternative) : q = p := by
  by_contra hne
  obtain ⟨before, behind, rfl⟩ := List.append_of_mem hp
  have hnot : q ∉ before := fun hmem => by
    have := (h.mem_before_iff hq hhead).1 hmem
    omega
  have hbehind := (List.mem_append.1 hq).resolve_left hnot
  have hafter := (List.mem_cons.1 hbehind).resolve_left hne
  obtain ⟨-, hrest, -⟩ := List.pairwise_append.1 h
  have := (List.pairwise_cons.1 hrest).1 q hafter hhead.symm
  omega

omit [DecidableEq T] [Ord T] in
theorem InOrder.productionAt_eq (h : InOrder ps) (hp : p ∈ ps) :
    productionAt ps p.head p.alternative = p.production := by
  unfold productionAt
  cases hfind : ps.find? fun q => q.head = p.head && q.alternative = p.alternative with
  | none =>
    have := List.find?_eq_none.1 hfind p hp
    simp at this
  | some q =>
    have hq := List.find?_some hfind
    simp only [Bool.and_eq_true, decide_eq_true_eq] at hq
    rw [h.eq_of_place hp (List.mem_of_find?_eq_some hfind) hq.1 hq.2]
    rfl

end

/-! ### Filling rows -/

section
variable {p : Prediction N T} {earlier : Nat → Production N T} {as : List (Lookahead T)}
  {row filled : Row T}

omit [DecidableEq N] in
/-- All cells that are filled were empty. -/
theorem get?_eq_none_of_fillRow (h : fillRow p earlier as row = .ok filled) :
    ∀ a ∈ as, Row.get? row a = none := by
  induction as generalizing row with
  | nil => exact fun _ ha => absurd ha List.not_mem_nil
  | cons b as ih =>
    rw [fillRow] at h
    split at h
    · cases h
    · next hb =>
      intro a ha
      rcases List.mem_cons.1 ha with rfl | ha
      · exact hb
      · have := ih h a ha
        rw [Row.get?_insert hb] at this
        split at this
        · cases this
        · exact this

omit [DecidableEq N] in
/-- Filling a row stops at the first cell that is not empty. -/
theorem fillRow_error {c : Conflict N T} (has : as.Nodup)
    (h : fillRow p earlier as row = .error c) :
    ∃ before behind i, as = before ++ c.lookahead :: behind ∧
      (∀ b ∈ before, Row.get? row b = none) ∧ Row.get? row c.lookahead = some i ∧
      c = ⟨p.head, c.lookahead, earlier i, p.production⟩ := by
  induction as generalizing row with
  | nil => cases h
  | cons a as ih =>
    obtain ⟨ha, has⟩ := List.nodup_cons.1 has
    rw [fillRow] at h
    split at h
    · next i hi =>
      obtain rfl := Except.error.inj h
      exact ⟨[], as, i, rfl, fun b hb => absurd hb List.not_mem_nil, hi, rfl⟩
    · next hnone =>
      obtain ⟨before, behind, i, rfl, hbefore, hi, hc⟩ := ih has h
      -- the cell that was just filled is none of the others
      have hold : ∀ b ∈ before ++ c.lookahead :: behind,
          Row.get? (Row.insert a p.alternative row) b = Row.get? row b := by
        intro b hb
        rw [Row.get?_insert hnone, if_neg]
        rintro rfl
        exact ha hb
      refine ⟨a :: before, behind, i, rfl, fun b hb => ?_, ?_, hc⟩
      · rcases List.mem_cons.1 hb with rfl | hb
        · exact hnone
        · rw [← hold b (by simp [hb])]
          exact hbefore b hb
      · rw [← hold c.lookahead (by simp)]
        exact hi

end

/-! ### Filling tables -/

/-- Fills the cells of one production. -/
def Table.fill (earlier : Prediction N T → Nat → Production N T) (table : Table N T)
    (p : Prediction N T) : Except (Conflict N T) (Table N T) := do
  let row ← fillRow p (earlier p) p.lookaheads (Dictionary.getD table p.head [])
  return Dictionary.set table p.head row

section
variable {ps before behind : List (Prediction N T)} {p q : Prediction N T}
  {earlier : Prediction N T → Nat → Production N T} {table filled : Table N T}

theorem Table.ofPredictions_eq (ps : List (Prediction N T)) :
    Table.ofPredictions ps =
      ps.foldlM (Table.fill fun p => productionAt ps p.head) Dictionary.empty := rfl

/-- What stands in a table that was filled with some predictions. -/
theorem Table.get?_foldlM_fill (h : ps.foldlM (Table.fill earlier) Dictionary.empty = .ok table)
    (n : N) (a : Lookahead T) (i : Nat) :
    Row.get? (Dictionary.getD table n []) a = some i ↔
      ∃ p ∈ ps, p.head = n ∧ a ∈ p.lookaheads ∧ p.alternative = i := by
  rw [← Table.select?_eq, Table.select?_foldlM earlier h]
  simp [Table.select?_eq, Dictionary.getD, Row.get?, Dictionary.find]

/-- A cell is empty if none of the predictions so far was for it. -/
theorem Table.get?_eq_none (h : ps.foldlM (Table.fill earlier) Dictionary.empty = .ok table) (n : N)
    (a : Lookahead T) :
    Row.get? (Dictionary.getD table n []) a = none ↔
      ∀ p ∈ ps, p.head = n → a ∉ p.lookaheads := by
  rw [Option.eq_none_iff_forall_ne_some]
  simp only [ne_eq, Table.get?_foldlM_fill h]
  grind

/-- A table that was filled had no clash: what a prediction is for, no earlier one of its head
is. -/
theorem Table.disjoint_of_ok
    (h : (before ++ p :: behind).foldlM (Table.fill earlier) Dictionary.empty = .ok filled) :
    ∀ q ∈ before, q.head = p.head → ∀ a ∈ p.lookaheads, a ∉ q.lookaheads := by
  rw [List.foldlM_append] at h
  cases hbefore : before.foldlM (Table.fill earlier) Dictionary.empty with
  | error c => rw [hbefore] at h; cases h
  | ok table =>
    rw [hbefore] at h
    replace h : (p :: behind).foldlM (Table.fill earlier) table = .ok filled := h
    rw [List.foldlM_cons, Table.fill] at h
    cases hrow : fillRow p (earlier p) p.lookaheads (Dictionary.getD table p.head []) with
    | error c => rw [hrow] at h; cases h
    | ok row =>
      intro q hq hhead a ha
      have hnone := get?_eq_none_of_fillRow hrow a ha
      exact (Table.get?_eq_none hbefore p.head a).1 hnone q hq hhead

omit [DecidableEq N] [DecidableEq T] [Ord T] in
/-- A fold that fails does so at one of the members, and it succeeds before that. -/
theorem foldlM_error {α β ε : Type} {f : β → α → Except ε β} {l : List α} {b : β} {e : ε}
    (h : l.foldlM f b = .error e) :
    ∃ before x behind b', l = before ++ x :: behind ∧ before.foldlM f b = .ok b' ∧
      f b' x = .error e := by
  induction l generalizing b with
  | nil => cases h
  | cons x l ih =>
    rw [List.foldlM_cons] at h
    cases hx : f b x with
    | error e' =>
      rw [hx] at h
      obtain rfl : e' = e := Except.error.inj h
      exact ⟨[], x, l, b, rfl, rfl, hx⟩
    | ok b₁ =>
      rw [hx] at h
      obtain ⟨before, y, behind, b', rfl, hbefore, hy⟩ := ih h
      refine ⟨x :: before, y, behind, b', rfl, ?_, hy⟩
      rw [List.foldlM_cons, hx]
      exact hbefore

/-- **Filling stops at the first prediction that shares a lookahead with an earlier one of its head,
and at the first such lookahead.** -/
theorem Table.ofPredictions_error {c : Conflict N T} (hps : ∀ p ∈ ps, p.lookaheads.Nodup)
    (h : Table.ofPredictions ps = .error c) :
    ∃ before p behind as bs, ps = before ++ p :: behind ∧
      p.lookaheads = as ++ c.lookahead :: bs ∧
      (∀ front q back, before = front ++ q :: back →
        ∀ r ∈ front, r.head = q.head → ∀ a ∈ q.lookaheads, a ∉ r.lookaheads) ∧
      (∀ q ∈ before, q.head = p.head → ∀ a ∈ as, a ∉ q.lookaheads) ∧
      ∃ q ∈ before, q.head = p.head ∧ c.lookahead ∈ q.lookaheads ∧
        c = ⟨p.head, c.lookahead, productionAt ps p.head q.alternative, p.production⟩ := by
  rw [Table.ofPredictions_eq] at h
  obtain ⟨before, p, behind, table, hps', hbefore, hp⟩ := foldlM_error h
  have hmem : p ∈ ps := by simp [hps']
  rw [Table.fill] at hp
  cases hrow : fillRow p (productionAt ps p.head) p.lookaheads
    (Dictionary.getD table p.head []) with
  | ok row => rw [hrow] at hp; cases hp
  | error c' =>
    rw [hrow] at hp
    obtain rfl : c' = c := Except.error.inj hp
    obtain ⟨as, bs, i, has, hempty, hi, hc⟩ := fillRow_error (hps p hmem) hrow
    obtain ⟨q, hq, hhead, ha, rfl⟩ := (Table.get?_foldlM_fill hbefore _ _ _).1 hi
    refine ⟨before, p, behind, as, bs, hps', has, ?_, ?_, q, hq, hhead, ha, hc⟩
    · rintro front r back rfl
      exact Table.disjoint_of_ok hbefore
    · intro r hr hhead' a ha'
      exact (Table.get?_eq_none hbefore p.head a).1 (hempty a ha') r hr hhead'

end

/-! ### Sorted PREDICT sets -/

section
variable [Std.TransOrd T] [Std.LawfulEqOrd T] {first : FirstSets N T} {follow : FollowSets N T}

theorem FirstSets.Ordered.firstOf (h : FirstSets.Ordered first) (α : Production N T) :
    SortedList.Increasing (firstOf first α).terminals := by
  induction α with
  | nil => exact SortedList.increasing_nil
  | cons x α ih =>
    cases x with
    | terminal t => exact SortedList.increasing_singleton t
    | nonterminal n =>
      have hn := h n
      rw [Grammar.firstOf]
      unfold Dictionary.getD at hn
      cases hget : first.get? n with
      | none => exact SortedList.increasing_nil
      | some f =>
        rw [hget] at hn
        dsimp only
        split
        · exact ih.union _
        · exact hn

/-- The FIRST sets of a grammar are in increasing order. -/
theorem ordered_firstSets (g : Grammar N T) : FirstSets.Ordered g.firstSets := by
  refine (grows_firstSets g).keeps (fun n => ?_) fun _ _ h => h.ordered
  rw [getD_firstSeeds]
  exact SortedList.increasing_nil

/-- If the FIRST sets are in increasing order, so are the PREDICT sets. -/
theorem increasing_predictSet (h : FirstSets.Ordered first) (n : N) (α : Production N T) :
    SortedList.Increasing (predictSet first follow n α) := by
  have hterminals : SortedList.Increasing ((firstOf first α).terminals.map Lookahead.token) := by
    unfold SortedList.Increasing
    rw [List.pairwise_map]
    simp only [Lookahead.compare_token]
    exact h.firstOf α
  exact hterminals.union _

end

/-! ### The first conflict -/

/-- The alternative of `n` at place `j` shares the lookahead `a` with an earlier one. -/
def Clashes (g : Grammar N T) (first : FirstSets N T) (follow : FollowSets N T) (n : N) (j : Nat)
    (a : Lookahead T) : Prop :=
  ∃ i α β, i < j ∧ (g.alternatives n)[i]? = some α ∧ (g.alternatives n)[j]? = some β ∧
    a ∈ predictSet first follow n α ∧ a ∈ predictSet first follow n β

/-- A conflict is the first one of a grammar: the alternatives at the places `i` and `j` share its
lookahead, no smaller one is shared at `j`, and nothing is shared at an earlier production. -/
structure FirstConflict (g : Grammar N T) (first : FirstSets N T) (follow : FollowSets N T)
    (c : Conflict N T) (i j : Nat) : Prop where
  /-- The alternative that is named first is the earlier one. -/
  lt : i < j
  /-- The earlier alternative. -/
  earlier : (g.alternatives c.head)[i]? = some c.first
  /-- The later alternative. -/
  later : (g.alternatives c.head)[j]? = some c.second
  /-- The earlier alternative predicts the lookahead. -/
  mem_earlier : c.lookahead ∈ predictSet first follow c.head c.first
  /-- So does the later one. -/
  mem_later : c.lookahead ∈ predictSet first follow c.head c.second
  /-- There is no smaller lookahead at which the later alternative clashes with an earlier one. -/
  smallest : ∀ a, g.Clashes first follow c.head j a → a = c.lookahead ∨ compare c.lookahead a = .lt
  /-- No production before the later alternative clashes with an earlier alternative. -/
  earliest : ∃ before behind, g.productions = before ++ (c.head, j, c.second) :: behind ∧
    ∀ p ∈ before, ∀ a, ¬ g.Clashes first follow p.1 p.2.1 a

section
variable {g : Grammar N T} {first : FirstSets N T} {follow : FollowSets N T}
  {before behind : List (Prediction N T)} {p : Prediction N T}

theorem productions_eq (g : Grammar N T) (first : FirstSets N T) (follow : FollowSets N T) :
    g.productions =
      (g.predictions first follow).map fun p => (p.head, p.alternative, p.production) := by
  unfold predictions
  rw [List.map_map]
  exact (List.map_id _).symm

/-- A prediction clashes if and only if an earlier one of the same head shares its lookahead. -/
theorem clashes_iff (hg : g.heads.Nodup)
    (hps : g.predictions first follow = before ++ p :: behind) (a : Lookahead T) :
    g.Clashes first follow p.head p.alternative a ↔
      a ∈ p.lookaheads ∧ ∃ q ∈ before, q.head = p.head ∧ a ∈ q.lookaheads := by
  have horder : InOrder (before ++ p :: behind) := hps ▸ inOrder_predictions hg
  have hmem : ∀ q, q ∈ before ++ p :: behind ↔ _ := fun q => hps ▸ mem_predictions hg (p := q)
  obtain ⟨hplace, hset⟩ := (hmem p).1 (by simp)
  constructor
  · rintro ⟨i, α, β, hlt, hα, hβ, ha, hb⟩
    obtain rfl : p.production = β := Option.some.inj (hplace.symm.trans hβ)
    -- the earlier alternative has a prediction, and by its number this stands before
    have hq : ⟨p.head, i, α, predictSet first follow p.head α⟩ ∈ before ++ p :: behind :=
      (hmem _).2 ⟨hα, rfl⟩
    exact ⟨hset ▸ hb, _, (horder.mem_before_iff hq rfl).2 hlt, rfl, ha⟩
  · rintro ⟨ha, q, hq, hhead, hb⟩
    have hq' : q ∈ before ++ p :: behind := List.mem_append_left _ hq
    obtain ⟨hplace', hset'⟩ := (hmem q).1 hq'
    rw [hset', hhead] at hb
    rw [hhead] at hplace'
    exact ⟨q.alternative, q.production, p.production, (horder.mem_before_iff hq' hhead).1 hq,
      hplace', hplace, hb, hset ▸ ha⟩

/-- What is reported is the first conflict. -/
theorem firstConflict_of_error [Std.TransOrd T] [Std.LawfulEqOrd T] (hg : g.heads.Nodup)
    (hfirst : FirstSets.Ordered first) {c : Conflict N T}
    (h : Table.ofPredictions (g.predictions first follow) = .error c) :
    ∃ i j, g.FirstConflict first follow c i j := by
  have hincreasing : ∀ p ∈ g.predictions first follow, SortedList.Increasing p.lookaheads := by
    intro p hp
    rw [((mem_predictions hg).1 hp).2]
    exact increasing_predictSet hfirst _ _
  obtain ⟨before, p, behind, as, bs, hps, has, hearlier, hsmaller, q, hq, hhead, ha, hc⟩ :=
    Table.ofPredictions_error (fun p hp => (hincreasing p hp).nodup) h
  have horder : InOrder (g.predictions first follow) := inOrder_predictions hg
  have hpmem : p ∈ g.predictions first follow := by simp [hps]
  have hqmem : q ∈ g.predictions first follow := by simp [hps, hq]
  obtain ⟨hp, hpset⟩ := (mem_predictions hg).1 hpmem
  obtain ⟨hq', hqset⟩ := (mem_predictions hg).1 hqmem
  rw [← hhead, horder.productionAt_eq hqmem, hhead] at hc
  obtain ⟨chead, clookahead, cfirst, csecond⟩ := c
  obtain ⟨rfl, -, rfl, rfl⟩ := Conflict.mk.inj hc
  dsimp only at has ha
  rw [hhead] at hq' hqset
  refine ⟨q.alternative, p.alternative, ?_, hq', hp, hqset ▸ ha, ?_, fun a hclash => ?_, ?_⟩
  · exact ((hps ▸ horder : InOrder _).mem_before_iff (by simp [hq]) hhead).1 hq
  · show clookahead ∈ predictSet first follow p.head p.production
    rw [← hpset, has]
    simp
  · -- a smaller lookahead would have been come to before
    obtain ⟨hmem, r, hr, hrhead, har⟩ := (clashes_iff hg hps a).1 hclash
    have hsorted := hincreasing p hpmem
    rw [has] at hmem hsorted
    rcases List.mem_append.1 hmem with hmem | hmem
    · exact absurd har (hsmaller r hr hrhead a hmem)
    · rcases List.mem_cons.1 hmem with rfl | hmem
      · exact .inl rfl
      · obtain ⟨-, htail, -⟩ := List.pairwise_append.1 hsorted
        exact .inr ((List.pairwise_cons.1 htail).1 a hmem)
  · -- the productions stand in the order of the predictions
    refine ⟨_, _, by rw [productions_eq g first follow, hps, List.map_append, List.map_cons], ?_⟩
    intro x hx a hclash
    obtain ⟨r, hr, rfl⟩ := List.mem_map.1 hx
    obtain ⟨front, back, rfl⟩ := List.append_of_mem hr
    rw [List.append_assoc, List.cons_append] at hps
    obtain ⟨hmem, r', hr', hhead', har'⟩ := (clashes_iff hg hps a).1 hclash
    exact hearlier front r back rfl r' hr' hhead' a hmem har'

/-- A table that was built selects an alternative exactly at the lookaheads that it predicts. -/
theorem select?_of_ok (hg : g.heads.Nodup) {table : Table N T}
    (h : Table.ofPredictions (g.predictions first follow) = .ok table) (n : N) (a : Lookahead T)
    (i : Nat) : Table.select? table n a = some i ↔
      ∃ α, (g.alternatives n)[i]? = some α ∧ a ∈ predictSet first follow n α := by
  rw [Table.select?_ofPredictions h]
  simp only [mem_predictions hg]
  constructor
  · rintro ⟨p, ⟨hp, hset⟩, rfl, ha, rfl⟩
    exact ⟨p.production, hp, hset ▸ ha⟩
  · rintro ⟨α, hα, ha⟩
    exact ⟨⟨n, i, α, _⟩, ⟨hα, rfl⟩, rfl, ha, rfl⟩

end

/-- **There is a table exactly if no two alternatives of a nonterminal share a lookahead, and else
the first conflict is reported.**  A table selects an alternative exactly at the lookaheads in its
PREDICT set.  The rules may have been added in any order, and the FIRST and FOLLOW sets may be any
sets that are kept in increasing order. -/
theorem table_decides [Std.TransOrd T] [Std.LawfulEqOrd T] {g : Grammar N T} (hg : g.Built)
    {first : FirstSets N T} (hfirst : FirstSets.Ordered first) (follow : FollowSets N T) :
    ((∃ c, Table.ofPredictions (g.predictions first follow) = .error c) ↔
      ∃ (n : N) (i j : Nat) (α β : Production N T) (a : Lookahead T), i ≠ j ∧
        (g.alternatives n)[i]? = some α ∧ (g.alternatives n)[j]? = some β ∧
        a ∈ predictSet first follow n α ∧ a ∈ predictSet first follow n β) ∧
    (∀ table, Table.ofPredictions (g.predictions first follow) = .ok table → ∀ n a i,
      Table.select? table n a = some i ↔
        ∃ α, (g.alternatives n)[i]? = some α ∧ a ∈ predictSet first follow n α) ∧
    ∀ c, Table.ofPredictions (g.predictions first follow) = .error c →
      ∃ i j, g.FirstConflict first follow c i j := by
  refine ⟨⟨?_, ?_⟩, fun table h => select?_of_ok hg.nodup_heads h,
    fun c h => firstConflict_of_error hg.nodup_heads hfirst h⟩
  · rintro ⟨c, h⟩
    obtain ⟨i, j, hc⟩ := firstConflict_of_error hg.nodup_heads hfirst h
    exact ⟨c.head, i, j, c.first, c.second, c.lookahead, Nat.ne_of_lt hc.lt, hc.earlier, hc.later,
      hc.mem_earlier, hc.mem_later⟩
  · rintro ⟨n, i, j, α, β, a, hne, hα, hβ, ha, hb⟩
    cases h : Table.ofPredictions (g.predictions first follow) with
    | error c => exact ⟨c, rfl⟩
    | ok table =>
      -- a table would select both alternatives
      have hi := (select?_of_ok hg.nodup_heads h n a i).2 ⟨α, hα, ha⟩
      have hj := (select?_of_ok hg.nodup_heads h n a j).2 ⟨β, hβ, hb⟩
      exact absurd (Option.some.inj (hi.symm.trans hj)) hne

/-- A grammar whose start symbol gets its alternatives from two rules: `S → a A`, `A → λ | a` and
`S → A a`. -/
def clashing : Grammar Nat Nat :=
  (((ofStart 0).rule 0 [[.terminal 0, .nonterminal 1]]).rule 1 [[], [.terminal 0]]).rule 0
    [[.nonterminal 1, .terminal 0]]

/-- There the two alternatives of `S` share `a`, so that there is no table, and the first conflict
is reported. -/
theorem table_decides_clashing : clashing.Built ∧ FirstSets.Ordered clashing.firstSets ∧
    ∃ c i j, Table.ofPredictions (clashing.predictions clashing.firstSets
        (clashing.followSets 0 clashing.firstSets)) = .error c ∧
      clashing.FirstConflict clashing.firstSets
        (clashing.followSets 0 clashing.firstSets) c i j := by
  have hg : clashing.Built := .rule (.rule (.rule (.ofStart 0) _ _) _ _) _ _
  have hfirst := ordered_firstSets clashing
  obtain ⟨hfails, -, hconflict⟩ :=
    table_decides hg hfirst (clashing.followSets 0 clashing.firstSets)
  obtain ⟨c, hc⟩ := hfails.2 ⟨0, 0, 1, [.terminal 0, .nonterminal 1], [.nonterminal 1, .terminal 0],
    .token 0, by decide, by decide, by decide, by decide, by decide⟩
  obtain ⟨i, j, hij⟩ := hconflict c hc
  exact ⟨hg, hfirst, c, i, j, hc, hij⟩

end Bistro.Grammar
