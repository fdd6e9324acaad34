import Bistro.Proofs.Grammar.Rounds
import Bistro.Proofs.Grammar.Visits
import Mathlib.Data.Finset.Prod

/-!
# FIRST sets are exact

Whatever a round adds to an entry is something that one of the alternatives has, so it is derived in
one step more: all that is known can be derived.  A round that changes nothing has added what the
alternatives had, so the sets are closed under the rules, and no step of a derivation can lead out
of them: all that can be derived is known.  There is such a round, because only so many terminals
can be added.

## Main definitions

* `Grammar.FirstSets.Sound` — what is known can be derived.
* `Grammar.FirstSets.Closed` — the entries hold what the alternatives have.
* `Grammar.FirstSets.amount` — how much is known.

## Main results

* `Grammar.firstOf_exact` — sound and closed sets are exact for sequences.
* `Grammar.exists_firstRound_eq` — the rounds reach sets that they leave as they are.
* `Grammar.firstSets_exact` — **the FIRST sets hold what derivations begin with, and nothing else.**
-/

namespace Bistro.Grammar

variable {N T : Type} [DecidableEq N] [DecidableEq T] [Ord T]

variable {g : Grammar N T} {sets sets' : FirstSets N T}

/-! ### What is known can be derived -/

/-- What is known of a sequence can be derived from it. -/
structure First.Sound (g : Grammar N T) (α : Production N T) (first : First T) : Prop where
  /-- Something that begins with each of the terminals is derived. -/
  terminals : ∀ t ∈ first.terminals, ∃ β, g.Derives α (.terminal t :: β)
  /-- A nullable sequence derives the empty one. -/
  nullable : first.nullable = true → g.Derives α []

/-- What is known of nonterminals can be derived from them. -/
def FirstSets.Sound (g : Grammar N T) (sets : FirstSets N T) : Prop :=
  ∀ n, (sets.getD n First.none).Sound g [.nonterminal n]

theorem FirstSets.Sound.firstOf (h : FirstSets.Sound g sets) (α : Production N T) :
    (firstOf sets α).Sound g α := by
  induction α with
  | nil => exact ⟨fun t ht => absurd ht List.not_mem_nil, fun _ => .refl⟩
  | cons x α ih =>
    cases x with
    | terminal t =>
      refine ⟨fun u hu => ?_, fun hnull => absurd hnull Bool.false_ne_true⟩
      obtain rfl := List.mem_singleton.1 hu
      exact ⟨α, .refl⟩
    | nonterminal n =>
      constructor
      · intro t ht
        rcases (mem_firstOf_nonterminal sets n α t).1 ht with ht | ⟨hn, ht⟩
        · obtain ⟨β, hβ⟩ := (h n).terminals t ht
          exact ⟨β ++ α, hβ.append_right α⟩
        · obtain ⟨β, hβ⟩ := ih.terminals t ht
          exact ⟨β, (((h n).nullable hn).append_right α).trans hβ⟩
      · intro hnull
        rw [nullable_firstOf_nonterminal, Bool.and_eq_true] at hnull
        exact (((h n).nullable hnull.1).append_right α).trans (ih.nullable hnull.2)

omit [DecidableEq T] [Ord T] in
theorem derives_of_mem_alternatives {n : N} {α β : Production N T} (hα : α ∈ g.alternatives n)
    (h : g.Derives α β) : g.Derives [.nonterminal n] β :=
  .head ⟨[], n, α, [], hα, rfl, by simp⟩ h

theorem Enters.sound (h : g.Enters sets sets') (hsets : FirstSets.Sound g sets) :
    FirstSets.Sound g sets' := by
  obtain @⟨n, found, -, hfound, -⟩ := h
  intro m
  rw [Dictionary.getD_set]
  split
  · next hm =>
    subst hm
    constructor
    · intro t ht
      rcases First.mem_union.1 ht with ht | ht
      · exact (hsets n).terminals t ht
      · obtain ⟨α, hα, ht⟩ := mem_firstAmong.1 (hfound.terminals t ht)
        obtain ⟨β, hβ⟩ := (hsets.firstOf α).terminals t ht
        exact ⟨β, derives_of_mem_alternatives hα hβ⟩
    · intro hnull
      rw [First.nullable_union, Bool.or_eq_true] at hnull
      rcases hnull with hnull | hnull
      · exact (hsets n).nullable hnull
      · obtain ⟨α, hα, hnull⟩ := nullable_firstAmong.1 (hfound.nullable hnull)
        exact derives_of_mem_alternatives hα ((hsets.firstOf α).nullable hnull)
  · exact hsets m

/-! ### What can be derived is known -/

/-- The entries hold what the alternatives have. -/
def FirstSets.Closed (g : Grammar N T) (sets : FirstSets N T) : Prop :=
  ∀ n, (firstAmong sets (g.alternatives n)).Within (sets.getD n First.none)

/-- A replacement adds nothing to what is known of a sequence. -/
theorem FirstSets.Closed.rewrites (h : FirstSets.Closed g sets) {u v : Production N T}
    (hr : g.Rewrites u v) : (firstOf sets v).Within (firstOf sets u) := by
  obtain ⟨before, n, α, behind, hα, rfl, rfl⟩ := hr
  constructor
  · intro t ht
    rw [List.append_assoc, mem_firstOf_append, mem_firstOf_append] at ht
    rw [mem_firstOf_append, mem_firstOf_nonterminal]
    refine ht.imp_right (And.imp_right (Or.imp ?_ (And.imp_left ?_)))
    · exact fun ht => (h n).terminals t (mem_firstAmong.2 ⟨α, hα, ht⟩)
    · exact fun hnull => (h n).nullable (nullable_firstAmong.2 ⟨α, hα, hnull⟩)
  · intro hnull
    simp only [nullable_firstOf_append, nullable_firstOf_nonterminal, Bool.and_eq_true] at hnull ⊢
    obtain ⟨⟨hbefore, hmid⟩, hbehind⟩ := hnull
    exact ⟨hbefore, (h n).nullable (nullable_firstAmong.2 ⟨α, hα, hmid⟩), hbehind⟩

theorem FirstSets.Closed.derives (h : FirstSets.Closed g sets) {u v : Production N T}
    (hd : g.Derives u v) : (firstOf sets v).Within (firstOf sets u) := by
  induction hd with
  | refl => exact .refl _
  | tail _ hr ih => exact (h.rewrites hr).trans ih

/-- Sound and closed FIRST sets hold exactly what derivations begin with. -/
theorem firstOf_exact (hsound : FirstSets.Sound g sets) (hclosed : FirstSets.Closed g sets)
    (α : Production N T) :
    (∀ t, t ∈ (firstOf sets α).terminals ↔ ∃ β, g.Derives α (.terminal t :: β)) ∧
      ((firstOf sets α).nullable = true ↔ g.Derives α []) := by
  refine ⟨fun t => ⟨(hsound.firstOf α).terminals t, ?_⟩, (hsound.firstOf α).nullable, ?_⟩
  · rintro ⟨β, hβ⟩
    exact (hclosed.derives hβ).terminals t (List.mem_singleton.2 rfl)
  · intro hnil
    exact (hclosed.derives hnil).nullable rfl

/-- A nonterminal is a sequence of one symbol. -/
theorem firstOf_singleton (sets : FirstSets N T) (n : N) :
    (∀ t, t ∈ (firstOf sets [.nonterminal n]).terminals ↔
      t ∈ (sets.getD n First.none).terminals) ∧
      (firstOf sets [.nonterminal n]).nullable = (sets.getD n First.none).nullable := by
  simp

/-! ### The rounds end -/

/-- Everything that is known is about nonterminals with rules and terminals of the grammar. -/
def FirstSets.Bounded (g : Grammar N T) (sets : FirstSets N T) : Prop :=
  ∀ n, (∀ t ∈ (sets.getD n First.none).terminals, n ∈ g.heads ∧ t ∈ g.terminals) ∧
    ((sets.getD n First.none).nullable = true → n ∈ g.heads)

omit [DecidableEq T] [Ord T] in
theorem mem_terminals {n : N} {α : Production N T} {t : T} (hα : α ∈ g.alternatives n)
    (ht : .terminal t ∈ α) : t ∈ g.terminals := by
  obtain ⟨alternatives, hn, hα⟩ := mem_entries_of_mem_alternatives hα
  obtain ⟨i, hi⟩ := List.mem_iff_getElem?.1 hα
  refine List.mem_flatMap.2 ⟨(n, i, α), ?_, List.mem_filterMap.2 ⟨_, ht, rfl⟩⟩
  refine List.mem_flatMap.2 ⟨_, hn, List.mem_map.2 ⟨(α, i), ?_, rfl⟩⟩
  exact List.mem_zipIdx_iff_getElem?.2 hi

theorem FirstSets.Bounded.firstOf (h : FirstSets.Bounded g sets) {α : Production N T} {t : T}
    (ht : t ∈ (firstOf sets α).terminals) : .terminal t ∈ α ∨ t ∈ g.terminals := by
  induction α with
  | nil => cases ht
  | cons x α ih =>
    cases x with
    | terminal u =>
      obtain rfl := List.mem_singleton.1 ht
      exact .inl List.mem_cons_self
    | nonterminal n =>
      rcases (mem_firstOf_nonterminal sets n α t).1 ht with ht | ⟨-, ht⟩
      · exact .inr ((h n).1 t ht).2
      · exact (ih ht).imp_left (List.mem_cons_of_mem _)

theorem Enters.bounded (h : g.Enters sets sets') (hsets : FirstSets.Bounded g sets) :
    FirstSets.Bounded g sets' := by
  obtain @⟨n, found, -, hfound, -⟩ := h
  intro m
  rw [Dictionary.getD_set]
  split
  · next hm =>
    subst hm
    constructor
    · intro t ht
      rcases First.mem_union.1 ht with ht | ht
      · exact (hsets n).1 t ht
      · obtain ⟨α, hα, ht⟩ := mem_firstAmong.1 (hfound.terminals t ht)
        exact ⟨mem_heads_of_mem_alternatives hα, (hsets.firstOf ht).elim (mem_terminals hα) id⟩
    · intro hnull
      rw [First.nullable_union, Bool.or_eq_true] at hnull
      rcases hnull with hnull | hnull
      · exact (hsets n).2 hnull
      · obtain ⟨α, hα, -⟩ := nullable_firstAmong.1 (hfound.nullable hnull)
        exact mem_heads_of_mem_alternatives hα
  · exact hsets m

/-- Whether something is known: that a nonterminal begins with a terminal, or that it can
vanish. -/
def FirstSets.Holds (sets : FirstSets N T) : N × Option T → Prop
  | (n, some t) => t ∈ (sets.getD n First.none).terminals
  | (n, none) => (sets.getD n First.none).nullable = true

instance (sets : FirstSets N T) : DecidablePred (FirstSets.Holds sets) := fun fact =>
  match fact with
  | (n, some t) => inferInstanceAs (Decidable (t ∈ (sets.getD n First.none).terminals))
  | (n, none) => inferInstanceAs (Decidable ((sets.getD n First.none).nullable = true))

/-- All that can be known. -/
def facts (g : Grammar N T) : Finset (N × Option T) :=
  g.heads.toFinset ×ˢ insert none (g.terminals.toFinset.image some)

/-- How much is known. -/
def FirstSets.amount (g : Grammar N T) (sets : FirstSets N T) : Nat :=
  (g.facts.filter (FirstSets.Holds sets)).card

omit [Ord T] in
theorem card_facts_le (g : Grammar N T) :
    g.facts.card ≤ g.heads.length * (g.terminals.length + 1) := by
  unfold facts
  rw [Finset.card_product]
  refine Nat.mul_le_mul (List.toFinset_card_le _) ((Finset.card_insert_le _ _).trans ?_)
  exact Nat.succ_le_succ (Finset.card_image_le.trans (List.toFinset_card_le _))

omit [Ord T] in
theorem amount_le (g : Grammar N T) (sets : FirstSets N T) :
    FirstSets.amount g sets ≤ g.heads.length * (g.terminals.length + 1) :=
  (Finset.card_filter_le _ _).trans (card_facts_le g)

omit [Ord T] in
/-- If no more is known than before, then nothing new. -/
theorem within_of_amount_le (h : FirstSets.Within sets sets') (hsets' : FirstSets.Bounded g sets')
    (hle : FirstSets.amount g sets' ≤ FirstSets.amount g sets) : FirstSets.Within sets' sets := by
  have hsub : g.facts.filter (FirstSets.Holds sets) ⊆ g.facts.filter (FirstSets.Holds sets') := by
    refine Finset.monotone_filter_right _ fun fact _ hfact => ?_
    obtain ⟨n, _ | t⟩ := fact
    · exact (h n).nullable hfact
    · exact (h n).terminals t hfact
  have heq := Finset.eq_of_subset_of_card_le hsub hle
  intro n
  constructor
  · intro t ht
    obtain ⟨hn, ht'⟩ := (hsets' n).1 t ht
    have hmem : (n, some t) ∈ g.facts.filter (FirstSets.Holds sets') :=
      Finset.mem_filter.2 ⟨by simp [facts, hn, ht'], ht⟩
    rw [← heq] at hmem
    exact (Finset.mem_filter.1 hmem).2
  · intro hnull
    have hmem : (n, none) ∈ g.facts.filter (FirstSets.Holds sets') :=
      Finset.mem_filter.2 ⟨by simp [facts, (hsets' n).2 hnull], hnull⟩
    rw [← heq] at hmem
    exact (Finset.mem_filter.1 hmem).2

/-! ### Exactness -/

/-- Nothing is known yet. -/
def firstSeeds (g : Grammar N T) : FirstSets N T := ⟨g.heads.map (·, First.none)⟩

omit [DecidableEq T] [Ord T] in
theorem getD_firstSeeds (g : Grammar N T) (n : N) :
    g.firstSeeds.getD n First.none = First.none := by
  unfold Dictionary.getD
  cases hn : g.firstSeeds.get? n with
  | none => rfl
  | some first =>
    obtain ⟨m, -, heq⟩ := List.mem_map.1 (Dictionary.mem_of_find hn)
    exact (Prod.mk.inj heq).2.symm

variable [Std.TransOrd T] [Std.LawfulEqOrd T]

theorem grows_iterate (g : Grammar N T) (k : Nat) :
    g.Grows g.firstSeeds (g.firstRound^[k] g.firstSeeds) := by
  induction k with
  | zero => exact .refl
  | succ k ih =>
    rw [Function.iterate_succ_apply']
    exact ih.trans (firstRound_grows g _)

/-- The rounds reach FIRST sets that a further round leaves as they are. -/
theorem exists_firstRound_eq (g : Grammar N T) :
    ∃ k ≤ g.firstRounds, g.firstRound^[k] g.firstSeeds = g.firstSets ∧
      g.firstRound g.firstSets = g.firstSets := by
  have hord : ∀ k, FirstSets.Ordered (g.firstRound^[k] g.firstSeeds) := fun k =>
    (grows_iterate g k).keeps (fun n => by rw [getD_firstSeeds]; exact SortedList.increasing_nil)
      fun _ _ h => h.ordered
  have hbounded : ∀ k, FirstSets.Bounded g (g.firstRound^[k] g.firstSeeds) := fun k =>
    (grows_iterate g k).keeps (fun n => by rw [getD_firstSeeds]; simp [First.none])
      fun _ _ h => h.bounded
  have hstep : ∀ k, FirstSets.amount g (g.firstRound^[k] g.firstSeeds) <
      FirstSets.amount g (g.firstRound^[k + 1] g.firstSeeds) ∨
        g.firstRound (g.firstRound^[k + 1] g.firstSeeds) = g.firstRound^[k + 1] g.firstSeeds := by
    intro k
    have hnext := hord (k + 1)
    have hnext' := hbounded (k + 1)
    rw [Function.iterate_succ_apply'] at hnext hnext' ⊢
    refine or_iff_not_imp_left.2 fun hle => firstRound_idle hnext ?_
    exact within_of_amount_le (firstRound_grows g _).within hnext' (Nat.le_of_not_lt hle)
  obtain ⟨k, hk, hfix⟩ := exists_settled (fun k => amount_le g _) hstep
  have hk' : k ≤ g.firstRounds := by
    unfold firstRounds
    omega
  have heq : g.firstSets = g.firstRound^[k] g.firstSeeds := stabilize_eq hfix hk' rfl
  exact ⟨k, hk', heq.symm, heq ▸ hfix⟩

/-- **The FIRST sets hold what derivations begin with, and nothing else.**  They come out of so many
rounds that a further one changes nothing, and visits never nest too deep; then a terminal is in an
entry if and only if the nonterminal derives something that begins with it, an entry is nullable if
and only if the nonterminal derives the empty sequence, and the same holds of every sequence. -/
theorem firstSets_exact (g : Grammar N T) :
    (∀ depth, g.heads.length < depth → ∀ n s,
      Grammar.visit g depth n s = Grammar.visit g (g.heads.length + 1) n s) ∧
    (∃ k ≤ g.firstRounds, g.firstRound^[k] g.firstSeeds = g.firstSets ∧
      g.firstRound g.firstSets = g.firstSets) ∧
    (∀ n : N, (∀ t, t ∈ (g.firstSets.getD n First.none).terminals ↔
        ∃ β, g.Derives [.nonterminal n] (.terminal t :: β)) ∧
      ((g.firstSets.getD n First.none).nullable = true ↔ g.Derives [.nonterminal n] [])) ∧
    ∀ α : Production N T, (∀ t, t ∈ (firstOf g.firstSets α).terminals ↔
        ∃ β, g.Derives α (.terminal t :: β)) ∧
      ((firstOf g.firstSets α).nullable = true ↔ g.Derives α []) := by
  obtain ⟨k, hk, hrounds, hfix⟩ := exists_firstRound_eq g
  have hsound : FirstSets.Sound g g.firstSets := by
    rw [← hrounds]
    refine (grows_iterate g k).keeps (fun n => ?_) fun _ _ h => h.sound
    rw [getD_firstSeeds]
    exact ⟨fun t ht => absurd ht List.not_mem_nil, fun h => absurd h Bool.false_ne_true⟩
  have hclosed : FirstSets.Closed g g.firstSets := by
    intro n
    have hcovers := firstRound_covers g g.firstSets n
    rwa [hfix] at hcovers
  refine ⟨fun depth hdepth n s => ?_, ⟨k, hk, hrounds, hfix⟩, fun n => ?_,
    firstOf_exact hsound hclosed⟩
  · have hunmet := unmet_le_length (g := g) s
    exact visit_eq (by omega) (by omega) n
  · obtain ⟨hterm, hnull⟩ := firstOf_exact hsound hclosed [.nonterminal n]
    obtain ⟨hmem, hnull'⟩ := firstOf_singleton g.firstSets n
    refine ⟨fun t => ?_, ?_⟩
    · rw [← hmem, hterm]
    · rw [← hnull', hnull]

/-- A grammar with a left recursion, a cycle and a nonterminal without rules: `A → A a | B` and
`B → A | λ | C b`. -/
def knotted : Grammar Nat Nat :=
  ((ofStart 0).rule 0 [[.nonterminal 0, .terminal 0], [.nonterminal 1]]).rule 1
    [[.nonterminal 0], [], [.nonterminal 2, .terminal 1]]

/-- There `B` derives something that begins with `a` and `A` vanishes; but nothing that `A B` derives
begins with `b`, since `C` stands before it and derives nothing. -/
theorem firstSets_exact_knotted :
    (∃ β, knotted.Derives [.nonterminal 1] (.terminal 0 :: β)) ∧
      knotted.Derives [.nonterminal 0] [] ∧
      ¬∃ β, knotted.Derives [.nonterminal 0, .nonterminal 1] (.terminal 1 :: β) := by
  obtain ⟨-, -, hsets, hof⟩ := firstSets_exact knotted
  refine ⟨((hsets 1).1 0).1 (by decide), (hsets 0).2.1 (by decide), fun h => ?_⟩
  exact absurd (((hof [.nonterminal 0, .nonterminal 1]).1 1).2 h) (by decide)

end Bistro.Grammar
