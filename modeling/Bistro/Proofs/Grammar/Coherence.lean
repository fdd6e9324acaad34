import Bistro.Proofs.Grammar.Derivation
import Bistro.Proofs.Grammar.Table

/-!
# Coherent tables

What a parser needs of FIRST and FOLLOW sets is not how they were computed but that they fit
together: every production agrees with the sets of its head and of the nonterminals in it, and what
a FIRST set holds comes from one of the alternatives.  Tables whose sets fit together are called
coherent.  Each of the conditions looks at one production or at one entry at a time, so that they
can be checked for given sets without running the computation again.

For coherent tables a row of terminals that a nonterminal yields begins with a lookahead that
selects the alternative it comes from.

## Main definitions

* `Grammar.First.Within` — one FIRST set is part of another.
* `Grammar.Tables.Coherent` — the sets and the table fit together.
* `Grammar.coherentSets` — the decidable part of this.

## Main results

* `Grammar.Tables.Coherent.of_check` — checked sets make coherent tables.
* `Grammar.Tables.Coherent.look_mem_predicts` — **what an alternative yields is predicted for it.**
-/

namespace Bistro.Grammar

variable {N T : Type} [DecidableEq N] [DecidableEq T] [Ord T]

/-! ### FIRST sets of sequences -/

/-- One FIRST set is part of another. -/
structure First.Within (a b : First T) : Prop where
  /-- Every terminal of the first is in the second. -/
  terminals : ∀ x ∈ a.terminals, x ∈ b.terminals
  /-- The second is nullable if the first is. -/
  nullable : a.nullable = true → b.nullable = true

@[simp] theorem firstOf_nil (sets : FirstSets N T) : firstOf sets [] = ⟨[], true⟩ := rfl

@[simp] theorem firstOf_terminal (sets : FirstSets N T) (x : T) (α : Production N T) :
    firstOf sets (.terminal x :: α) = ⟨[x], false⟩ := rfl

@[simp] theorem mem_firstOf_nonterminal (sets : FirstSets N T) (n : N) (α : Production N T)
    (x : T) :
    x ∈ (firstOf sets (.nonterminal n :: α)).terminals ↔
      x ∈ (sets.getD n First.none).terminals ∨
        (sets.getD n First.none).nullable = true ∧ x ∈ (firstOf sets α).terminals := by
  rw [firstOf, Dictionary.getD]
  cases sets.get? n with
  | none => simp [First.none]
  | some f => cases hf : f.nullable <;> simp [hf]

@[simp] theorem nullable_firstOf_nonterminal (sets : FirstSets N T) (n : N) (α : Production N T) :
    (firstOf sets (.nonterminal n :: α)).nullable =
      ((sets.getD n First.none).nullable && (firstOf sets α).nullable) := by
  rw [firstOf, Dictionary.getD]
  cases sets.get? n with
  | none => rfl
  | some f => cases hf : f.nullable <;> simp [hf]

theorem First.mem_lookaheads {first : First T} {behind : List (Lookahead T)} {a : Lookahead T} :
    a ∈ first.lookaheads behind ↔
      first.nullable = true ∧ a ∈ behind ∨ ∃ x ∈ first.terminals, a = .token x := by
  unfold First.lookaheads
  cases first.nullable <;> simp [eq_comm]

/-! ### Coherence -/

/-- The sets and the table fit together. -/
structure Tables.Coherent (t : Tables N T) : Prop where
  /-- A lookahead selects exactly the alternative that predicts it. -/
  select_iff : ∀ n a i, t.select? n a = some i ↔
    ∃ α, (t.grammar.alternatives n)[i]? = some α ∧ a ∈ t.predicts n α
  /-- What an alternative can begin with, its head can. -/
  first_closed : ∀ n, ∀ α ∈ t.grammar.alternatives n,
    (firstOf t.first α).Within (t.first.getD n First.none)
  /-- What a nonterminal can begin with comes from one of its alternatives. -/
  first_supported : ∀ n, ∀ x ∈ (t.first.getD n First.none).terminals,
    ∃ α ∈ t.grammar.alternatives n, x ∈ (firstOf t.first α).terminals
  /-- A nonterminal that can vanish has an alternative that can. -/
  nullable_supported : ∀ n, (t.first.getD n First.none).nullable = true →
    ∃ α ∈ t.grammar.alternatives n, (firstOf t.first α).nullable = true
  /-- The end of the input can stand behind the start symbol. -/
  follow_start : .atEnd ∈ t.follow.getD t.grammar.start []
  /-- What can stand behind an occurrence of a nonterminal is in its FOLLOW set. -/
  follow_closed : ∀ n, ∀ α ∈ t.grammar.alternatives n, ∀ β m γ, α = β ++ .nonterminal m :: γ →
    ∀ a ∈ (firstOf t.first γ).lookaheads (t.follow.getD n []), a ∈ t.follow.getD m []

/-! ### Checking the sets -/

/-- Whether the FOLLOW sets hold what can stand behind the nonterminals of a production of `n`. -/
def followsHold (first : FirstSets N T) (follow : FollowSets N T) (n : N) : Production N T → Bool
  | [] => true
  | .terminal _ :: rest => followsHold first follow n rest
  | .nonterminal m :: rest =>
    ((firstOf first rest).lookaheads (follow.getD n [])).all (· ∈ follow.getD m []) &&
      followsHold first follow n rest

theorem followsHold_append {first : FirstSets N T} {follow : FollowSets N T} {n : N}
    {β γ : Production N T} {m : N}
    (h : followsHold first follow n (β ++ .nonterminal m :: γ) = true) :
    ∀ a ∈ (firstOf first γ).lookaheads (follow.getD n []), a ∈ follow.getD m [] := by
  induction β with
  | nil =>
    simp only [List.nil_append, followsHold, Bool.and_eq_true, List.all_eq_true,
      decide_eq_true_eq] at h
    exact h.1
  | cons x β ih =>
    cases x with
    | terminal x => exact ih h
    | nonterminal k =>
      simp only [List.cons_append, followsHold, Bool.and_eq_true] at h
      exact ih h.2

/-- Whether FIRST and FOLLOW sets fit a grammar and each other. -/
def coherentSets (g : Grammar N T) (first : FirstSets N T) (follow : FollowSets N T) : Bool :=
  (g.rules.entries.all fun (n, alternatives) => alternatives.all fun α =>
    (firstOf first α).terminals.all (· ∈ (first.getD n First.none).terminals) &&
      (!(firstOf first α).nullable || (first.getD n First.none).nullable) &&
      followsHold first follow n α) &&
  (first.entries.all fun (n, f) =>
    (f.terminals.all fun x =>
      (g.alternatives n).any fun α => x ∈ (firstOf first α).terminals) &&
      (!f.nullable || (g.alternatives n).any fun α => (firstOf first α).nullable)) &&
  decide (.atEnd ∈ follow.getD g.start [])

omit [DecidableEq T] [Ord T] in
theorem mem_entries_of_mem_alternatives {g : Grammar N T} {n : N} {α : Production N T}
    (h : α ∈ g.alternatives n) : ∃ alternatives, (n, alternatives) ∈ g.rules.entries ∧
      α ∈ alternatives := by
  unfold alternatives Dictionary.getD at h
  cases hn : g.rules.get? n with
  | none => rw [hn] at h; cases h
  | some alternatives =>
    rw [hn] at h
    exact ⟨alternatives, Dictionary.mem_of_find hn, h⟩

/-- **Checked sets make coherent tables.** -/
theorem Tables.Coherent.of_check {g : Grammar N T} {t : Tables N T} (h : Tables.ofGrammar g = .ok t)
    (hg : g.rules.keys.Nodup) (hc : coherentSets g t.first t.follow = true) : t.Coherent := by
  obtain ⟨hgr, -, -, -⟩ := Tables.ofGrammar_ok h
  simp only [coherentSets, Bool.and_eq_true, List.all_eq_true, List.any_eq_true, Bool.or_eq_true,
    Bool.not_eq_true', decide_eq_true_eq] at hc
  obtain ⟨⟨hrules, hfirst⟩, hstart⟩ := hc
  -- an entry of the FIRST sets, if there is one, is among those that were looked at
  have hentry : ∀ n, t.first.getD n First.none = First.none ∨
      (n, t.first.getD n First.none) ∈ t.first.entries := by
    intro n
    unfold Dictionary.getD
    cases hn : t.first.get? n with
    | none => exact .inl rfl
    | some f => exact .inr (Dictionary.mem_of_find hn)
  refine ⟨?_, ?_, ?_, ?_, hgr ▸ hstart, ?_⟩
  · intro n a i
    rw [hgr]
    exact Tables.select?_ofGrammar h hg n a i
  · intro n α hα
    rw [hgr] at hα
    obtain ⟨alternatives, hn, hα⟩ := mem_entries_of_mem_alternatives hα
    obtain ⟨⟨hterm, hnull⟩, -⟩ := hrules _ hn α hα
    exact ⟨hterm, fun hα' => hnull.resolve_left (by simp [hα'])⟩
  · intro n x hx
    rw [hgr]
    rcases hentry n with hn | hn
    · rw [hn] at hx
      cases hx
    · exact (hfirst _ hn).1 x hx
  · intro n hx
    rw [hgr]
    rcases hentry n with hn | hn
    · rw [hn] at hx
      cases hx
    · exact (hfirst _ hn).2.resolve_left (by simp [hx])
  · intro n α hα β m γ hβ
    rw [hgr] at hα
    obtain ⟨alternatives, hn, hα⟩ := mem_entries_of_mem_alternatives hα
    exact followsHold_append (hβ ▸ (hrules _ hn α hα).2)

/-! ### What coherent tables know of derivations -/

/-- What is seen at the beginning of a row of terminals that `behind` stands behind. -/
def lookAt (behind : Lookahead T) : List T → Lookahead T
  | [] => behind
  | x :: _ => .token x

namespace Tables.Coherent

variable {t : Tables N T}

/-- A sequence that yields nothing is known to be nullable, and one that yields a row of terminals
is known to begin with the first of them. -/
theorem first_of_yields (ht : t.Coherent) {α : Production N T} {w : List T}
    (h : t.grammar.Yields α w) :
    (w = [] → (firstOf t.first α).nullable = true) ∧
      ∀ x ∈ w.head?, x ∈ (firstOf t.first α).terminals := by
  induction h with
  | nil => simp
  | terminal _ _ => simp
  | @nonterminal n β α u v mem _ _ ihβ ihα =>
    have hn := ht.first_closed n β mem
    constructor
    · intro huv
      obtain ⟨rfl, rfl⟩ := List.append_eq_nil_iff.1 huv
      simp [hn.nullable (ihβ.1 rfl), ihα.1 rfl]
    · intro x hx
      rw [mem_firstOf_nonterminal]
      -- the first terminal is that of `u`, unless `u` is empty
      cases u with
      | nil => exact .inr ⟨hn.nullable (ihβ.1 rfl), ihα.2 x hx⟩
      | cons y u => exact .inl (hn.terminals x (ihβ.2 x hx))

/-- What is seen at the beginning of a row that a sequence yields is among its lookaheads. -/
theorem look_mem_lookaheads (ht : t.Coherent) {α : Production N T} {w : List T}
    (h : t.grammar.Yields α w) {a : Lookahead T} {behind : List (Lookahead T)} (ha : a ∈ behind) :
    lookAt a w ∈ (firstOf t.first α).lookaheads behind := by
  obtain ⟨hnull, hterm⟩ := ht.first_of_yields h
  rw [First.mem_lookaheads]
  cases w with
  | nil => exact .inl ⟨hnull rfl, ha⟩
  | cons x w => exact .inr ⟨x, hterm x rfl, rfl⟩

/-- **What an alternative yields is predicted for it**, whatever may stand behind its head. -/
theorem look_mem_predicts (ht : t.Coherent) {n : N} {α : Production N T} {w : List T}
    (h : t.grammar.Yields α w) {a : Lookahead T} (ha : a ∈ t.follow.getD n []) :
    lookAt a w ∈ t.predicts n α :=
  ht.look_mem_lookaheads h ha

end Tables.Coherent

end Bistro.Grammar
