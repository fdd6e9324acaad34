import Bistro.Proofs.Grammar.Coherence
import Bistro.Proofs.SortedList
import Mathlib.Data.Finset.Card

/-!
# What a round of visits does

A round changes the FIRST sets entry by entry.  It does so in an order of its own, and reads entries
that are not finished yet; but what it adds to an entry is always something that the alternatives
of the nonterminal have at that moment, and it leaves no nonterminal without having added what
its alternatives had when the round began.

Both are shown along the recursion.  The answer of a reading lies between what was true of the
sequence before it and what is true of it afterwards, because the entries only grow; and a
nonterminal that is met on the way is never forgotten.

## Main definitions

* `Grammar.firstAmong` — the FIRST set of a choice.
* `Grammar.Enters`, `Grammar.Grows` — one change of an entry, and any number of them.
* `Grammar.Survey.Leads` — what a visit does to a survey.
* `Grammar.Survey.Answers` — what comes out of a reading.

## Main results

* `Grammar.visit_leads` — **a visit leads on**, and answers with what is known when it ends.
* `Grammar.firstRound_grows`, `Grammar.firstRound_covers` — what a round does.
* `Grammar.firstRound_idle` — a round after one that added nothing changes nothing.
* `Grammar.visit_eq` — visits never nest deeper than they may.
-/

namespace Bistro.Grammar

variable {N T : Type} [DecidableEq N] [DecidableEq T] [Ord T]

/-! ### Parts of FIRST sets -/

namespace First

variable {a b c : First T}

omit [DecidableEq T] [Ord T] in
@[refl] theorem Within.refl (a : First T) : a.Within a := ⟨fun _ h => h, id⟩

omit [DecidableEq T] [Ord T] in
theorem Within.trans (hab : a.Within b) (hbc : b.Within c) : a.Within c :=
  ⟨fun x hx => hbc.terminals x (hab.terminals x hx), fun h => hbc.nullable (hab.nullable h)⟩

omit [DecidableEq T] [Ord T] in
theorem none_within (a : First T) : First.none.Within a :=
  ⟨fun _ h => absurd h List.not_mem_nil, fun h => absurd h Bool.false_ne_true⟩

@[simp] theorem mem_union {x : T} :
    x ∈ (a.union b).terminals ↔ x ∈ a.terminals ∨ x ∈ b.terminals :=
  SortedList.mem_union

@[simp] theorem nullable_union : (a.union b).nullable = (a.nullable || b.nullable) := rfl

theorem within_union_left (a b : First T) : a.Within (a.union b) :=
  ⟨fun _ h => mem_union.2 (.inl h), fun h => by simp [h]⟩

theorem within_union_right (a b : First T) : b.Within (a.union b) :=
  ⟨fun _ h => mem_union.2 (.inr h), fun h => by simp [h]⟩

theorem union_within (ha : a.Within c) (hb : b.Within c) : (a.union b).Within c := by
  refine ⟨fun x hx => ?_, fun h => ?_⟩
  · exact (mem_union.1 hx).elim (ha.terminals x) (hb.terminals x)
  · rw [nullable_union, Bool.or_eq_true] at h
    exact h.elim ha.nullable hb.nullable

theorem union_within_union {d : First T} (hac : a.Within c) (hbd : b.Within d) :
    (a.union b).Within (c.union d) :=
  union_within (hac.trans (within_union_left c d)) (hbd.trans (within_union_right c d))

omit [DecidableEq T] in
/-- Ordered FIRST sets that are part of each other are equal. -/
theorem Within.antisymm [Std.TransOrd T] (hab : a.Within b) (hba : b.Within a)
    (ha : SortedList.Increasing a.terminals) (hb : SortedList.Increasing b.terminals) : a = b := by
  obtain ⟨xs, n⟩ := a
  obtain ⟨ys, m⟩ := b
  obtain rfl : xs = ys := ha.ext hb fun x => ⟨hab.terminals x, hba.terminals x⟩
  obtain rfl : n = m := Bool.eq_iff_iff.2 ⟨hab.nullable, hba.nullable⟩
  rfl

end First

/-! ### FIRST sets of sequences and choices -/

section
variable {sets sets' : FirstSets N T}

theorem nullable_firstOf_append (sets : FirstSets N T) (α β : Production N T) :
    (firstOf sets (α ++ β)).nullable = ((firstOf sets α).nullable && (firstOf sets β).nullable) := by
  induction α with
  | nil => simp
  | cons x α ih =>
    cases x with
    | terminal t => simp
    | nonterminal n => simp [ih, Bool.and_assoc]

theorem mem_firstOf_append (sets : FirstSets N T) (α β : Production N T) (x : T) :
    x ∈ (firstOf sets (α ++ β)).terminals ↔ x ∈ (firstOf sets α).terminals ∨
      (firstOf sets α).nullable = true ∧ x ∈ (firstOf sets β).terminals := by
  induction α with
  | nil => simp
  | cons y α ih =>
    cases y with
    | terminal t => simp
    | nonterminal n =>
      simp only [List.cons_append, mem_firstOf_nonterminal, nullable_firstOf_nonterminal,
        Bool.and_eq_true, ih]
      tauto

/-- Everything that one family of FIRST sets knows, another knows as well. -/
def FirstSets.Within (sets sets' : FirstSets N T) : Prop :=
  ∀ n, (sets.getD n First.none).Within (sets'.getD n First.none)

omit [DecidableEq T] [Ord T] in
theorem FirstSets.Within.trans {sets'' : FirstSets N T} (h : FirstSets.Within sets sets')
    (h' : FirstSets.Within sets' sets'') : FirstSets.Within sets sets'' :=
  fun n => (h n).trans (h' n)

theorem FirstSets.Within.firstOf (h : FirstSets.Within sets sets') (α : Production N T) :
    (firstOf sets α).Within (Grammar.firstOf sets' α) := by
  induction α with
  | nil => exact First.Within.refl _
  | cons x α ih =>
    cases x with
    | terminal t => exact First.Within.refl _
    | nonterminal n =>
      constructor
      · intro x hx
        rw [mem_firstOf_nonterminal] at hx ⊢
        exact hx.imp ((h n).terminals x) (And.imp (h n).nullable (ih.terminals x))
      · rw [nullable_firstOf_nonterminal, nullable_firstOf_nonterminal, Bool.and_eq_true,
          Bool.and_eq_true]
        exact And.imp (h n).nullable ih.nullable

/-- The FIRST set of a choice between sequences. -/
def firstAmong (sets : FirstSets N T) (choice : List (Production N T)) : First T :=
  choice.foldr (fun α first => (firstOf sets α).union first) First.none

@[simp] theorem firstAmong_cons (sets : FirstSets N T) (α : Production N T)
    (choice : List (Production N T)) :
    firstAmong sets (α :: choice) = (firstOf sets α).union (firstAmong sets choice) := rfl

theorem mem_firstAmong {choice : List (Production N T)} {x : T} :
    x ∈ (firstAmong sets choice).terminals ↔ ∃ α ∈ choice, x ∈ (firstOf sets α).terminals := by
  induction choice with
  | nil => simp [firstAmong, First.none]
  | cons α choice ih => simp [ih]

theorem nullable_firstAmong {choice : List (Production N T)} :
    (firstAmong sets choice).nullable = true ↔ ∃ α ∈ choice, (firstOf sets α).nullable = true := by
  induction choice with
  | nil => simp [firstAmong, First.none]
  | cons α choice ih => simp [ih]

theorem FirstSets.Within.firstAmong (h : FirstSets.Within sets sets')
    (choice : List (Production N T)) :
    (firstAmong sets choice).Within (Grammar.firstAmong sets' choice) := by
  induction choice with
  | nil => exact First.Within.refl _
  | cons α choice ih => exact First.union_within_union (h.firstOf α) ih

end

/-! ### Changes of single entries -/

section
variable {g : Grammar N T} {sets sets' : FirstSets N T}

/-- A sequence is read as far as a nonterminal: everything before it can vanish. -/
def Reads (sets : FirstSets N T) (α : Production N T) (n : N) : Prop :=
  ∃ before behind, α = before ++ .nonterminal n :: behind ∧ (firstOf sets before).nullable = true

/-- A round comes to a nonterminal: it has rules, or one of the alternatives is read so far. -/
def Seen (g : Grammar N T) (sets : FirstSets N T) (n : N) : Prop :=
  n ∈ g.heads ∨ ∃ k, ∃ α ∈ g.alternatives k, Reads sets α n

/-- All entries are in increasing order. -/
def FirstSets.Ordered (sets : FirstSets N T) : Prop :=
  ∀ n, SortedList.Increasing (sets.getD n First.none).terminals

/-- The entry of a nonterminal that is seen grows by something that its alternatives have. -/
inductive Enters (g : Grammar N T) (sets : FirstSets N T) : FirstSets N T → Prop
  /-- What was found is added to what was known. -/
  | grow {n : N} {found : First T} (seen : g.Seen sets n)
      (within : found.Within (firstAmong sets (g.alternatives n)))
      (ordered : FirstSets.Ordered sets → SortedList.Increasing found.terminals) :
      Enters g sets (sets.set n ((sets.getD n First.none).union found))

/-- Any number of entries grow, one after the other. -/
def Grows (g : Grammar N T) : FirstSets N T → FirstSets N T → Prop := Relation.ReflTransGen g.Enters

theorem Reads.mono (h : FirstSets.Within sets sets') {α : Production N T} {n : N}
    (hn : Reads sets α n) : Reads sets' α n := by
  obtain ⟨before, behind, rfl, hnull⟩ := hn
  exact ⟨before, behind, rfl, (h.firstOf before).nullable hnull⟩

theorem Seen.mono (h : FirstSets.Within sets sets') {n : N} (hn : g.Seen sets n) :
    g.Seen sets' n :=
  hn.imp_right fun ⟨k, α, hα, hread⟩ => ⟨k, α, hα, hread.mono h⟩

theorem Enters.within (h : g.Enters sets sets') : FirstSets.Within sets sets' := by
  obtain @⟨n, found, -, -, -⟩ := h
  intro m
  rw [Dictionary.getD_set]
  split
  · next hm => exact hm ▸ First.within_union_left _ _
  · exact First.Within.refl _

theorem Grows.within (h : g.Grows sets sets') : FirstSets.Within sets sets' := by
  induction h with
  | refl => exact fun n => First.Within.refl _
  | tail _ hstep ih => exact ih.trans hstep.within

theorem Grows.contains (h : g.Grows sets sets') {n : N} (hn : sets.contains n = true) :
    sets'.contains n = true := by
  induction h with
  | refl => exact hn
  | tail _ hstep ih =>
    obtain @⟨m, found, -, -, -⟩ := hstep
    exact (Dictionary.contains_set ..).2 (.inr ih)

/-- What every change of an entry keeps, any number of changes keep. -/
theorem Grows.keeps {P : FirstSets N T → Prop} (h : g.Grows sets sets') (hP : P sets)
    (hstep : ∀ a b, g.Enters a b → P a → P b) : P sets' := by
  induction h with
  | refl => exact hP
  | tail _ hstep' ih => exact hstep _ _ hstep' ih

theorem Enters.ordered [Std.TransOrd T] [Std.LawfulEqOrd T] (h : g.Enters sets sets')
    (hsets : FirstSets.Ordered sets) : FirstSets.Ordered sets' := by
  obtain @⟨n, found, -, -, hfound⟩ := h
  intro m
  rw [Dictionary.getD_set]
  split
  · exact (hfound hsets).union _
  · exact hsets m

end

/-! ### What a visit does -/

section
variable {g : Grammar N T} {s s' s'' : Survey N T} {sets sets' : FirstSets N T}

/-- A nonterminal has its entry, and in it what its alternatives had when `sets` was known; and
what they were read for has been met. -/
structure Survey.Covers (g : Grammar N T) (sets : FirstSets N T) (s : Survey N T) (n : N) :
    Prop where
  /-- There is an entry. -/
  entered : s.sets.contains n = true
  /-- The entry holds what the alternatives had. -/
  first : (firstAmong sets (g.alternatives n)).Within (s.known n)
  /-- The nonterminals that the alternatives are read for have been met. -/
  reads : ∀ α ∈ g.alternatives n, ∀ m, Reads sets α m → m ∈ s.met

/-- One survey leads to another: nonterminals are met, entries grow, and whatever is met on the way
is taken care of. -/
structure Survey.Leads (g : Grammar N T) (s s' : Survey N T) : Prop where
  /-- What was met stays so. -/
  met : ∀ n ∈ s.met, n ∈ s'.met
  /-- The entries grow. -/
  grows : g.Grows s.sets s'.sets
  /-- What is met on the way is covered. -/
  covers : ∀ n ∈ s'.met, n ∉ s.met → s'.Covers g s.sets n

theorem Survey.Covers.mono {n : N} (h : s.Covers g sets' n) (hsets : FirstSets.Within sets sets')
    (hmet : ∀ n ∈ s.met, n ∈ s'.met) (hgrows : g.Grows s.sets s'.sets) : s'.Covers g sets n where
  entered := hgrows.contains h.entered
  first := ((hsets.firstAmong _).trans h.first).trans (hgrows.within n)
  reads α hα m hm := hmet m (h.reads α hα m (hm.mono hsets))

theorem Survey.Leads.refl (s : Survey N T) : s.Leads g s :=
  ⟨fun _ h => h, .refl, fun _ h h' => absurd h h'⟩

theorem Survey.Leads.trans (h : s.Leads g s') (h' : s'.Leads g s'') : s.Leads g s'' := by
  refine ⟨fun n hn => h'.met n (h.met n hn), h.grows.trans h'.grows, fun n hn hnew => ?_⟩
  by_cases hmid : n ∈ s'.met
  · exact (h.covers n hmid hnew).mono (fun _ => .refl _) h'.met h'.grows
  · exact (h'.covers n hn hmid).mono h.grows.within (fun _ h => h) .refl

/-- What comes out when something is read that has the FIRST set `first` and is read for the
nonterminals `reads`: the answer lies between what was true before and what is true afterwards. -/
structure Survey.Answers (g : Grammar N T) (s : Survey N T) (first : FirstSets N T → First T)
    (reads : N → Prop) (answer : First T × Survey N T) : Prop where
  /-- The survey that is left. -/
  leads : s.Leads g answer.2
  /-- The answer holds what was true before. -/
  lower : (first s.sets).Within answer.1
  /-- The answer holds nothing but what is true afterwards. -/
  upper : answer.1.Within (first answer.2.sets)
  /-- The nonterminals on the way have been met. -/
  met : ∀ n, reads n → n ∈ answer.2.met
  /-- The answer is in order. -/
  ordered : FirstSets.Ordered answer.2.sets → SortedList.Increasing answer.1.terminals

/-- How many nonterminals with rules a survey has not met. -/
def unmet (g : Grammar N T) (s : Survey N T) : Nat := (g.heads.toFinset.filter (· ∉ s.met)).card

omit [DecidableEq T] [Ord T] in
theorem unmet_le (hmet : ∀ n ∈ s.met, n ∈ s'.met) : g.unmet s' ≤ g.unmet s :=
  Finset.card_le_card (Finset.monotone_filter_right _ fun n _ hn h => hn (hmet n h))

omit [DecidableEq T] [Ord T] in
theorem unmet_le_length (s : Survey N T) : g.unmet s ≤ g.heads.length :=
  (Finset.card_filter_le _ _).trans (List.toFinset_card_le _)

omit [DecidableEq T] [Ord T] in
theorem unmet_cons_lt {n : N} (hn : n ∈ g.heads) (hnew : n ∉ s.met) :
    g.unmet { s with met := n :: s.met } < g.unmet s := by
  refine Finset.card_lt_card (Finset.ssubset_iff_of_subset ?_ |>.2 ⟨n, ?_, ?_⟩)
  · exact Finset.monotone_filter_right _ fun m _ hm h => hm (List.mem_cons_of_mem _ h)
  · simp [hn, hnew]
  · simp

omit [DecidableEq T] [Ord T] in
theorem alternatives_eq_nil {n : N} (hn : n ∉ g.heads) : g.alternatives n = [] := by
  rw [List.eq_nil_iff_forall_not_mem]
  intro α hα
  obtain ⟨alternatives, hmem, -⟩ := mem_entries_of_mem_alternatives hα
  exact hn (List.mem_map.2 ⟨_, hmem, rfl⟩)

omit [DecidableEq T] [Ord T] in
theorem mem_heads_of_mem_alternatives {n : N} {α : Production N T} (h : α ∈ g.alternatives n) :
    n ∈ g.heads := by
  by_contra hn
  rw [alternatives_eq_nil hn] at h
  cases h

/-! #### Reading productions

The visits that a reading makes are taken as they are: all that is used of them is that each leads
to a survey which has met its nonterminal, and answers with what is known there. -/

/-- Visits lead on, as long as no more than `room` nonterminals with rules are unmet. -/
def Visits (g : Grammar N T) (room : Nat) (visit : N → Survey N T → First T × Survey N T) : Prop :=
  ∀ n s, g.unmet s ≤ room → g.Seen s.sets n →
    s.Leads g (visit n s).2 ∧ n ∈ (visit n s).2.met ∧ (visit n s).1 = (visit n s).2.known n

variable {room : Nat} {visit : N → Survey N T → First T × Survey N T}

theorem reads_cons {x : N} {α : Production N T} {n : N} :
    Reads sets (.nonterminal x :: α) n ↔
      n = x ∨ (sets.getD x First.none).nullable = true ∧ Reads sets α n := by
  constructor
  · rintro ⟨before, behind, heq, hnull⟩
    cases before with
    | nil =>
      simp only [List.nil_append, List.cons.injEq, Symbol.nonterminal.injEq] at heq
      exact .inl heq.1.symm
    | cons y before =>
      simp only [List.cons_append, List.cons.injEq] at heq
      obtain ⟨rfl, rfl⟩ := heq
      rw [nullable_firstOf_nonterminal, Bool.and_eq_true] at hnull
      exact .inr ⟨hnull.1, before, behind, rfl, hnull.2⟩
  · rintro (rfl | ⟨hx, before, behind, rfl, hnull⟩)
    · exact ⟨[], α, rfl, rfl⟩
    · exact ⟨.nonterminal x :: before, behind, rfl, by simp [hx, hnull]⟩

theorem not_reads_terminal {t : T} {α : Production N T} {n : N} :
    ¬Reads sets (.terminal t :: α) n := by
  rintro ⟨before, behind, heq, hnull⟩
  cases before with
  | nil => simp at heq
  | cons y before =>
    simp only [List.cons_append, List.cons.injEq] at heq
    obtain ⟨rfl, rfl⟩ := heq
    simp at hnull

/-- What is left of an alternative is read as it is, if what came before can vanish. -/
theorem answers_readProduction [Std.TransOrd T] [Std.LawfulEqOrd T] (hv : g.Visits room visit)
    {k : N} {α : Production N T} (before : Production N T) (hα : before ++ α ∈ g.alternatives k)
    (hnull : (firstOf s.sets before).nullable = true) (hroom : g.unmet s ≤ room) :
    s.Answers g (firstOf · α) (Reads s.sets α) (readProduction visit α s) := by
  induction α generalizing before s with
  | nil =>
    refine ⟨.refl s, .refl _, .refl _, ?_, fun _ => SortedList.increasing_nil⟩
    rintro n ⟨before, behind, heq, -⟩
    simp at heq
  | cons x α ih =>
    cases x with
    | terminal t =>
      exact ⟨.refl s, .refl _, .refl _, fun n hn => absurd hn not_reads_terminal,
        fun _ => SortedList.increasing_singleton t⟩
    | nonterminal n =>
      have hseen : g.Seen s.sets n := .inr ⟨k, _, hα, before, α, rfl, hnull⟩
      obtain ⟨hleads, hmet, hknown⟩ := hv n s hroom hseen
      unfold readProduction
      generalize visit n s = answer at hleads hmet hknown ⊢
      obtain ⟨first, s₁⟩ := answer
      simp only at hleads hmet hknown ⊢
      have hgrown := hleads.grows.within n
      split
      · next hfirst =>
        -- the nonterminal can vanish, so that the rest is read as well
        have hs₁ : (s₁.sets.getD n First.none).nullable = true := by
          rw [hknown] at hfirst
          exact hfirst
        have hbefore : (firstOf s₁.sets (before ++ [.nonterminal n])).nullable = true := by
          rw [nullable_firstOf_append, (hleads.grows.within.firstOf before).nullable hnull]
          simp [hs₁]
        have hrest := ih (before ++ [.nonterminal n]) (by simpa using hα) hbefore
          ((unmet_le hleads.met).trans hroom)
        generalize readProduction visit α s₁ = behind at hrest ⊢
        refine ⟨hleads.trans hrest.leads, ⟨fun x hx => ?_, fun h => ?_⟩, ⟨fun x hx => ?_, fun h => ?_⟩,
          fun m hm => ?_, fun hord => (hrest.ordered hord).union _⟩
        · rw [mem_firstOf_nonterminal] at hx
          rw [SortedList.mem_union, hknown]
          refine hx.imp (hgrown.terminals x) fun hx => hrest.lower.terminals x ?_
          exact (hleads.grows.within.firstOf α).terminals x hx.2
        · rw [nullable_firstOf_nonterminal, Bool.and_eq_true] at h
          exact hrest.lower.nullable ((hleads.grows.within.firstOf α).nullable h.2)
        · rw [SortedList.mem_union, hknown] at hx
          rw [mem_firstOf_nonterminal]
          have hlast := hrest.leads.grows.within n
          exact hx.imp (hlast.terminals x) fun hx => ⟨hlast.nullable hs₁, hrest.upper.terminals x hx⟩
        · rw [nullable_firstOf_nonterminal, Bool.and_eq_true]
          exact ⟨(hrest.leads.grows.within n).nullable hs₁, hrest.upper.nullable h⟩
        · rcases reads_cons.1 hm with rfl | ⟨-, hm⟩
          · exact hrest.leads.met m hmet
          · exact hrest.met m (hm.mono hleads.grows.within)
      · next hfirst =>
        -- the nonterminal cannot vanish now, so it could not before
        have hs : (s.sets.getD n First.none).nullable ≠ true := fun h =>
          hfirst (hknown ▸ hgrown.nullable h)
        refine ⟨hleads, ⟨fun x hx => ?_, fun h => ?_⟩, ⟨fun x hx => ?_, fun h => absurd h hfirst⟩,
          fun m hm => ?_, fun hord => hknown ▸ hord n⟩
        · rw [mem_firstOf_nonterminal] at hx
          rw [hknown]
          exact hgrown.terminals x (hx.resolve_right fun h => hs h.1)
        · rw [nullable_firstOf_nonterminal, Bool.and_eq_true] at h
          exact absurd h.1 hs
        · rw [mem_firstOf_nonterminal]
          exact .inl (hknown ▸ hx)
        · rcases reads_cons.1 hm with rfl | ⟨h, -⟩
          · exact hmet
          · exact absurd h hs

theorem answers_readAlternatives [Std.TransOrd T] [Std.LawfulEqOrd T] (hv : g.Visits room visit)
    {k : N} {choice : List (Production N T)} (hchoice : ∀ α ∈ choice, α ∈ g.alternatives k)
    (hroom : g.unmet s ≤ room) :
    s.Answers g (firstAmong · choice) (fun n => ∃ α ∈ choice, Reads s.sets α n)
      (readAlternatives visit choice s) := by
  induction choice generalizing s with
  | nil =>
    refine ⟨.refl s, .refl _, .refl _, ?_, fun _ => SortedList.increasing_nil⟩
    rintro n ⟨α, hα, -⟩
    cases hα
  | cons α choice ih =>
    have hhere := answers_readProduction hv [] (hchoice α List.mem_cons_self) rfl hroom
    unfold readAlternatives
    generalize readProduction visit α s = here at hhere ⊢
    obtain ⟨first, s₁⟩ := here
    simp only at hhere ⊢
    have hthere := ih (fun β hβ => hchoice β (List.mem_cons_of_mem _ hβ))
      ((unmet_le hhere.leads.met).trans hroom)
    generalize readAlternatives visit choice s₁ = there at hthere ⊢
    refine ⟨hhere.leads.trans hthere.leads, ?_, ?_, ?_, fun hord => (hthere.ordered hord).union _⟩
    · exact First.union_within_union hhere.lower
        ((hhere.leads.grows.within.firstAmong choice).trans hthere.lower)
    · exact First.union_within_union
        (hhere.upper.trans (hthere.leads.grows.within.firstOf α)) hthere.upper
    · rintro n ⟨β, hβ, hn⟩
      rcases List.mem_cons.1 hβ with rfl | hβ
      · exact hthere.leads.met n (hhere.met n hn)
      · exact hthere.met n ⟨β, hβ, hn.mono hhere.leads.grows.within⟩

/-! #### Visits and rounds -/

/-- A visit ends with the entry of its nonterminal: it grows by what the alternatives gave. -/
theorem leads_entry {n : N} {answer : First T × Survey N T} (hseen : g.Seen s.sets n)
    (h : ({ s with met := n :: s.met } : Survey N T).Answers g (firstAmong · (g.alternatives n))
      (fun m => ∃ α ∈ g.alternatives n, Reads s.sets α m) answer) :
    s.Leads g { answer.2 with
      sets := answer.2.sets.set n ((answer.2.known n).union answer.1) } := by
  obtain ⟨found, s₁⟩ := answer
  obtain ⟨hleads, hlower, hupper, hmet, hordered⟩ := h
  have henter : g.Enters s₁.sets (s₁.sets.set n ((s₁.known n).union found)) :=
    .grow (hseen.mono hleads.grows.within) hupper hordered
  refine ⟨fun m hm => hleads.met m (List.mem_cons_of_mem _ hm), hleads.grows.tail henter, ?_⟩
  intro m hm hnew
  by_cases hmn : m = n
  · subst hmn
    refine ⟨(Dictionary.contains_set ..).2 (.inl rfl), ?_, fun α hα k hk => hmet k ⟨α, hα, hk⟩⟩
    unfold Survey.known
    rw [Dictionary.getD_set, if_pos rfl]
    exact hlower.trans (First.within_union_right _ _)
  · have hcovers := hleads.covers m hm (by simp [hmn, hnew])
    exact hcovers.mono (fun _ => .refl _) (fun _ h => h) (.single henter)

/-- **A visit leads on**, and answers with what is known when it ends. -/
theorem visit_leads [Std.TransOrd T] [Std.LawfulEqOrd T] {depth : Nat} (hdepth : room < depth) :
    g.Visits room (Grammar.visit g depth) := by
  induction depth generalizing room with
  | zero => omega
  | succ depth ih =>
    intro n s hroom hseen
    unfold Grammar.visit
    split
    · next hn => exact ⟨.refl s, hn, rfl⟩
    · next hnew =>
      -- a nonterminal with rules leaves one less to be met, and one without has nothing to read
      have hread : ({ s with met := n :: s.met } : Survey N T).Answers g
          (firstAmong · (g.alternatives n)) (fun m => ∃ α ∈ g.alternatives n, Reads s.sets α m)
          (readAlternatives (Grammar.visit g depth) (g.alternatives n)
            { s with met := n :: s.met }) := by
        by_cases hn : n ∈ g.heads
        · have hless := unmet_cons_lt hn hnew
          have hvisits := ih (show room - 1 < depth by omega)
          exact answers_readAlternatives hvisits (fun _ h => h) (by omega)
        · rw [alternatives_eq_nil hn]
          refine ⟨.refl _, .refl _, .refl _, ?_, fun _ => SortedList.increasing_nil⟩
          rintro m ⟨α, hα, -⟩
          cases hα
      refine ⟨leads_entry hseen hread, hread.leads.met n List.mem_cons_self, ?_⟩
      unfold Survey.known
      rw [Dictionary.getD_set, if_pos rfl]

/-- The survey that a round leaves. -/
def surveyed (g : Grammar N T) (sets : FirstSets N T) : Survey N T :=
  g.heads.foldl (fun s n => (Grammar.visit g (g.heads.length + 1) n s).2) ⟨sets, []⟩

theorem firstRound_eq (g : Grammar N T) (sets : FirstSets N T) :
    g.firstRound sets = (g.surveyed sets).sets := rfl

theorem foldl_visit_leads [Std.TransOrd T] [Std.LawfulEqOrd T] {ns : List N}
    (hns : ∀ n ∈ ns, n ∈ g.heads) (s : Survey N T) :
    s.Leads g (ns.foldl (fun s n => (Grammar.visit g (g.heads.length + 1) n s).2) s) ∧
      ∀ n ∈ ns, n ∈ (ns.foldl (fun s n => (Grammar.visit g (g.heads.length + 1) n s).2) s).met := by
  induction ns generalizing s with
  | nil => exact ⟨.refl s, fun _ h => absurd h List.not_mem_nil⟩
  | cons n ns ih =>
    obtain ⟨hleads, hmet, -⟩ := visit_leads (Nat.lt_succ_self _) n s (unmet_le_length s)
      (.inl (hns n List.mem_cons_self))
    obtain ⟨hrest, hmets⟩ := ih (fun m hm => hns m (List.mem_cons_of_mem _ hm))
      (Grammar.visit g (g.heads.length + 1) n s).2
    refine ⟨hleads.trans hrest, fun m hm => ?_⟩
    rcases List.mem_cons.1 hm with rfl | hm
    · exact hrest.met m hmet
    · exact hmets m hm

theorem surveyed_leads [Std.TransOrd T] [Std.LawfulEqOrd T] (g : Grammar N T)
    (sets : FirstSets N T) :
    (⟨sets, []⟩ : Survey N T).Leads g (g.surveyed sets) ∧
      ∀ n ∈ g.heads, n ∈ (g.surveyed sets).met :=
  foldl_visit_leads (fun _ h => h) _

theorem firstRound_grows [Std.TransOrd T] [Std.LawfulEqOrd T] (g : Grammar N T)
    (sets : FirstSets N T) : g.Grows sets (g.firstRound sets) := by
  rw [firstRound_eq]
  exact (surveyed_leads g sets).1.grows

/-- A round adds to every entry what its alternatives had before. -/
theorem firstRound_covers [Std.TransOrd T] [Std.LawfulEqOrd T] (g : Grammar N T)
    (sets : FirstSets N T) (n : N) :
    (firstAmong sets (g.alternatives n)).Within ((g.firstRound sets).getD n First.none) := by
  rw [firstRound_eq]
  obtain ⟨hleads, hheads⟩ := surveyed_leads g sets
  by_cases hn : n ∈ g.heads
  · exact (hleads.covers n (hheads n hn) List.not_mem_nil).first
  · rw [alternatives_eq_nil hn]
    exact First.none_within _

/-- A round makes an entry for everything it comes to. -/
theorem contains_firstRound [Std.TransOrd T] [Std.LawfulEqOrd T] {n : N} (h : g.Seen sets n) :
    (g.firstRound sets).contains n = true := by
  rw [firstRound_eq]
  obtain ⟨hleads, hheads⟩ := surveyed_leads g sets
  have hcovers := fun m hm => hleads.covers m hm List.not_mem_nil
  rcases h with hn | ⟨k, α, hα, hn⟩
  · exact (hcovers n (hheads n hn)).entered
  · have hk := hcovers k (hheads k (mem_heads_of_mem_alternatives hα))
    exact (hcovers n (hk.reads α hα n hn)).entered

/-- **A round after one that added nothing changes nothing.** -/
theorem firstRound_idle [Std.TransOrd T] [Std.LawfulEqOrd T]
    (hord : FirstSets.Ordered (g.firstRound sets))
    (hidle : FirstSets.Within (g.firstRound sets) sets) :
    g.firstRound (g.firstRound sets) = g.firstRound sets := by
  refine (firstRound_grows g (g.firstRound sets)).keeps (P := (· = g.firstRound sets)) rfl ?_
  rintro a b @⟨n, found, hseen, hfound, hincr⟩ rfl
  -- what is found was found by the round before, and the entry is there
  have hknown : found.Within ((g.firstRound sets).getD n First.none) :=
    (hfound.trans (hidle.firstAmong _)).trans (firstRound_covers g sets n)
  have hsame : ((g.firstRound sets).getD n First.none).union found =
      (g.firstRound sets).getD n First.none :=
    (First.union_within (.refl _) hknown).antisymm (First.within_union_left _ _)
      ((hincr hord).union _) (hord n)
  have hentry := contains_firstRound (hseen.mono hidle)
  rw [hsame]
  unfold Dictionary.contains at hentry
  obtain ⟨first, hfirst⟩ := Option.isSome_iff_exists.1 hentry
  exact Dictionary.set_eq_self (by rw [Dictionary.getD, hfirst]; rfl)

/-! #### How deep visits nest -/

omit [DecidableEq N] in
theorem met_readProduction (hv : ∀ n s, ∀ m ∈ s.met, m ∈ (visit n s).2.met)
    (α : Production N T) (s : Survey N T) : ∀ m ∈ s.met, m ∈ (readProduction visit α s).2.met := by
  induction α generalizing s with
  | nil => exact fun _ h => h
  | cons x α ih =>
    cases x with
    | terminal t => exact fun _ h => h
    | nonterminal n =>
      intro m hm
      unfold readProduction
      dsimp only
      split
      · exact ih _ m (hv n s m hm)
      · exact hv n s m hm

omit [DecidableEq N] in
theorem met_readAlternatives (hv : ∀ n s, ∀ m ∈ s.met, m ∈ (visit n s).2.met)
    (choice : List (Production N T)) (s : Survey N T) :
    ∀ m ∈ s.met, m ∈ (readAlternatives visit choice s).2.met := by
  induction choice generalizing s with
  | nil => exact fun _ h => h
  | cons α choice ih => exact fun m hm => ih _ m (met_readProduction hv α s m hm)

theorem met_visit (depth : Nat) (n : N) (s : Survey N T) :
    ∀ m ∈ s.met, m ∈ (Grammar.visit g depth n s).2.met := by
  induction depth generalizing n s with
  | zero => exact fun _ h => h
  | succ depth ih =>
    intro m hm
    unfold Grammar.visit
    split
    · exact hm
    · exact met_readAlternatives ih _ _ m (List.mem_cons_of_mem _ hm)

variable {visit' : N → Survey N T → First T × Survey N T}

/-- Visits that agree as long as few nonterminals are unmet make the same readings. -/
theorem readProduction_congr (hv : ∀ n s, ∀ m ∈ s.met, m ∈ (visit n s).2.met)
    (hsame : ∀ n s, g.unmet s ≤ room → visit n s = visit' n s) (α : Production N T)
    (hroom : g.unmet s ≤ room) : readProduction visit α s = readProduction visit' α s := by
  induction α generalizing s with
  | nil => rfl
  | cons x α ih =>
    cases x with
    | terminal t => rfl
    | nonterminal n =>
      unfold readProduction
      rw [← hsame n s hroom]
      dsimp only
      rw [ih ((unmet_le (hv n s)).trans hroom)]

theorem readAlternatives_congr (hv : ∀ n s, ∀ m ∈ s.met, m ∈ (visit n s).2.met)
    (hsame : ∀ n s, g.unmet s ≤ room → visit n s = visit' n s) (choice : List (Production N T))
    (hroom : g.unmet s ≤ room) :
    readAlternatives visit choice s = readAlternatives visit' choice s := by
  induction choice generalizing s with
  | nil => rfl
  | cons α choice ih =>
    unfold readAlternatives
    rw [← readProduction_congr hv hsame α hroom]
    dsimp only
    rw [ih ((unmet_le (met_readProduction hv α s)).trans hroom)]

/-- **Visits never nest deeper than they may**: with room for what is unmet, more makes no
difference. -/
theorem visit_eq {depth depth' : Nat} (hdepth : g.unmet s < depth) (hdepth' : g.unmet s < depth')
    (n : N) : Grammar.visit g depth n s = Grammar.visit g depth' n s := by
  induction depth generalizing depth' n s with
  | zero => omega
  | succ depth ih =>
    obtain ⟨depth', rfl⟩ := Nat.exists_eq_add_one_of_ne_zero (by omega : depth' ≠ 0)
    unfold Grammar.visit
    split
    · rfl
    · next hnew =>
      have hread : readAlternatives (Grammar.visit g depth) (g.alternatives n)
          { s with met := n :: s.met } = readAlternatives (Grammar.visit g depth')
            (g.alternatives n) { s with met := n :: s.met } := by
        by_cases hn : n ∈ g.heads
        · have hless := unmet_cons_lt hn hnew
          have hsame : ∀ m s', g.unmet s' ≤ g.unmet { s with met := n :: s.met } →
              Grammar.visit g depth m s' = Grammar.visit g depth' m s' :=
            fun m s' hs' => ih (by omega) (by omega) m
          exact readAlternatives_congr (met_visit depth) hsame _ le_rfl
        · rw [alternatives_eq_nil hn]
          rfl
      dsimp only
      rw [hread]

end

end Bistro.Grammar
