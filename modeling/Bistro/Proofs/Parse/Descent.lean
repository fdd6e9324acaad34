import Bistro.Parse.Recovery
import Bistro.Proofs.Grammar.Coherence

/-!
# What happens to a stack at one lookahead

Between two matches the machine sees the same lookahead.  It expands nonterminals and takes end
marks off, and so does a trial, which puts no end marks there.  Both change their stack in the same
way, so this is studied for the stack alone, with or without end marks.

Two things can become of a nonterminal that the lookahead selects an alternative of.  If the
lookahead can begin it, the expansions lead to the very terminal that is seen.  If the lookahead can
only stand behind it, it vanishes with all that it is expanded to.  Nothing gets stuck on the way,
since the tables are coherent, and there is no left recursion, so each has an effort that bounds the
number of moves.

## Main definitions

* `Grammar.Tables.Paced` — coherent tables with an effort for each nonterminal.
* `Parse.Settles` — moves of a stack at one lookahead.
* `Parse.Stuck` — the top of a stack does not fit the lookahead.

## Main results

* `Parse.settles_vanish`, `Parse.settles_match` — what becomes of a nonterminal.
* `Parse.exists_settles` — **every stack settles**: at its bottom, at a terminal that is seen, or at
  a top that does not fit and was there from the beginning.
-/

namespace Bistro

/-! ### Efforts -/

namespace Grammar

variable {N T : Type} [DecidableEq N] [DecidableEq T] [Ord T]

/-- Whether the efforts of the nonterminals that can come first in a production, `spent` apart, stay
below a bound.  Nonterminals come first as long as those before them can vanish. -/
def paces (first : FirstSets N T) (effort : N → Nat) (bound : Nat) : Nat → Production N T → Bool
  | _, [] => true
  | spent, .terminal _ :: _ => spent + 1 ≤ bound
  | spent, .nonterminal m :: rest =>
    spent + effort m + 2 ≤ bound &&
      (!(first.getD m First.none).nullable || paces first effort bound (spent + effort m) rest)

/-- Coherent tables whose productions are not too long, with an effort for each nonterminal that is
more than what the nonterminals cost that can come first in one of its productions. -/
structure Tables.Paced (t : Tables N T) (effort : N → Nat) (most longest : Nat) : Prop
    extends t.Coherent where
  /-- No nonterminal is free. -/
  effort_pos : ∀ n, 1 ≤ effort n
  /-- No effort is greater than `most`. -/
  effort_le : ∀ n, effort n ≤ most
  /-- The efforts are those of the productions. -/
  paced : ∀ n, ∀ α ∈ t.grammar.alternatives n, paces t.first effort (effort n) 0 α = true
  /-- No production is longer than `longest`. -/
  length_le : ∀ n, ∀ α ∈ t.grammar.alternatives n, α.length ≤ longest

end Grammar

namespace Parse

/-! ### Moves of a stack -/

/-- What is put below the symbols of a production: an end mark, if there are marks at all and the
production has symbols. -/
def ending (marked : Bool) (α : Grammar.Production Nonterminal Token.Kind) : List Item :=
  if marked && !α.isEmpty then [.endOfProduction] else []

/-- A number of moves that take a stack to another one while the lookahead stays the same. -/
inductive Settles (setting : Setting) (marked : Bool) (a : Lookahead) :
    Nat → List Item → List Item → Prop
  /-- No move. -/
  | refl (σ : List Item) : Settles setting marked a 0 σ σ
  /-- An end mark is taken off. -/
  | mark {k : Nat} {σ τ : List Item} (h : Settles setting marked a k σ τ) :
      Settles setting marked a (k + 1) (.endOfProduction :: σ) τ
  /-- A nonterminal is expanded. -/
  | expand {k i : Nat} {n : Nonterminal} {σ τ : List Item}
      (hi : setting.tables.select? n a = some i)
      (h : Settles setting marked a k ((State.production setting n i).map Item.ofSymbol ++
        (ending marked (State.production setting n i) ++ σ)) τ) :
      Settles setting marked a (k + 1) (.nonterminal n :: σ) τ

/-- The top of a stack is a symbol that does not fit the lookahead. -/
def Stuck (setting : Setting) (a : Lookahead) : List Item → Prop
  | .terminal kind :: _ => a ≠ .token kind
  | .nonterminal n :: _ => setting.tables.select? n a = none
  | _ => False

instance Stuck.decidable (setting : Setting) (a : Lookahead) :
    (σ : List Item) → Decidable (Stuck setting a σ)
  | .terminal kind :: _ => inferInstanceAs (Decidable (a ≠ .token kind))
  | .nonterminal n :: _ => inferInstanceAs (Decidable (setting.tables.select? n a = none))
  | [] | .endOfProduction :: _ | .bottom :: _ => inferInstanceAs (Decidable False)

variable {setting : Setting} {marked : Bool} {a : Lookahead} {σ τ υ : List Item}

theorem Settles.trans {j k : Nat} (h : Settles setting marked a j σ τ)
    (h' : Settles setting marked a k τ υ) : Settles setting marked a (j + k) σ υ := by
  induction h with
  | refl => rwa [Nat.zero_add]
  | mark _ ih =>
    rw [Nat.add_right_comm]
    exact .mark (ih h')
  | expand hi _ ih =>
    rw [Nat.add_right_comm]
    exact .expand hi (ih h')

theorem length_ending_le (marked : Bool) (α : Grammar.Production Nonterminal Token.Kind) :
    (ending marked α).length ≤ 1 := by
  unfold ending
  split <;> simp

/-- What is put below a production comes off in one move at most, and if it has no symbols there is
nothing to come off. -/
theorem settles_ending (setting : Setting) (marked : Bool) (a : Lookahead)
    (α : Grammar.Production Nonterminal Token.Kind) : ∃ k ≤ 1, (α = [] → k = 0) ∧
      ∀ σ, Settles setting marked a k (ending marked α ++ σ) σ := by
  unfold ending
  split
  · next h =>
    refine ⟨1, Nat.le_refl 1, ?_, fun σ => .mark (.refl σ)⟩
    rintro rfl
    simp at h
  · exact ⟨0, Nat.zero_le 1, fun _ => rfl, fun σ => .refl σ⟩

/-! ### What becomes of a nonterminal -/

section
variable {effort : Nonterminal → Nat} {most longest : Nat}
  (ht : setting.tables.Paced effort most longest)
include ht

open Grammar

/-- A lookahead that is predicted for an alternative selects this alternative. -/
theorem exists_select {n : Nonterminal} {α : Production Nonterminal Token.Kind}
    (hα : α ∈ setting.tables.grammar.alternatives n) (ha : a ∈ setting.tables.predicts n α) :
    ∃ i, setting.tables.select? n a = some i ∧ State.production setting n i = α := by
  obtain ⟨i, hi⟩ := List.mem_iff_getElem?.1 hα
  refine ⟨i, (ht.select_iff n a i).2 ⟨α, hi, ha⟩, ?_⟩
  rw [State.production, hi]
  rfl

/-- What is selected is an alternative. -/
theorem production_mem {n : Nonterminal} {i : Nat} (hi : setting.tables.select? n a = some i) :
    State.production setting n i ∈ setting.tables.grammar.alternatives n := by
  obtain ⟨α, hα, -⟩ := (ht.select_iff n a i).1 hi
  rw [State.production, hα]
  exact List.mem_of_getElem? hα

/-- The vanishing of the rest of a production of `n`, if that of its nonterminals is known. -/
theorem settles_vanish_along (marked : Bool) {n : Nonterminal}
    (ha : a ∈ setting.tables.follow.getD n [])
    (ih : ∀ m, effort m < effort n → (setting.tables.first.getD m First.none).nullable = true →
      a ∈ setting.tables.follow.getD m [] →
        ∃ k ≤ effort m, ∀ σ, Settles setting marked a k (.nonterminal m :: σ) σ)
    (γ : Production Nonterminal Token.Kind) :
    ∀ β, β ++ γ ∈ setting.tables.grammar.alternatives n → ∀ spent,
      paces setting.tables.first effort (effort n) spent γ = true →
      (firstOf setting.tables.first γ).nullable = true →
        ∃ k, (γ ≠ [] → spent + k + 2 ≤ effort n) ∧ (γ = [] → k = 0) ∧
          ∀ σ, Settles setting marked a k (γ.map Item.ofSymbol ++ σ) σ := by
  induction γ with
  | nil => exact fun _ _ _ _ _ => ⟨0, fun h => absurd rfl h, fun _ => rfl, fun σ => .refl σ⟩
  | cons x γ ihγ =>
    intro β hβ spent hp hnull
    cases x with
    | terminal x => simp at hnull
    | nonterminal m =>
      rw [nullable_firstOf_nonterminal, Bool.and_eq_true] at hnull
      simp only [paces, hnull.1, Bool.not_true, Bool.false_or, Bool.and_eq_true,
        decide_eq_true_eq] at hp
      -- the rest of the production can vanish, so `a` may stand behind `m` as well
      have hm : a ∈ setting.tables.follow.getD m [] :=
        ht.follow_closed n _ hβ β m γ rfl a (First.mem_lookaheads.2 (.inl ⟨hnull.2, ha⟩))
      obtain ⟨k₁, hk₁, h₁⟩ := ih m (by omega) hnull.1 hm
      obtain ⟨k₂, hk₂, hk₂', h₂⟩ := ihγ (β ++ [.nonterminal m]) (by simpa using hβ) _ hp.2 hnull.2
      -- two moves are left over: the expansion before, and the end mark behind
      refine ⟨k₁ + k₂, fun _ => ?_, fun h => by simp at h, fun σ => (h₁ _).trans (h₂ σ)⟩
      by_cases hγ : γ = []
      · have := hk₂' hγ
        omega
      · have := hk₂ hγ
        omega

/-- A nonterminal that can vanish does so at a lookahead that can stand behind it. -/
theorem settles_vanish (marked : Bool) {n : Nonterminal}
    (hn : (setting.tables.first.getD n First.none).nullable = true)
    (ha : a ∈ setting.tables.follow.getD n []) :
    ∃ k ≤ effort n, ∀ σ, Settles setting marked a k (.nonterminal n :: σ) σ := by
  -- what a production begins with costs less effort than its head
  induction he : effort n using Nat.strongRecOn generalizing n with
  | _ e ih =>
    subst he
    obtain ⟨α, hα, hnull⟩ := ht.nullable_supported n hn
    obtain ⟨i, hi, rfl⟩ := exists_select ht hα (First.mem_lookaheads.2 (.inl ⟨hnull, ha⟩))
    obtain ⟨k₁, hk₁, hk₁', h₁⟩ := settles_vanish_along ht marked ha
      (fun m hm hm' ha' => ih (effort m) hm hm' ha' rfl) _ [] hα 0 (ht.paced n _ hα) hnull
    obtain ⟨k₂, hk₂, hk₂', h₂⟩ := settles_ending setting marked a (State.production setting n i)
    refine ⟨k₁ + k₂ + 1, ?_, fun σ => .expand hi ((h₁ _).trans (h₂ σ))⟩
    -- a production without symbols costs its expansion only
    by_cases hempty : State.production setting n i = []
    · have := hk₁' hempty
      have := hk₂' hempty
      have := ht.effort_pos n
      omega
    · have := hk₁ hempty
      omega

/-- The way to a terminal that the rest of a production of `n` can begin with, if the way is known
for its nonterminals. -/
theorem settles_match_along (marked : Bool) {n : Nonterminal} {x : Token.Kind}
    (ih : ∀ m, effort m < effort n → x ∈ (setting.tables.first.getD m First.none).terminals →
      ∃ k ≤ effort m, ∃ τ : List Item, τ.length ≤ (longest + 1) * effort m ∧
        ∀ σ, Settles setting marked (.token x) k (.nonterminal m :: σ) (.terminal x :: (τ ++ σ)))
    (γ : Production Nonterminal Token.Kind) :
    ∀ β, β ++ γ ∈ setting.tables.grammar.alternatives n → ∀ spent,
      paces setting.tables.first effort (effort n) spent γ = true →
      x ∈ (firstOf setting.tables.first γ).terminals →
        ∃ k e, spent + k + 1 ≤ effort n ∧ e + 1 ≤ effort n ∧ ∃ τ : List Item,
          τ.length + 1 ≤ (longest + 1) * e + γ.length ∧
          ∀ σ, Settles setting marked (.token x) k (γ.map Item.ofSymbol ++ σ)
            (.terminal x :: (τ ++ σ)) := by
  induction γ with
  | nil =>
    intro _ _ _ _ hx
    simp at hx
  | cons y γ ihγ =>
    intro β hβ spent hp hx
    cases y with
    | terminal y =>
      obtain rfl : x = y := by simpa using hx
      simp only [paces, decide_eq_true_eq] at hp
      exact ⟨0, 0, by omega, by omega, γ.map Item.ofSymbol, by simp, fun σ => .refl _⟩
    | nonterminal m =>
      simp only [paces, Bool.and_eq_true, decide_eq_true_eq] at hp
      rw [mem_firstOf_nonterminal] at hx
      rcases hx with hx | ⟨hnull, hx⟩
      · -- the terminal is reached inside the nonterminal
        obtain ⟨k, hk, τ, hτ, h⟩ := ih m (by omega) hx
        refine ⟨k, effort m, by omega, by omega, τ ++ γ.map Item.ofSymbol, ?_, fun σ => ?_⟩
        · simp only [List.length_append, List.length_map, List.length_cons]
          omega
        · rw [List.append_assoc]
          exact h (γ.map Item.ofSymbol ++ σ)
      · -- the nonterminal vanishes, since the terminal can stand behind it
        have hm : .token x ∈ setting.tables.follow.getD m [] :=
          ht.follow_closed n _ hβ β m γ rfl _ (First.mem_lookaheads.2 (.inr ⟨x, hx, rfl⟩))
        obtain ⟨k₁, hk₁, h₁⟩ := settles_vanish ht marked hnull hm
        rw [hnull, Bool.not_true, Bool.false_or] at hp
        obtain ⟨k₂, e, hk₂, he, τ, hτ, h₂⟩ :=
          ihγ (β ++ [.nonterminal m]) (by simpa using hβ) _ hp.2 hx
        refine ⟨k₁ + k₂, e, by omega, he, τ, ?_, fun σ => (h₁ _).trans (h₂ σ)⟩
        rw [List.length_cons]
        omega

/-- A terminal that a nonterminal can begin with is reached by expansions. -/
theorem settles_match (marked : Bool) {n : Nonterminal} {x : Token.Kind}
    (hx : x ∈ (setting.tables.first.getD n First.none).terminals) :
    ∃ k ≤ effort n, ∃ τ : List Item, τ.length ≤ (longest + 1) * effort n ∧
      ∀ σ, Settles setting marked (.token x) k (.nonterminal n :: σ)
        (.terminal x :: (τ ++ σ)) := by
  induction he : effort n using Nat.strongRecOn generalizing n with
  | _ e ih =>
    subst he
    obtain ⟨α, hα, hxα⟩ := ht.first_supported n x hx
    obtain ⟨i, hi, rfl⟩ := exists_select ht hα (First.mem_lookaheads.2 (.inr ⟨x, hxα, rfl⟩))
    obtain ⟨k, e, hk, he, τ, hτ, h⟩ := settles_match_along ht marked
      (fun m hm hm' => ih (effort m) hm hm' rfl) (State.production setting n i) [] hα 0
      (ht.paced n _ hα) hxα
    have hlen := ht.length_le n _ hα
    have hend := length_ending_le marked (State.production setting n i)
    refine ⟨k + 1, by omega, τ ++ ending marked (State.production setting n i), ?_, fun σ => ?_⟩
    · have : (longest + 1) * (e + 1) ≤ (longest + 1) * effort n := Nat.mul_le_mul_left _ he
      rw [Nat.mul_add, Nat.mul_one] at this
      rw [List.length_append]
      omega
    · rw [List.append_assoc]
      exact .expand hi (h _)

/-- A lookahead that selects an alternative of a nonterminal can begin the nonterminal, or the
nonterminal can vanish before it. -/
theorem begins_or_vanishes {n : Nonterminal} {i : Nat} (hi : setting.tables.select? n a = some i) :
    (∃ x, a = .token x ∧ x ∈ (setting.tables.first.getD n First.none).terminals) ∨
      (setting.tables.first.getD n First.none).nullable = true ∧
        a ∈ setting.tables.follow.getD n [] := by
  obtain ⟨α, hα, ha⟩ := (ht.select_iff n a i).1 hi
  have hin := ht.first_closed n α (List.mem_of_getElem? hα)
  rcases First.mem_lookaheads.1 ha with ⟨hnull, ha⟩ | ⟨x, hx, rfl⟩
  · exact .inr ⟨hin.nullable hnull, ha⟩
  · exact .inl ⟨x, rfl, hin.terminals x hx⟩

/-- **Every stack settles.**  Either it is used up to its bottom, or the terminal that is seen comes
to its top, or its top does not fit, and then it is what was left of the stack from the
beginning. -/
theorem exists_settles (marked : Bool) (a : Lookahead) (σ : List Item) :
    ∃ k τ, Settles setting marked a k σ τ ∧ k ≤ most * σ.length ∧
      ((τ = [] ∨ ∃ ρ, τ = .bottom :: ρ) ∨
        (∃ kind ρ, τ = .terminal kind :: ρ ∧ a = .token kind ∧
          ρ.length ≤ σ.length + (longest + 1) * most) ∨
        Stuck setting a τ ∧ τ <:+ σ ∧ k + most * τ.length ≤ most * σ.length) := by
  induction σ with
  | nil => exact ⟨0, [], .refl _, by simp, .inl (.inl rfl)⟩
  | cons item σ ih =>
    -- what holds of the rest of the stack holds of the stack once its top is gone
    have hstep : ∀ j ≤ most, Settles setting marked a j (item :: σ) σ →
        ∃ k τ, Settles setting marked a k (item :: σ) τ ∧ k ≤ most * (item :: σ).length ∧
          ((τ = [] ∨ ∃ ρ, τ = .bottom :: ρ) ∨
            (∃ kind ρ, τ = .terminal kind :: ρ ∧ a = .token kind ∧
              ρ.length ≤ (item :: σ).length + (longest + 1) * most) ∨
            Stuck setting a τ ∧ τ <:+ item :: σ ∧
              k + most * τ.length ≤ most * (item :: σ).length) := by
      intro j hj h
      obtain ⟨k, τ, hk, hle, hcase⟩ := ih
      rw [List.length_cons, Nat.mul_add, Nat.mul_one]
      refine ⟨j + k, τ, h.trans hk, by omega, ?_⟩
      rcases hcase with hend | ⟨kind, ρ, rfl, rfl, hρ⟩ | ⟨hstuck, hsuffix, hlen⟩
      · exact .inl hend
      · exact .inr (.inl ⟨kind, ρ, rfl, rfl, by omega⟩)
      · exact .inr (.inr ⟨hstuck, hsuffix.trans (List.suffix_cons _ _), by omega⟩)
    -- one move must be within the bound for one item
    have hmost := Nat.le_trans (ht.effort_pos default) (ht.effort_le default)
    cases item with
    | bottom => exact ⟨0, _, .refl _, by omega, .inl (.inr ⟨σ, rfl⟩)⟩
    | endOfProduction => exact hstep 1 hmost (.mark (.refl σ))
    | terminal kind =>
      refine ⟨0, _, .refl _, by omega, .inr ?_⟩
      by_cases hkind : a = .token kind
      · exact .inl ⟨kind, σ, rfl, hkind, by rw [List.length_cons]; omega⟩
      · exact .inr ⟨hkind, List.suffix_rfl, by omega⟩
    | nonterminal n =>
      cases hi : setting.tables.select? n a with
      | none => exact ⟨0, _, .refl _, by omega, .inr (.inr ⟨hi, List.suffix_rfl, by omega⟩)⟩
      | some i =>
        have hle := ht.effort_le n
        rcases begins_or_vanishes ht hi with ⟨x, rfl, hx⟩ | ⟨hnull, ha⟩
        · obtain ⟨k, hk, τ, hτ, h⟩ := settles_match ht marked hx
          have : (longest + 1) * effort n ≤ (longest + 1) * most := Nat.mul_le_mul_left _ hle
          refine ⟨k, _, h σ, ?_, .inr (.inl ⟨x, _, rfl, rfl, ?_⟩)⟩
          · rw [List.length_cons, Nat.mul_add, Nat.mul_one]
            omega
          · rw [List.length_append, List.length_cons]
            omega
        · obtain ⟨k, hk, h⟩ := settles_vanish ht marked hnull ha
          exact hstep k (Nat.le_trans hk hle) (h σ)

end

end Parse

end Bistro
