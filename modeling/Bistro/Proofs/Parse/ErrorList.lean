import Bistro.Proofs.Parse.FirstError

/-!
# The list of errors

While the machine goes on, all it has reported are mismatches: terminals that did not fit what was
to be found.  It goes on only as long as there are fewer of them than the limit allows.  When it
gives up, it says so behind the last mismatch and on its line, and when it ends before the last
token, it says that instead.

Tokens are only ever consumed or passed over.  So the machine never goes back to an earlier line, if
the lines of the tokens do not.

## Main definitions

* `SyntaxError.isMismatch` — an error at a terminal that does not fit.
* `Parse.WellShaped` — the shape of a list of errors.
* `Parse.Noting` — what holds of the errors while the machine goes on.
* `Parse.Ascending` — no error is on a later line than the machine.

## Main results

* `Parse.Noting.step`, `Parse.Ascending.step` — steps keep what holds of the errors.
* `Parse.exists_last_state` — how a run ends.
* `Parse.errors_well_shaped` — **the errors of every outcome are well shaped.**
-/

namespace Bistro

/-- Whether an error is about a terminal that does not fit. -/
def SyntaxError.isMismatch : SyntaxError → Bool
  | expected .. | unexpected .. => true
  | unrecoverable _ | incomplete _ => false

namespace Parse

variable {setting : Setting} {s s' : State} {tokens : List Token}

/-- The shape of a list of errors, if a number of them is allowed. -/
structure WellShaped (allowed : Nat) (errors : List SyntaxError) : Prop where
  /-- There are at most as many as allowed, and one at the end that tells of the others. -/
  length_le : errors.length ≤ max allowed 1 + 1
  /-- All but the last one are mismatches. -/
  mismatches : ∀ e ∈ errors.dropLast, e.isMismatch = true
  /-- The machine gave up on the line of the error before. -/
  unrecoverable : ∀ before line, errors = before ++ [.unrecoverable line] →
    ∃ e ∈ before.getLast?, e.line = line

theorem errorAt_isMismatch (setting : Setting) (s : State) :
    (errorAt setting s).isMismatch = true := by
  obtain ⟨names, context, h⟩ | ⟨context, h⟩ := errorAt_cases setting s <;> rw [h] <;> rfl

/-! ### While the machine goes on -/

/-- What holds of the errors while the machine goes on. -/
structure Noting (setting : Setting) (tokens : List Token) (s : State) : Prop where
  /-- The tokens ahead are the last ones of the row. -/
  ahead : s.ahead <:+ tokens
  /-- All errors so far are mismatches. -/
  mismatches : ∀ e ∈ s.errors, e.isMismatch = true
  /-- There are fewer errors than allowed. -/
  fewer : s.errors.length < max setting.limits.maxSyntaxErrors 1

theorem Noting.initial (setting : Setting) (start : Nonterminal) (tokens : List Token) :
    Noting setting tokens (State.initial start tokens) :=
  ⟨List.suffix_rfl, nofun, Nat.lt_of_lt_of_le Nat.zero_lt_one (Nat.le_max_right _ _)⟩

/-- The machine goes on only if the error was not one too many. -/
theorem errors_lt_of_stumble (h : stumble setting s = .running s') :
    s'.errors.length < setting.limits.maxSyntaxErrors := by
  rw [stumble_errors h]
  unfold stumble at h
  dsimp only at h
  split at h
  · cases h
  · next hfew => exact Nat.not_le.1 hfew

/-- A step consumes tokens from the front. -/
theorem step_ahead (h : step setting s = .running s') : s'.ahead <:+ s.ahead := by
  rcases step_cases setting s with hbottom | ⟨s₁, hq⟩ | hstuck
  · cases hbottom.step_eq.symm.trans h
  · obtain rfl := Step.running.inj (hq.step_eq.symm.trans h)
    exact hq.ahead_suffix
  · rw [hstuck.step_eq] at h
    exact (stumble_height (Nat.le_max_left _ _) (Nat.le_max_right _ _) h).1

theorem Noting.step (hs : Noting setting tokens s) (h : step setting s = .running s') :
    Noting setting tokens s' := by
  obtain ⟨hahead, hmismatches, hfewer⟩ := hs
  have hahead' := (step_ahead h).trans hahead
  rcases step_cases setting s with hbottom | ⟨s₁, hq⟩ | hstuck
  · cases hbottom.step_eq.symm.trans h
  · obtain rfl := Step.running.inj (hq.step_eq.symm.trans h)
    exact ⟨hahead', hq.errors_eq ▸ hmismatches, hq.errors_eq ▸ hfewer⟩
  · rw [hstuck.step_eq] at h
    have hfewer' := Nat.lt_of_lt_of_le (errors_lt_of_stumble h) (Nat.le_max_left _ 1)
    refine ⟨hahead', fun e he => ?_, hfewer'⟩
    rw [stumble_errors h] at he
    rcases List.mem_append.1 he with he | he
    · exact hmismatches e he
    · rw [List.mem_singleton.1 he]
      exact errorAt_isMismatch setting s

theorem Noting.of_reaches {s₀ : State} (hs : Noting setting tokens s₀)
    (hreach : Reaches setting s₀ s) : Noting setting tokens s := by
  induction hreach with
  | refl => exact hs
  | tail _ hstep ih => exact ih.step hstep

/-! ### Lines -/

/-- The lines do not decrease. -/
def Ordered (lines : List Nat) : Prop := lines.Pairwise (· ≤ ·)

theorem Ordered.append_singleton {lines : List Nat} {line : Nat} (h : Ordered lines)
    (hle : ∀ l ∈ lines, l ≤ line) : Ordered (lines ++ [line]) := by
  refine List.pairwise_append.2 ⟨h, List.pairwise_singleton _ _, fun l hl l' hl' => ?_⟩
  rw [List.mem_singleton.1 hl']
  exact hle l hl

/-- Behind a token there are only tokens of later lines. -/
theorem line_le_of_suffix (htokens : Ordered (tokens.map Token.line))
    (hend : setting.endLine = tokens.getLast?.elim 1 Token.line) (hs : s.ahead <:+ tokens)
    (hs' : s'.ahead <:+ s.ahead) : s.line setting ≤ s'.line setting := by
  cases hahead : s.ahead with
  | nil =>
    have : s'.ahead = [] := List.suffix_nil.1 (hahead ▸ hs')
    simp [State.line, hahead, this]
  | cons t ahead =>
    rw [hahead] at hs hs'
    obtain ⟨consumed, rfl⟩ := hs
    have hlater : ∀ u ∈ t :: ahead, t.line ≤ u.line := by
      rw [Ordered, List.map_append] at htokens
      have := (List.pairwise_append.1 htokens).2.1
      intro u hu
      rcases List.mem_cons.1 hu with rfl | hu
      · exact Nat.le_refl _
      · exact (List.pairwise_cons.1 this).1 _ (List.mem_map_of_mem hu)
    simp only [State.line, hahead]
    cases hahead' : s'.ahead with
    | nil =>
      -- the machine is on the line of the last token now
      rw [List.getLast?_append_of_ne_nil _ (List.cons_ne_nil t ahead)] at hend
      rw [hend, List.getLast?_eq_some_getLast (List.cons_ne_nil t ahead)]
      exact hlater _ (List.getLast_mem _)
    | cons u ahead' => exact hlater u (hs'.mem (hahead' ▸ List.mem_cons_self))

/-- The lines of the errors do not decrease, and none is behind the line of the machine. -/
structure Ascending (setting : Setting) (s : State) : Prop where
  /-- The lines do not decrease. -/
  ordered : Ordered (s.errors.map SyntaxError.line)
  /-- No error is on a later line than the machine. -/
  le : ∀ e ∈ s.errors, e.line ≤ s.line setting

/-- An error on the line of the machine can be added. -/
theorem Ascending.ordered_append (h : Ascending setting s) {e : SyntaxError}
    (he : e.line = s.line setting) : Ordered ((s.errors ++ [e]).map SyntaxError.line) := by
  rw [List.map_append]
  refine h.ordered.append_singleton fun line hline => ?_
  obtain ⟨e', he', rfl⟩ := List.mem_map.1 hline
  rw [he]
  exact h.le e' he'

theorem Ascending.step (htokens : Ordered (tokens.map Token.line))
    (hend : setting.endLine = tokens.getLast?.elim 1 Token.line) (hs : s.ahead <:+ tokens)
    (hasc : Ascending setting s) (h : step setting s = .running s') : Ascending setting s' := by
  have hline := line_le_of_suffix htokens hend hs (step_ahead h)
  rcases step_errors h with hq | herrors
  · have herrors := hq.errors_eq
    exact ⟨herrors ▸ hasc.ordered, fun e he => (hasc.le e (herrors ▸ he)).trans hline⟩
  · refine ⟨?_, fun e he => ?_⟩
    · rw [herrors]
      exact hasc.ordered_append (errorAt_line setting s)
    · rw [herrors] at he
      rcases List.mem_append.1 he with he | he
      · exact (hasc.le e he).trans hline
      · rw [List.mem_singleton.1 he, errorAt_line]
        exact hline

theorem Ascending.of_reaches (htokens : Ordered (tokens.map Token.line))
    (hend : setting.endLine = tokens.getLast?.elim 1 Token.line) {start : Nonterminal}
    (hreach : Reaches setting (State.initial start tokens) s) : Ascending setting s := by
  induction hreach with
  | refl => exact ⟨List.Pairwise.nil, nofun⟩
  | tail hreach hstep ih =>
    exact ih.step htokens hend ((Noting.initial setting start tokens).of_reaches hreach).ahead hstep

/-! ### How a run ends -/

/-- The errors at the end of a run are those at a state that it reaches, and perhaps one that tells
of tokens behind the program, or a mismatch at which the machine gives up. -/
theorem exists_last_state (setting : Setting) (steps : Nat) (s : State) :
    ∃ s', Reaches setting s s' ∧
      ((conclude setting (iterate setting steps s)).errors = s'.errors ∨
        (conclude setting (iterate setting steps s)).errors =
          s'.errors ++ [.incomplete (s'.line setting)] ∨
        (conclude setting (iterate setting steps s)).errors =
          s'.errors ++ [errorAt setting s', .unrecoverable (s'.line setting)]) := by
  induction steps generalizing s with
  | zero => exact ⟨s, .refl, .inl rfl⟩
  | succ steps ih =>
    rw [iterate]
    cases hstep : step setting s with
    | running s₁ =>
      obtain ⟨s', hreach, herrors⟩ := ih s₁
      exact ⟨s', .head hstep hreach, herrors⟩
    | finished s₁ =>
      obtain ⟨-, rfl⟩ := step_finished hstep
      refine ⟨s₁, .refl, ?_⟩
      simp only [conclude]
      split
      · exact .inl rfl
      · exact .inr (.inl rfl)
    | gaveUp s₁ =>
      refine ⟨s, .refl, .inr (.inr ?_)⟩
      rcases step_cases setting s with hbottom | ⟨s₂, hq⟩ | hstuck
      · cases hbottom.step_eq.symm.trans hstep
      · cases hq.step_eq.symm.trans hstep
      · rw [hstuck.step_eq] at hstep
        rcases stumble_cases setting s with ⟨s₂, h₂, herrors⟩ | ⟨r, -, h₂⟩ | ⟨s₂, -, h₂⟩
        · obtain rfl := Step.gaveUp.inj (h₂.symm.trans hstep)
          exact herrors
        · cases h₂.symm.trans hstep
        · cases h₂.symm.trans hstep

/-! ### Well shaped errors -/

/-- Mismatches alone, or with one that tells of tokens behind the program. -/
theorem Noting.wellShaped (h : Noting setting tokens s) {last : List SyntaxError}
    (hlast : last = [] ∨ ∃ line, last = [.incomplete line]) :
    WellShaped setting.limits.maxSyntaxErrors (s.errors ++ last) := by
  obtain ⟨-, hmismatches, hfewer⟩ := h
  rcases hlast with rfl | ⟨line, rfl⟩
  · rw [List.append_nil]
    refine ⟨by omega, fun e he => hmismatches e (List.dropLast_subset _ he), ?_⟩
    intro before line heq
    have := hmismatches (.unrecoverable line) (by simp [heq])
    cases this
  · have hlength : (s.errors ++ [SyntaxError.incomplete line]).length = s.errors.length + 1 := by
      simp
    refine ⟨by omega, fun e he => ?_, fun before line' heq => ?_⟩
    · rw [List.dropLast_concat] at he
      exact hmismatches e he
    · have := (List.append_inj' heq rfl).2
      cases this

/-- Mismatches, and then the machine gives up. -/
theorem Noting.wellShaped_gaveUp (h : Noting setting tokens s) :
    WellShaped setting.limits.maxSyntaxErrors
      (s.errors ++ [errorAt setting s, .unrecoverable (s.line setting)]) := by
  obtain ⟨-, hmismatches, hfewer⟩ := h
  rw [← List.singleton_append, ← List.append_assoc]
  have hlength : (s.errors ++ [errorAt setting s] ++
      [SyntaxError.unrecoverable (s.line setting)]).length = s.errors.length + 2 := by simp
  refine ⟨by omega, fun e he => ?_, fun before line heq => ?_⟩
  · rw [List.dropLast_concat] at he
    rcases List.mem_append.1 he with he | he
    · exact hmismatches e he
    · rw [List.mem_singleton.1 he]
      exact errorAt_isMismatch setting s
  · obtain ⟨rfl, hline⟩ := List.append_inj' heq rfl
    obtain rfl : s.line setting = line := by simpa using hline
    exact ⟨errorAt setting s, by simp, errorAt_line setting s⟩

/-- **The errors of every outcome are well shaped**, whatever the tokens and the limits are.  There
are none exactly if the tokens are accepted, and exactly then there is a tree.  There are at most as
many as the limit allows, which is at least one, and one more.  All but the last are mismatches.  If
the machine gave up, it did so on the line of the error before.  And if the lines of the tokens do
not decrease, those of the errors do not either. -/
theorem errors_well_shaped : ∃ tables, Language.tables = .ok tables ∧
    ∀ (limits : Limits) (tokens : List Token),
      let outcome := ofTokens tables limits tokens
      (outcome.success = true ↔ outcome.errors = []) ∧
      (outcome.errors = [] ↔ outcome.tree.isSome = true) ∧
      WellShaped limits.maxSyntaxErrors outcome.errors ∧
      (Ordered (tokens.map Token.line) → Ordered (outcome.errors.map SyntaxError.line)) := by
  obtain ⟨tables, htables, hgrammar, ht⟩ := Language.exists_tables
  refine ⟨tables, htables, fun limits tokens => ?_⟩
  have hg : ∀ n, (tables.grammar.alternatives n).Nodup := hgrammar ▸ Language.nodup_alternatives
  generalize hsetting : Setting.ofTokens tables limits tokens = setting
  have hend : setting.endLine = tokens.getLast?.elim 1 Token.line := by rw [← hsetting]; rfl
  obtain rfl : setting.tables = tables := by rw [← hsetting]; rfl
  obtain rfl : setting.limits = limits := by rw [← hsetting]; rfl
  rw [ofTokens_eq, hsetting]
  -- what is said of the outcome as a whole, and then what is said of the errors
  refine ⟨?_, ?_, ?_⟩
  · rcases outcome_cases ht tokens with ⟨hsuccess, herrors⟩ | ⟨hsuccess, herrors, -⟩
    · simp [hsuccess, herrors]
    · simp [hsuccess, herrors]
  · rcases outcome_cases ht tokens with ⟨hsuccess, herrors⟩ | ⟨-, herrors, htree⟩
    · obtain ⟨t, htree, -⟩ := exists_tree_of_success ht hg hsuccess
      simp [herrors, htree]
    · simp [herrors, htree]
  · obtain ⟨s, hreach, hcases⟩ := exists_last_state setting (maxSteps tokens.length)
      (State.initial setting.tables.grammar.start tokens)
    have hnoting := (Noting.initial setting _ tokens).of_reaches hreach
    have hascending := fun htokens => Ascending.of_reaches htokens hend hreach
    rcases hcases with herrors | herrors | herrors
    · rw [outcome, herrors]
      refine ⟨?_, fun htokens => (hascending htokens).ordered⟩
      simpa using hnoting.wellShaped (.inl rfl)
    · rw [outcome, herrors]
      refine ⟨hnoting.wellShaped (.inr ⟨_, rfl⟩), fun htokens => ?_⟩
      exact (hascending htokens).ordered_append rfl
    · rw [outcome, herrors]
      refine ⟨hnoting.wellShaped_gaveUp, fun htokens => ?_⟩
      -- the last two errors are on the same line
      have hasc := hascending htokens
      rw [← List.singleton_append, ← List.append_assoc, List.map_append]
      refine (hasc.ordered_append (errorAt_line setting s)).append_singleton fun line hline => ?_
      obtain ⟨e, he, rfl⟩ := List.mem_map.1 hline
      rcases List.mem_append.1 he with he | he
      · exact hasc.le e he
      · rw [List.mem_singleton.1 he, errorAt_line]
        exact Nat.le_refl _

end Parse

end Bistro
