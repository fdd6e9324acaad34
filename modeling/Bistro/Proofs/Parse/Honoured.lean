import Bistro.Proofs.Parse.Halting

/-!
# Repairs keep what their trials promise

A repair is chosen for the score of its trial, and the machine honours trials.  So behind a repair
it first matches the terminal that was inserted, if there is one.  Then it matches as many tokens as
the trial did, or it accepts the rest of the input, and until then it reports no error.

A trial that is good enough matches at least three tokens, unless it accepts the input, and no trial
matches more than it looks at.

## Main definitions

* `Parse.Score.AtMost` — a score of a limited number of tokens.
* `Parse.MatchesInserted` — the machine matches the terminal that was inserted.
* `Parse.Delivers` — the machine gets as far as a score says.

## Main results

* `Parse.Trial.iterate_atMost` — no trial matches more tokens than it looks at.
* `Parse.QuietRun.exists_match` — an inserted terminal is matched before any token.
* `Parse.QuietRun.reaches_of_stuck` — errors come behind what was done quietly.
* `Parse.repair_honoured` — **the machine honours every repair.**
-/

namespace Bistro.Parse

variable {setting : Setting} {s s' s₁ s₂ : State} {effort : Nonterminal → Nat} {k : Nat}

/-! ### Scores of trials -/

/-- A score of at most so many tokens. -/
def Score.AtMost (limit : Nat) : Score → Prop
  | matched count => count ≤ limit
  | accepted => True

namespace Trial

variable {t : Trial}

/-- A trial is over before it matches a token too many. -/
theorem move_atMost (setting : Setting) (hm : t.matched ≤ trialLength) :
    (t.move setting).score.AtMost trialLength := by
  unfold move
  split
  · exact hm
  next hlong =>
  have hlt : t.matched + 1 ≤ trialLength := Nat.not_le.1 hlong
  split
  · exact hm
  · split
    · trivial
    · exact hm
  · exact hm
  · next rest _ =>
    split
    · -- the only move that counts a token
      simp only [Move.score, Score.AtMost, matchTerminal_frame]
      split
      · exact hm
      · exact hlt
    · exact hm
  · split
    · exact hm
    · exact hm

/-- **No trial matches more tokens than it looks at.** -/
theorem iterate_atMost (hm : t.matched ≤ trialLength) (moves : Nat) :
    (t.iterate setting moves).score.AtMost trialLength := by
  induction moves generalizing t with
  | zero => exact hm
  | succ moves ih =>
    have hmove := move_atMost setting hm
    rw [iterate]
    cases h : t.move setting with
    | ended score => rwa [h] at hmove
    | going t' =>
      rw [h] at hmove
      exact ih hmove

end Trial

theorem score_atMost (setting : Setting) (s : State) (stack : List Item) (r : Repair) :
    (score setting s stack r).AtMost trialLength :=
  Trial.iterate_atMost (Nat.zero_le _) _

/-! ### The inserted terminal -/

/-- The machine comes from a state to another one by matching the terminal that was inserted, if
there is one.  No token is consumed until then. -/
def MatchesInserted (setting : Setting) (s s' : State) : Option Token.Kind → Prop
  | none => s' = s
  | some kind => ∃ k s₁ rest, QuietRun setting k s s₁ ∧ s₁.stack = .terminal kind :: rest ∧
      s₁.inserted = some kind ∧ s₁.ahead = s.ahead ∧ s' = s₁.matchTerminal setting kind rest

theorem MatchesInserted.exists_quietRun {insert : Option Token.Kind}
    (h : MatchesInserted setting s s' insert) :
    ∃ k, QuietRun setting k s s' := by
  cases insert with
  | none =>
    obtain rfl : s' = s := h
    exact ⟨0, .refl _⟩
  | some kind =>
    obtain ⟨k, s₁, rest, hrun, hstack, hins₁, -, rfl⟩ := h
    have hseen : s₁.lookahead = .token kind := by rw [State.lookahead, hins₁]; rfl
    exact ⟨k + 1, hrun.trans (.single (.terminal hstack hseen))⟩

/-- **An inserted terminal is matched before any token.** -/
theorem QuietRun.exists_match (h : QuietRun setting k s s₂) (hs₂ : s₂.inserted = none) :
    ∃ s₁ i, MatchesInserted setting s s₁ s.inserted ∧ QuietRun setting i s₁ s₂ ∧
      s₁.inserted = none ∧ s₁.ahead = s.ahead := by
  cases hins : s.inserted with
  | none => exact ⟨s, k, rfl, h, hins, rfl⟩
  | some kind =>
    induction h with
    | refl => cases hs₂.symm.trans hins
    | @head k s s' s₂ hq hrun ih =>
      -- until the match each step leaves the tokens and what is inserted as they are
      have hlater : s'.inserted = some kind → s'.ahead = s.ahead →
          ∃ s₁ i, MatchesInserted setting s s₁ (some kind) ∧ QuietRun setting i s₁ s₂ ∧
            s₁.inserted = none ∧ s₁.ahead = s.ahead := by
        intro hins' hahead'
        obtain ⟨s₁, i, ⟨j, s₀, rest, hj, hstack, hins₀, hahead₀, rfl⟩, hrun₁, hins₁, hahead₁⟩ :=
          ih hs₂ hins'
        exact ⟨_, i, ⟨j + 1, s₀, rest, .head hq hj, hstack, hins₀, hahead₀.trans hahead', rfl⟩,
          hrun₁, hins₁, hahead₁.trans hahead'⟩
      cases hq with
      | close htop => exact hlater (by simpa using hins) (by simp)
      | expand htop hi => exact hlater (by simpa using hins) (by simp)
      | @terminal kind' rest htop hseen =>
        rw [State.lookahead, hins] at hseen
        obtain rfl : kind = kind' := Grammar.Lookahead.token.inj hseen
        refine ⟨_, k, ⟨0, s, rest, .refl s, htop, hins, rfl, rfl⟩, hrun, by simp, ?_⟩
        rw [State.matchTerminal_ahead, hins]
        rfl

/-! ### Errors behind quiet steps -/

/-- **Errors come behind what was done quietly.** -/
theorem QuietRun.reaches_of_stuck (h : QuietRun setting k s s₁) (hreach : Reaches setting s s₂)
    (hstuck : Stuck setting s₂.lookahead s₂.stack) : Reaches setting s₁ s₂ := by
  induction h with
  | refl => exact hreach
  | head hq _ ih =>
    rcases hreach.cases_head with rfl | ⟨s', hstep, hreach'⟩
    · exact absurd hstuck hq.not_stuck
    · obtain rfl := Step.running.inj (hq.step_eq.symm.trans hstep)
      exact ih hreach'

theorem AtBottom.not_stuck_of_reaches (h : AtBottom s) (hreach : Reaches setting s s') :
    ¬ Stuck setting s'.lookahead s'.stack := by
  intro hstuck
  rcases hreach.cases_head with rfl | ⟨s₁, hstep, -⟩
  · exact hstuck.not_atBottom h
  · cases h.step_eq.symm.trans hstep

/-! ### Repairs -/

/-- The machine gets as far as a score says before it reports an error: it matches so many tokens,
and whatever error there is comes behind them, or it consumes the whole input and is done. -/
def Delivers (setting : Setting) (s : State) : Score → Prop
  | .matched count => 3 ≤ count ∧ count ≤ 32 ∧
      ∃ k s' row, QuietRun setting k s s' ∧ s.ahead = row ++ s'.ahead ∧ row.length = count ∧
        ∀ s₂, Reaches setting s s₂ → Stuck setting s₂.lookahead s₂.stack → Reaches setting s' s₂
  | .accepted => ∃ k s', QuietRun setting k s s' ∧ AtBottom s' ∧ s'.ahead = [] ∧
      ∀ s₂, Reaches setting s s₂ → ¬ Stuck setting s₂.lookahead s₂.stack

/-- The machine with a repair first matches what was inserted and then delivers what the trial of
the repair promised. -/
theorem exists_delivers (ht : setting.tables.Paced effort 9 16) {r : Repair}
    (h : repair? setting s = some r) :
    ∃ s₁, MatchesInserted setting (s.apply r) s₁ r.insert ∧ s₁.inserted = none ∧
      s₁.ahead = (s.apply r).ahead ∧ Delivers setting s₁ (score setting s (r.stack s) r) := by
  obtain ⟨-, -, henough⟩ := repair?_spec h
  have hmost := score_atMost setting s (r.stack s) r
  obtain ⟨score, hscore⟩ := exists_score ht s (r.stack s) r
  rw [Parse.score, hscore, Trial.Move.score] at henough hmost ⊢
  have hshadows : (Trial.ofRepair s (r.stack s) r).Shadows (s.apply r) := ⟨rfl, rfl, rfl⟩
  obtain ⟨k, s₂, hrun, hreached⟩ := Trial.honoured hscore hshadows
  cases score with
  | accepted =>
    obtain ⟨hbottom, hend⟩ := hreached
    have hins := inserted_of_atEnd hend
    have hahead : s₂.ahead = [] := by
      rw [State.lookahead, hins] at hend
      cases ha : s₂.ahead with
      | nil => rfl
      | cons t ahead => rw [ha] at hend; cases hend
    obtain ⟨s₁, i, hmatch, hrun₁, hins₁, hahead₁⟩ := hrun.exists_match hins
    refine ⟨s₁, hmatch, hins₁, hahead₁, i, s₂, hrun₁, hbottom, hahead, fun s₃ hreach hstuck => ?_⟩
    exact hbottom.not_stuck_of_reaches (hrun₁.reaches_of_stuck hreach hstuck) hstuck
  | matched count =>
    obtain ⟨hlen, hins⟩ := hreached
    have hcount : 3 ≤ count := of_decide_eq_true henough
    have hmatched : (Trial.ofRepair s (r.stack s) r).matched = 0 := rfl
    rw [hmatched] at hlen hins
    obtain ⟨s₁, i, hmatch, hrun₁, hins₁, hahead₁⟩ := hrun.exists_match (hins (by omega))
    obtain ⟨row, hrow⟩ := hrun₁.ahead_suffix
    have hlength : row.length = count := by
      have := congrArg List.length hrow
      rw [List.length_append, hahead₁] at this
      omega
    exact ⟨s₁, hmatch, hins₁, hahead₁, hcount, hmost, i, s₂, row, hrun₁, hrow.symm, hlength,
      fun s₃ hreach hstuck => hrun₁.reaches_of_stuck hreach hstuck⟩

/-- With a repair the machine goes on, unless the error was one too many. -/
theorem Stuck.step_of_repair (hstuck : Stuck setting s.lookahead s.stack) {r : Repair}
    (h : repair? setting (reported setting s) = some r)
    (hlimit : s.errors.length + 1 < setting.limits.maxSyntaxErrors) :
    step setting s = .running ((reported setting s).apply r) := by
  have hless : ¬ setting.limits.maxSyntaxErrors ≤ (reported setting s).errors.length := by
    simpa [reported] using hlimit
  rw [hstuck.step_eq]
  unfold stumble
  dsimp only
  split
  · next hle => exact absurd hle hless
  · split
    · next hr =>
      obtain rfl := Option.some.inj (h.symm.trans hr)
      rfl
    · next hnone => cases h.symm.trans hnone

/-- **The machine honours every repair**, whatever the tokens and the limits are.  At no error is
anything inserted.  If there is a repair, the machine goes on with it, unless the error was one too
many, and it first matches the terminal that was inserted, if there is one.  Then it gets as far as
the trial of the repair: it matches as many tokens, from three to thirty-two, before it reports the
next error, or it consumes the whole input and reports none. -/
theorem repair_honoured : ∃ tables, Language.tables = .ok tables ∧
    ∀ (limits : Limits) (tokens : List Token),
      let setting := Setting.ofTokens tables limits tokens
      ∀ s, Reaches setting (State.initial tables.grammar.start tokens) s →
        Stuck setting s.lookahead s.stack →
        s.inserted = none ∧ ∀ r, repair? setting (reported setting s) = some r →
          (s.errors.length + 1 < limits.maxSyntaxErrors →
            step setting s = .running ((reported setting s).apply r)) ∧
          ∃ s₁, MatchesInserted setting ((reported setting s).apply r) s₁ r.insert ∧
            s₁.inserted = none ∧ s₁.ahead = ((reported setting s).apply r).ahead ∧
            Delivers setting s₁
              (score setting (reported setting s) (r.stack (reported setting s)) r) := by
  obtain ⟨tables, htables, -, ht⟩ := Language.exists_tables
  refine ⟨tables, htables, fun limits tokens => ?_⟩
  intro setting s hreach hstuck
  have ht : setting.tables.Paced Language.effort 9 16 := ht
  refine ⟨inserted_eq_none_of_stuck ht hreach hstuck, fun r hr => ⟨?_, exists_delivers ht hr⟩⟩
  exact hstuck.step_of_repair hr

end Bistro.Parse
