import Bistro.Proofs.Language.Tables
import Bistro.Proofs.Parse.Recovery
import Mathlib.Tactic.Ring

/-!
# The machine halts

On one token the machine makes a bounded number of quiet steps.  Then it matches the token, comes to
the bottom of its stack, or stumbles.  After an error at which it goes on, it either gets past the
token or stays at it with a lower stack.  So the tokens ahead and the height of the stack decrease
lexicographically from error to error and from match to match, and as every match lets the stack
grow by a bounded number of items, the steps are bounded by a polynomial in the number of tokens.

## Main definitions

* `Parse.Grounded` — the stack has a bottom.
* `Parse.Halts` — the machine halts within a number of steps.
* `Parse.Reaches` — any number of steps.
* `Parse.Unfolds`, `Parse.Unfolding` — expansions by productions with symbols.

## Main results

* `Parse.halts_within`, `Parse.halts_initial` — **the machine halts** within the steps it is given.
* `Parse.inserted_eq_none_of_stuck` — no error is reported at an inserted terminal.
* `Parse.stack_lt_of_errors` — between errors at one token the stack becomes lower.
* `Parse.unfolding_le` — expansions in a row are bounded.
-/

namespace Bistro.Parse

variable {setting : Setting} {s s' s₁ s₂ : State} {effort : Nonterminal → Nat}

/-! ### The bottom of the stack -/

/-- The stack has a bottom, and so has the one after the last match. -/
structure Grounded (s : State) : Prop where
  /-- The stack has a bottom. -/
  stack : [.bottom] <:+ s.stack
  /-- The stack after the last match has a bottom. -/
  checkpoint : [.bottom] <:+ s.checkpoint

theorem Grounded.initial (start : Nonterminal) (tokens : List Token) :
    Grounded (State.initial start tokens) :=
  ⟨List.suffix_cons _ _, List.suffix_cons _ _⟩

theorem Grounded.quiet (hs : Grounded s) (h : Quiet setting s s') : Grounded s' := by
  have hstack := hs.stack
  have hcheckpoint := hs.checkpoint
  -- what is below the item on top has a bottom, as this item is none
  have hrest : ∀ {x rest}, s.stack = x :: rest → x ≠ .bottom → [.bottom] <:+ rest := by
    intro x rest hx hne
    rw [hx] at hstack
    refine (List.suffix_cons_iff.1 hstack).resolve_left fun heq => ?_
    exact hne (List.cons.inj heq).1.symm
  cases h with
  | close h => exact ⟨by simpa using hrest h (by simp), by simpa using hcheckpoint⟩
  | terminal h hk => exact ⟨by simpa using hrest h (by simp), by simpa using hrest h (by simp)⟩
  | expand h hi =>
    refine ⟨?_, by simpa using hcheckpoint⟩
    rw [State.expand_stack]
    exact ((hrest h (by simp)).trans (List.suffix_append _ _)).trans (List.suffix_append _ _)

theorem Grounded.quietRun {k : Nat} (hs : Grounded s) (h : QuietRun setting k s s') :
    Grounded s' := by
  induction h with
  | refl => exact hs
  | head hq _ ih => exact ih (hs.quiet hq)

theorem Grounded.stumble (hs : Grounded s) (h : stumble setting s = .running s') :
    Grounded s' := by
  rcases stumble_running_cases h with ⟨r, -, rfl⟩ | ⟨ahead, ends, kept, -, hsync, rfl⟩
  · refine ⟨?_, hs.checkpoint⟩
    unfold State.apply
    dsimp only
    split
    · exact hs.checkpoint
    · exact hs.stack
  · have hkept := (syncPoint?_spec hsync).2.2 hs.stack
    exact ⟨hkept, hkept⟩

/-! ### Behind an error -/

/-- The machine quietly gets past a token. -/
def Advances (setting : Setting) (count : Nat) (s : State) : Prop :=
  ∃ k s', QuietRun setting k s s' ∧ Past count s'

theorem Past.of_quietRun {count k : Nat} (h : Past count s) (hrun : QuietRun setting k s s') :
    Past count s' := by
  obtain ⟨hins, hlt | hbottom⟩ := h
  · have := hrun.ahead_suffix.length_le
    exact ⟨hrun.inserted_eq_none hins, .inl (by omega)⟩
  · obtain rfl := hrun.eq_of_rest hbottom.rest
    exact ⟨hins, .inr hbottom⟩

theorem Advances.of_quietRun {count k : Nat} (h : Advances setting count s)
    (hrun : QuietRun setting k s s') : Advances setting count s' := by
  obtain ⟨j, s₁, hrun₁, hpast⟩ := h
  rcases hrun₁.total hrun with ⟨i, hi⟩ | ⟨i, hi⟩
  · exact ⟨0, s', .refl _, hpast.of_quietRun hi⟩
  · exact ⟨i, s₁, hi, hpast⟩

theorem Advances.past_of_rest {count : Nat} (h : Advances setting count s)
    (hs : ∀ s', ¬ Quiet setting s s') : Past count s := by
  obtain ⟨k, s₁, hrun, hpast⟩ := h
  rwa [hrun.eq_of_rest hs] at hpast

/-- After an error at which it goes on, the machine gets past the token, or it stays at it with a
lower stack. -/
theorem stumble_running (ht : setting.tables.Paced effort 9 16)
    (hstuck : Stuck setting s.lookahead s.stack) (hins : s.inserted = none)
    (h : stumble setting s = .running s') :
    Advances setting s.ahead.length s' ∨
      s'.ahead = s.ahead ∧ s'.inserted = none ∧ s'.stack.length < s.stack.length := by
  rcases stumble_running_cases h with ⟨r, hr, rfl⟩ | ⟨ahead, ends, kept, hahead, hsync, rfl⟩
  · exact .inl (repair_advances ht hr)
  · -- tokens were passed over, or the stack was cut at the first one
    rcases Nat.lt_or_ge ahead.length s.ahead.length with hlt | hge
    · exact .inl ⟨0, _, .refl _, by simpa [reported] using hins, .inl (by simpa using hlt)⟩
    · obtain rfl : ahead = s.ahead := hahead.eq_of_length_le hge
      exact .inr ⟨by simp, by simpa [reported] using hins, (syncPoint?_spec hsync).2.1 hstuck⟩

/-- No stack after an error is higher than those before it. -/
theorem stumble_height {h : Nat} (hstack : s.stack.length ≤ h)
    (hcheckpoint : s.checkpoint.length ≤ h)
    (hrun : stumble setting s = .running s') :
    s'.ahead <:+ s.ahead ∧ s'.stack.length ≤ h ∧ s'.checkpoint.length ≤ h := by
  rcases stumble_running_cases hrun with ⟨r, -, rfl⟩ | ⟨ahead, ends, kept, hahead, hsync, rfl⟩
  · refine ⟨?_, ?_, hcheckpoint⟩
    · unfold State.apply
      dsimp only
      split
      · exact List.tail_suffix _
      · exact List.suffix_rfl
    · unfold State.apply
      dsimp only
      split
      · exact hcheckpoint
      · exact hstack
  · have hkept := Nat.le_trans (syncPoint?_spec hsync).1.length_le hstack
    exact ⟨by simpa [reported] using hahead, hkept, hkept⟩

/-! ### Halting -/

/-- Within a number of steps the machine reaches the bottom of its stack or gives up. -/
def Halts (setting : Setting) (steps : Nat) (s : State) : Prop :=
  (∃ s' rest, iterate setting steps s = .finished s' ∧ s'.stack = .bottom :: rest) ∨
    ∃ s', iterate setting steps s = .gaveUp s'

/-- A machine that came to rest stays there. -/
theorem iterate_mono {j k : Nat} (h : j ≤ k) (hrun : ∀ s', iterate setting j s ≠ .running s') :
    iterate setting k s = iterate setting j s := by
  induction j generalizing k s with
  | zero => exact absurd rfl (hrun s)
  | succ j ih =>
    obtain ⟨k, rfl⟩ := Nat.exists_eq_add_of_le' (Nat.le_trans (Nat.le_add_left 1 j) h)
    cases hstep : step setting s with
    | running s₁ =>
      rw [iterate_of_running hstep, iterate_of_running hstep]
      rw [iterate_of_running hstep] at hrun
      exact ih (Nat.le_of_succ_le_succ h) hrun
    | finished s₁ | gaveUp s₁ => rw [iterate, iterate, hstep]

theorem Halts.mono {j k : Nat} (h : Halts setting j s) (hjk : j ≤ k) : Halts setting k s := by
  rcases h with ⟨s', rest, h, hstack⟩ | ⟨s', h⟩
  · exact .inl ⟨s', rest, by rw [iterate_mono hjk (by simp [h]), h], hstack⟩
  · exact .inr ⟨s', by rw [iterate_mono hjk (by simp [h]), h]⟩

theorem Halts.of_quietRun {j k : Nat} (hrun : QuietRun setting j s s₁) (h : Halts setting k s₁) :
    Halts setting (j + k) s := by
  unfold Halts
  rwa [hrun.iterate_eq]

theorem Halts.of_running {k : Nat} (hstep : step setting s = .running s₁) (h : Halts setting k s₁) :
    Halts setting (k + 1) s := by
  unfold Halts
  rwa [iterate_of_running hstep]

theorem Halts.of_atBottom (h : AtBottom s) (hs : Grounded s) : Halts setting 1 s := by
  have hfinished : iterate setting 1 s = .finished s := by rw [iterate, h.step_eq]
  rcases h with h | ⟨rest, h⟩
  · have := hs.stack
    simp [h] at this
  · exact .inl ⟨s, rest, hfinished, h⟩

/-- How many items higher the stack can be after a match. -/
def growth : Nat := 153

/-- A machine that gets past a token does so within a bounded number of steps: up to the match of
what is inserted, and up to the match of the token. -/
theorem exists_past (ht : setting.tables.Paced effort 9 16) {count m h : Nat}
    (hadv : Advances setting count s)
    (hm : s.ahead.length + 1 - count + (if s.inserted.isSome then 1 else 0) ≤ m)
    (hstack : s.stack.length ≤ h) (hcheckpoint : s.checkpoint.length ≤ h) :
    ∃ k s', QuietRun setting k s s' ∧ k ≤ (m + 1) * (9 * (h + growth * m) + 1) ∧
      s'.inserted = none ∧ (AtBottom s' ∨ s'.ahead.length < count ∧
        s'.stack.length ≤ h + growth * m ∧ s'.checkpoint.length ≤ h + growth * m) := by
  -- `m` bounds the matches that are left: that of the inserted terminal and those of tokens
  induction m generalizing s h with
  | zero =>
    have hins : s.inserted = none := by
      cases hi : s.inserted with
      | none => rfl
      | some kind => simp [hi] at hm
    exact ⟨0, s, .refl s, Nat.zero_le _, hins, .inr ⟨by omega, by omega, by omega⟩⟩
  | succ m ih =>
    have hgrowth : h + growth * (m + 1) = h + growth + growth * m := by ring
    by_cases hpast : s.inserted = none ∧ s.ahead.length < count
    · exact ⟨0, s, .refl s, Nat.zero_le _, hpast.1, .inr ⟨hpast.2, by omega, by omega⟩⟩
    -- up to the next match, the bottom or an error
    obtain ⟨k, s₁, hrun, halike, hk, hcase⟩ := exists_quietRun ht s
    have hk : k ≤ 9 * (h + growth * (m + 1)) := by omega
    have hadv₁ := hadv.of_quietRun hrun
    rcases hcase with hbottom | ⟨kind, rest, htop, hseen, hrest⟩ | ⟨hstuck, -, -⟩
    · exact ⟨k, s₁, hrun, by rw [Nat.succ_mul]; omega, (hadv₁.past_of_rest hbottom.rest).1,
        .inl hbottom⟩
    · -- one match nearer
      have hq : Quiet setting s₁ (s₁.matchTerminal setting kind rest) := .terminal htop hseen
      have hm' : (s₁.matchTerminal setting kind rest).ahead.length + 1 - count +
          (if (s₁.matchTerminal setting kind rest).inserted.isSome then 1 else 0) ≤ m := by
        rw [State.matchTerminal_ahead, halike.inserted]
        cases hi : s.inserted with
        | some _ =>
          simp only [hi, Option.isSome_some, if_true] at hm
          simp [halike.ahead]
          omega
        | none =>
          obtain ⟨t, ahead, hahead, -⟩ := State.exists_ahead hseen (halike.inserted.trans hi)
          have : s.ahead.length = ahead.length + 1 := by rw [← halike.ahead, hahead]; rfl
          have : ¬ s.ahead.length < count := fun hlt => hpast ⟨hi, hlt⟩
          simp only [hi, Option.isSome_none] at hm
          simp [hahead]
          omega
      have hgrow : rest.length ≤ h + growth := by
        unfold growth
        omega
      obtain ⟨k', s', hrun', hk', hins, hend⟩ := ih (hadv₁.of_quietRun (.single hq)) hm'
        (by simpa using hgrow) (by simpa using hgrow)
      refine ⟨k + 1 + k', s', (hrun.trans (.single hq)).trans hrun', ?_, hins, ?_⟩
      · rw [Nat.succ_mul, hgrowth]
        omega
      · rwa [hgrowth]
    · -- where the machine is stuck it is past the token, and so it was from the beginning
      obtain ⟨hins, hlt | hbottom⟩ := hadv₁.past_of_rest hstuck.rest
      · exact absurd ⟨halike.inserted.symm.trans hins, halike.ahead ▸ hlt⟩ hpast
      · exact absurd hbottom hstuck.not_atBottom

/-- The steps on one token, if no stack is higher than `h` when it is first seen. -/
def tokenSteps (h : Nat) : Nat := 10 * h + 3 * (9 * (h + growth * 2) + 1) + 2

/-- The steps with a number of tokens ahead, if no stack is higher than `h`. -/
def haltSteps : Nat → Nat → Nat
  | 0, h => tokenSteps h
  | tokens + 1, h => tokenSteps h + haltSteps tokens (h + growth * 2)

/-- What is left of a run on one token, if it is known how long runs on fewer tokens are: the stack
becomes lower from error to error. -/
theorem halts_of_fewer (ht : setting.tables.Paced effort 9 16) {later h : Nat}
    (hs : Grounded s) (hins : s.inserted = none)
    (hstack : s.stack.length ≤ h) (hcheckpoint : s.checkpoint.length ≤ h)
    (ih : ∀ s' : State, Grounded s' → s'.inserted = none → s'.ahead.length < s.ahead.length →
      s'.stack.length ≤ h + growth * 2 → s'.checkpoint.length ≤ h + growth * 2 →
      Halts setting later s') :
    Halts setting (10 * s.stack.length + 3 * (9 * (h + growth * 2) + 1) + 2 + later) s := by
  -- on the height of the stack, as a cut at the same token lowers it and a repair passes the token
  induction hn : s.stack.length using Nat.strongRecOn generalizing s with
  | _ n ihn =>
    subst hn
    obtain ⟨k, s₁, hrun, halike, hk, hcase⟩ := exists_quietRun ht s
    have hs₁ := hs.quietRun hrun
    rcases hcase with hbottom | ⟨kind, rest, htop, hseen, hrest⟩ | ⟨hstuck, hsuffix, hcost⟩
    · exact (Halts.of_quietRun hrun (.of_atBottom hbottom hs₁)).mono (by omega)
    · -- the token is matched
      have hq : Quiet setting s₁ (s₁.matchTerminal setting kind rest) := .terminal htop hseen
      have hi := halike.inserted.trans hins
      obtain ⟨t, ahead, hahead, -⟩ := State.exists_ahead hseen hi
      have hfewer : (s₁.matchTerminal setting kind rest).ahead.length < s.ahead.length := by
        rw [State.matchTerminal_ahead, hi, ← halike.ahead, hahead]
        simp
      have hgrow : rest.length ≤ h + growth * 2 := by
        unfold growth
        omega
      have := ih _ (hs₁.quiet hq) (by simp) hfewer (by simpa using hgrow) (by simpa using hgrow)
      exact (Halts.of_quietRun hrun (.of_running hq.step_eq this)).mono (by omega)
    · have hheight := hsuffix.length_le
      have hcheckpoint₁ : s₁.checkpoint.length ≤ h := by rw [halike.checkpoint]; exact hcheckpoint
      -- at an error the machine gives up, passes the token or cuts its stack
      cases hstumble : stumble setting s₁ with
      | finished s₂ => exact absurd hstumble stumble_ne_finished
      | gaveUp s₂ =>
        have : Halts setting 1 s₁ := .inr ⟨s₂, by rw [iterate, hstuck.step_eq, hstumble]⟩
        exact (Halts.of_quietRun hrun this).mono (by omega)
      | running s₂ =>
        have hstep := hstuck.step_eq.trans hstumble
        have hs₂ := hs₁.stumble hstumble
        obtain ⟨hahead, hstack₂, hcheckpoint₂⟩ :=
          stumble_height (Nat.le_trans hheight hstack) hcheckpoint₁ hstumble
        rw [halike.ahead] at hahead
        rcases stumble_running ht hstuck (halike.inserted.trans hins) hstumble with
          hadv | ⟨hahead₂, hins₂, hlower⟩
        · -- the token is passed, now or after a few quiet steps
          rw [halike.ahead] at hadv
          have hm : s₂.ahead.length + 1 - s.ahead.length +
              (if s₂.inserted.isSome then 1 else 0) ≤ 2 := by
            have := hahead.length_le
            split <;> omega
          obtain ⟨k', s₃, hrun', hk', hins₃, hend⟩ := exists_past ht hadv hm hstack₂ hcheckpoint₂
          have hs₃ := hs₂.quietRun hrun'
          rcases hend with hbottom | ⟨hfewer, hstack₃, hcheckpoint₃⟩
          · have : Halts setting (k' + 1) s₂ := .of_quietRun hrun' (.of_atBottom hbottom hs₃)
            exact (Halts.of_quietRun hrun (.of_running hstep this)).mono (by omega)
          · have := ih s₃ hs₃ hins₃ hfewer hstack₃ hcheckpoint₃
            exact (Halts.of_quietRun hrun
              (.of_running hstep (.of_quietRun hrun' this))).mono (by omega)
        · -- the token is still there, and the stack is lower
          have := ihn s₂.stack.length (by omega) hs₂ hins₂ hstack₂ hcheckpoint₂
            (by rwa [hahead₂, halike.ahead]) rfl
          exact (Halts.of_quietRun hrun (.of_running hstep this)).mono (by omega)

/-- **The machine halts** from every state in which nothing is inserted. -/
theorem halts_within (ht : setting.tables.Paced effort 9 16) {tokens h : Nat}
    (hs : Grounded s) (hins : s.inserted = none) (htokens : s.ahead.length ≤ tokens)
    (hstack : s.stack.length ≤ h) (hcheckpoint : s.checkpoint.length ≤ h) :
    Halts setting (haltSteps tokens h) s := by
  induction tokens generalizing s h with
  | zero =>
    -- at the end of the input there are no fewer tokens, so nothing is needed of what comes later
    have hnone : ∀ s' : State, Grounded s' → s'.inserted = none →
        s'.ahead.length < s.ahead.length → s'.stack.length ≤ h + growth * 2 →
        s'.checkpoint.length ≤ h + growth * 2 → Halts setting 0 s' :=
      fun s' _ _ hfewer _ _ => absurd hfewer (by omega)
    have := halts_of_fewer ht hs hins hstack hcheckpoint hnone
    exact this.mono (by rw [haltSteps, tokenSteps]; omega)
  | succ tokens ih =>
    have := halts_of_fewer ht hs hins hstack hcheckpoint
      fun s' hs' hins' hfewer hstack' hcheckpoint' =>
        ih hs' hins' (by omega) hstack' hcheckpoint'
    exact this.mono (by rw [haltSteps, tokenSteps]; omega)

theorem haltSteps_le (tokens h : Nat) :
    haltSteps tokens h ≤ (tokens + 1) * tokenSteps (h + growth * 2 * tokens) := by
  induction tokens generalizing h with
  | zero => simp [haltSteps]
  | succ tokens ih =>
    have hfirst : tokenSteps h ≤ tokenSteps (h + growth * 2 * (tokens + 1)) := by
      unfold tokenSteps
      omega
    have hrest := ih (h + growth * 2)
    have heq : h + growth * 2 + growth * 2 * tokens = h + growth * 2 * (tokens + 1) := by ring
    rw [heq] at hrest
    rw [haltSteps, Nat.succ_mul]
    omega

/-- The steps that the machine is given on a row of tokens suffice. -/
theorem haltSteps_le_maxSteps (tokens : Nat) : haltSteps tokens 2 ≤ maxSteps tokens := by
  have hlinear : tokenSteps (2 + growth * 2 * tokens) ≤ 1000000 * (tokens + 1) := by
    unfold tokenSteps growth
    omega
  have hsquare : tokens + 1 ≤ (tokens + 1) * (tokens + 1) := Nat.le_mul_self _
  calc haltSteps tokens 2
      ≤ (tokens + 1) * tokenSteps (2 + growth * 2 * tokens) := haltSteps_le tokens 2
    _ ≤ (tokens + 1) * (1000000 * (tokens + 1)) := Nat.mul_le_mul_left _ hlinear
    _ ≤ (tokens + 1) * (tokens + 1) * (1000000 * (tokens + 1)) := Nat.mul_le_mul_right _ hsquare
    _ = maxSteps tokens := by
      unfold maxSteps
      ring

/-- **The machine halts on every row of tokens** within the steps it is given. -/
theorem halts_initial (ht : setting.tables.Paced effort 9 16) (start : Nonterminal)
    (tokens : List Token) :
    Halts setting (maxSteps tokens.length) (State.initial start tokens) :=
  (halts_within ht (.initial start tokens) rfl (Nat.le_refl _) (Nat.le_refl _)
    (Nat.le_refl _)).mono (haltSteps_le_maxSteps _)

theorem iterate_initial_ne_running (ht : setting.tables.Paced effort 9 16) (start : Nonterminal)
    (tokens : List Token) (s' : State) :
    iterate setting (maxSteps tokens.length) (State.initial start tokens) ≠ .running s' := by
  rcases halts_initial ht start tokens with ⟨_, _, hend, -⟩ | ⟨_, hend⟩
  · simp [hend]
  · simp [hend]

/-- Where the machine ends, the steps that it is given take it there. -/
theorem iterate_maxSteps (ht : setting.tables.Paced effort 9 16) {start : Nonterminal}
    {tokens : List Token} {k : Nat}
    (h : iterate setting k (State.initial start tokens) = .finished s') :
    iterate setting (maxSteps tokens.length) (State.initial start tokens) = .finished s' := by
  rcases Nat.le_total k (maxSteps tokens.length) with hle | hle
  · rw [iterate_mono hle (by simp [h]), h]
  · rw [← iterate_mono hle (iterate_initial_ne_running ht start tokens), h]

/-! ### Consecutive errors -/

/-- Any number of steps. -/
def Reaches (setting : Setting) : State → State → Prop :=
  Relation.ReflTransGen fun s s' => step setting s = .running s'

theorem reaches_of_running {k : Nat} (h : iterate setting k s = .running s') :
    Reaches setting s s' := by
  induction k generalizing s with
  | zero =>
    obtain rfl := Step.running.inj h
    exact .refl
  | succ k ih =>
    cases hstep : step setting s with
    | finished s₁ | gaveUp s₁ =>
      rw [iterate, hstep] at h
      cases h
    | running s₁ =>
      rw [iterate_of_running hstep] at h
      exact .head hstep (ih h)

/-- What is inserted is matched quietly. -/
def Settled (setting : Setting) (s : State) : Prop :=
  ∃ k s', QuietRun setting k s s' ∧ s'.inserted = none

theorem Settled.quiet (h : Settled setting s) (hq : Quiet setting s s') : Settled setting s' := by
  obtain ⟨k, s₁, hrun, hins⟩ := h
  cases hrun with
  | refl => exact ⟨0, s', .refl s', hq.inserted_eq_none hins⟩
  | head hq₁ hrun =>
    obtain rfl := hq.deterministic hq₁
    exact ⟨_, s₁, hrun, hins⟩

theorem Settled.inserted_eq_none (h : Settled setting s) (hs : ∀ s', ¬ Quiet setting s s') :
    s.inserted = none := by
  obtain ⟨k, s₁, hrun, hins⟩ := h
  rwa [hrun.eq_of_rest hs] at hins

/-- A step leaves nothing inserted that is not matched quietly. -/
theorem Settled.step (ht : setting.tables.Paced effort 9 16) (h : Settled setting s)
    (hstep : step setting s = .running s') : Settled setting s' := by
  rcases step_cases setting s with hbottom | ⟨s₁, hq⟩ | hstuck
  · rw [hbottom.step_eq] at hstep
    cases hstep
  · obtain rfl := Step.running.inj (hq.step_eq.symm.trans hstep)
    exact h.quiet hq
  · rw [hstuck.step_eq] at hstep
    rcases stumble_running ht hstuck (h.inserted_eq_none hstuck.rest) hstep with
      ⟨k, s₁, hrun, hpast⟩ | ⟨-, hins, -⟩
    · exact ⟨k, s₁, hrun, hpast.1⟩
    · exact ⟨0, s', .refl s', hins⟩

theorem Settled.of_reaches (ht : setting.tables.Paced effort 9 16) {start : Nonterminal}
    {tokens : List Token} (hreach : Reaches setting (State.initial start tokens) s) :
    Settled setting s := by
  induction hreach with
  | refl => exact ⟨0, _, .refl _, rfl⟩
  | tail _ hstep ih => exact ih.step ht hstep

/-- No error is reported at an inserted terminal. -/
theorem inserted_eq_none_of_stuck (ht : setting.tables.Paced effort 9 16) {start : Nonterminal}
    {tokens : List Token} (hreach : Reaches setting (State.initial start tokens) s)
    (hstuck : Stuck setting s.lookahead s.stack) : s.inserted = none :=
  (Settled.of_reaches ht hreach).inserted_eq_none hstuck.rest

/-- **Between two consecutive errors at one token the stack becomes lower.** -/
theorem stack_lt_of_errors (ht : setting.tables.Paced effort 9 16) {start : Nonterminal}
    {tokens : List Token} {k : Nat} (hreach : Reaches setting (State.initial start tokens) s₁)
    (hstuck₁ : Stuck setting s₁.lookahead s₁.stack) (hstep : step setting s₁ = .running s)
    (hrun : QuietRun setting k s s₂) (hstuck₂ : Stuck setting s₂.lookahead s₂.stack)
    (hahead : s₂.ahead = s₁.ahead) : s₂.stack.length < s₁.stack.length := by
  -- the errors are at tokens of the input, not at inserted terminals
  have hins₁ := inserted_eq_none_of_stuck ht hreach hstuck₁
  rw [hstuck₁.step_eq] at hstep
  rcases stumble_running ht hstuck₁ hins₁ hstep with hadv | ⟨hahead', hins, hlower⟩
  · -- the second error would be past the token of the first one
    obtain ⟨-, hlt | hbottom⟩ := (hadv.of_quietRun hrun).past_of_rest hstuck₂.rest
    · rw [hahead] at hlt
      exact absurd hlt (Nat.lt_irrefl _)
    · exact absurd hbottom hstuck₂.not_atBottom
  · -- the machine comes to rest at the second error, as it would have to match the token before
    obtain ⟨k', s₃, hrun₃, halike, -, hcase⟩ := exists_quietRun ht s
    obtain ⟨i, hrun'⟩ := hrun₃.to_rest hrun hstuck₂.rest
    rcases hcase with hbottom | ⟨kind, rest, htop, hseen, -⟩ | ⟨hstuck₃, hsuffix, -⟩
    · obtain rfl := hrun'.eq_of_rest hbottom.rest
      exact absurd hbottom hstuck₂.not_atBottom
    · have hi := halike.inserted.trans hins
      obtain ⟨t, ahead, hahead₃, -⟩ := State.exists_ahead hseen hi
      have hq : Quiet setting s₃ (s₃.matchTerminal setting kind rest) := .terminal htop hseen
      obtain ⟨j, hrun''⟩ := (QuietRun.single hq).to_rest hrun' hstuck₂.rest
      have hle := hrun''.ahead_suffix.length_le
      rw [State.matchTerminal_ahead, hi, hahead, ← hahead', ← halike.ahead, hahead₃] at hle
      simp at hle
    · obtain rfl := hrun'.eq_of_rest hstuck₃.rest
      exact Nat.lt_of_le_of_lt hsuffix.length_le hlower

/-! ### Expansions in a row -/

/-- An expansion by a production with symbols. -/
def Unfolds (setting : Setting) (s s' : State) : Prop :=
  ∃ n i rest, s.stack = .nonterminal n :: rest ∧ setting.tables.select? n s.lookahead = some i ∧
    State.production setting n i ≠ [] ∧ s' = s.expand setting n i rest

/-- A number of such expansions, one right after the other. -/
inductive Unfolding (setting : Setting) : Nat → State → State → Prop
  /-- No expansion. -/
  | refl (s : State) : Unfolding setting 0 s s
  /-- One expansion, and then some more. -/
  | head {k : Nat} {s s' s'' : State} (h : Unfolds setting s s')
      (hrest : Unfolding setting k s' s'') :
      Unfolding setting (k + 1) s s''

/-- The next step matches a terminal, lets a nonterminal vanish or reports an error. -/
def Unfolded (setting : Setting) (s : State) : Prop :=
  (∃ kind rest, s.stack = .terminal kind :: rest ∧ s.lookahead = .token kind) ∨
    (∃ n i rest, s.stack = .nonterminal n :: rest ∧
      setting.tables.select? n s.lookahead = some i ∧ State.production setting n i = []) ∨
    Stuck setting s.lookahead s.stack

/-- What is on top after an expansion is a terminal or a nonterminal of less effort. -/
theorem Unfolds.top (ht : setting.tables.Paced effort 9 16) (h : Unfolds setting s s')
    {n : Nonterminal} {rest : List Item} (hn : s.stack = .nonterminal n :: rest) :
    (∃ kind rest', s'.stack = .terminal kind :: rest') ∨
      ∃ m rest', s'.stack = .nonterminal m :: rest' ∧ effort m < effort n := by
  obtain ⟨n', i, rest', hn', hi, hne, rfl⟩ := h
  obtain ⟨hnn, -⟩ := List.cons.inj (hn.symm.trans hn')
  obtain rfl := Item.nonterminal.inj hnn
  obtain ⟨α, hα, -⟩ := (ht.select_iff n _ i).1 hi
  have hprod : State.production setting n i = α := by
    rw [State.production, hα]
    rfl
  have hpaced := ht.paced n α (List.mem_of_getElem? hα)
  rw [State.expand_stack, hprod]
  cases α with
  | nil => exact absurd hprod hne
  | cons x α =>
    cases x with
    | terminal kind => exact .inl ⟨kind, _, rfl⟩
    | nonterminal m =>
      simp only [Grammar.paces, Bool.and_eq_true, decide_eq_true_eq] at hpaced
      exact .inr ⟨m, _, rfl, by omega⟩

/-- **Expansions in a row are bounded**, and where they end there is a match, a nonterminal that
vanishes or an error. -/
theorem unfolding_le (ht : setting.tables.Paced effort 9 16) {k : Nat}
    (h : Unfolding setting k s s') {n : Nonterminal} {rest : List Item}
    (hn : s.stack = .nonterminal n :: rest) :
    k ≤ effort n ∧ ((∃ s'', Unfolds setting s' s'') ∨ Unfolded setting s') := by
  -- every expansion puts something of less effort on top
  induction h generalizing n rest with
  | refl s =>
    refine ⟨Nat.zero_le _, ?_⟩
    cases hi : setting.tables.select? n s.lookahead with
    | none => exact .inr (.inr (.inr (by rw [hn]; exact hi)))
    | some i =>
      by_cases hne : State.production setting n i = []
      · exact .inr (.inr (.inl ⟨n, i, rest, hn, hi, hne⟩))
      · exact .inl ⟨_, n, i, rest, hn, hi, hne, rfl⟩
  | @head k s s₁ s'' h hrest ih =>
    rcases h.top ht hn with ⟨kind, rest', htop⟩ | ⟨m, rest', htop, hlt⟩
    · -- behind a terminal there are no more expansions
      have hpos := ht.effort_pos n
      cases hrest with
      | refl =>
        refine ⟨by omega, .inr ?_⟩
        by_cases hkind : s₁.lookahead = .token kind
        · exact .inl ⟨kind, rest', htop, hkind⟩
        · exact .inr (.inr (by rw [htop]; exact hkind))
      | head h' _ =>
        obtain ⟨m, i, rest'', hm, -⟩ := h'
        rw [htop] at hm
        cases hm
    · obtain ⟨hle, hend⟩ := ih htop
      exact ⟨by omega, hend⟩

/-! ### The language -/

/-- **The parser of the language halts**, whatever the tokens and the limits are.  The machine
reaches the bottom of its stack or gives up, and so does every trial.  On one lookahead at most nine
nonterminals are expanded in a row before a terminal is matched, a nonterminal vanishes or an error
is reported.  And if an error and the next one are reported at the same tokens, the stack is lower
at the second one. -/
theorem parser_halts : ∃ tables, Language.tables = .ok tables ∧
    ∀ (limits : Limits) (tokens : List Token),
      let setting := Setting.ofTokens tables limits tokens
      let start := State.initial tables.grammar.start tokens
      Halts setting (maxSteps tokens.length) start ∧
      (∀ s stack r, ∃ score,
        (Trial.ofRepair s stack r).iterate setting (trialMoves stack.length) = .ended score) ∧
      (∀ s n rest k s', s.stack = .nonterminal n :: rest → Unfolding setting k s s' →
        k ≤ 9 ∧ ((∃ s'', Unfolds setting s' s'') ∨ Unfolded setting s')) ∧
      ∀ s₁ s k s₂, Reaches setting start s₁ → Stuck setting s₁.lookahead s₁.stack →
        step setting s₁ = .running s → QuietRun setting k s s₂ →
        Stuck setting s₂.lookahead s₂.stack → s₂.ahead = s₁.ahead →
        s₂.stack.length < s₁.stack.length := by
  obtain ⟨tables, htables, -, ht⟩ := Language.exists_tables
  refine ⟨tables, htables, fun limits tokens => ?_⟩
  intro setting start
  have ht : setting.tables.Paced Language.effort 9 16 := ht
  refine ⟨halts_initial ht _ tokens, exists_score ht, ?_, ?_⟩
  · intro s n rest k s' hn h
    obtain ⟨hle, hend⟩ := unfolding_le ht h hn
    exact ⟨Nat.le_trans hle (ht.effort_le n), hend⟩
  · intro s₁ s k s₂ hreach hstuck₁ hstep hrun hstuck₂ hahead
    exact stack_lt_of_errors ht hreach hstuck₁ hstep hrun hstuck₂ hahead

end Bistro.Parse
