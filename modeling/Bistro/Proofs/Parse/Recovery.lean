import Bistro.Proofs.Parse.Trial

/-!
# What follows an error

After an error the machine gives up, repairs one token or cuts its stack down.  A repair is taken
only after a trial of it got far enough, and the machine honours trials.  So behind a repair the
machine quietly gets past the token at which the error was, or to the bottom of its stack.  Where
the stack is cut down, either tokens were passed over or the stack has become lower.

## Main definitions

* `Parse.reported` — the state with the error reported.
* `Parse.Past` — a state in which fewer tokens are ahead, or none is needed.

## Main results

* `Parse.repair?_spec` — a repair was tried and is good enough.
* `Parse.repair_advances` — **a repair takes the machine past the token at which the error was.**
* `Parse.syncPoint?_spec` — where a stack is cut.
* `Parse.stumble_cases` — what the machine does after an error.
-/

namespace Bistro.Parse

variable {setting : Setting} {s s' : State}

/-! ### Repairs -/

theorem foldl_better_spec {all : List (Score × Repair)} {best : Option (Score × Repair)}
    {x : Score × Repair} (h : all.foldl better best = some x) :
    best = some x ∨ x ∈ all ∧ x.1.isEnough = true := by
  induction all generalizing best with
  | nil => exact .inl h
  | cons y all ih =>
    rcases ih h with hbest | ⟨hmem, henough⟩
    · -- the best so far is the one before or the new one, which is then good enough
      unfold better at hbest
      split at hbest
      · exact .inl hbest
      · next hy =>
        have hy : y.1.isEnough = true := by simpa using hy
        split at hbest
        · obtain rfl := Option.some.inj hbest
          exact .inr ⟨List.mem_cons_self, hy⟩
        · split at hbest
          · obtain rfl := Option.some.inj hbest
            exact .inr ⟨List.mem_cons_self, hy⟩
          · exact .inl hbest
    · exact .inr ⟨List.mem_cons_of_mem _ hmem, henough⟩

/-- The stack that a repair goes on from. -/
def Repair.stack (s : State) (r : Repair) : List Item :=
  if r.fromCheckpoint then s.checkpoint else s.stack

/-- A repair goes on from the stack it was tried on, and deletes a token or inserts one. -/
theorem candidates_spec {fromCheckpoint : Bool} {stack : List Item} {r : Repair}
    (h : r ∈ candidates setting s fromCheckpoint stack) :
    r.fromCheckpoint = fromCheckpoint ∧ (r.skip = true → s.ahead ≠ []) ∧
      (r.skip = true ∨ r.insert.isSome = true) := by
  unfold candidates at h
  dsimp only at h
  split at h
  · obtain ⟨kind, -, rfl⟩ := List.mem_map.1 h
    exact ⟨rfl, fun hskip => absurd hskip Bool.false_ne_true, .inr rfl⟩
  · next hne =>
    have hne : s.ahead ≠ [] := by simpa using hne
    rw [List.cons_append, List.mem_cons, List.mem_append] at h
    rcases h with rfl | h | h
    · exact ⟨rfl, fun _ => hne, .inl rfl⟩
    · obtain ⟨kind, -, rfl⟩ := List.mem_map.1 h
      exact ⟨rfl, fun _ => hne, .inr rfl⟩
    · obtain ⟨kind, -, rfl⟩ := List.mem_map.1 h
      exact ⟨rfl, fun _ => hne, .inl rfl⟩

/-- A repair was tried and is good enough. -/
theorem repair?_spec {r : Repair} (h : repair? setting s = some r) :
    (r.skip = true → s.ahead ≠ []) ∧ (r.skip = true ∨ r.insert.isSome = true) ∧
      (score setting s (r.stack s) r).isEnough = true := by
  unfold repair? at h
  obtain ⟨⟨score, r⟩, hbest, rfl⟩ := Option.map_eq_some_iff.1 h
  rcases foldl_better_spec hbest with hnone | ⟨hmem, henough⟩
  · cases hnone
  rcases List.mem_append.1 hmem with hmem | hmem
  · obtain ⟨r, hr, heq⟩ := List.mem_map.1 hmem
    obtain ⟨rfl, rfl⟩ := Prod.mk.inj heq
    obtain ⟨hfrom, hskip, hdoes⟩ := candidates_spec hr
    exact ⟨hskip, hdoes, by rw [Repair.stack, hfrom]; exact henough⟩
  · split at hmem
    · cases hmem
    · obtain ⟨r, hr, heq⟩ := List.mem_map.1 hmem
      obtain ⟨rfl, rfl⟩ := Prod.mk.inj heq
      obtain ⟨hfrom, hskip, hdoes⟩ := candidates_spec hr
      exact ⟨hskip, hdoes, by rw [Repair.stack, hfrom]; exact henough⟩

/-- The machine is past a token that `count` tokens stand ahead of, or at the bottom of its stack,
and nothing inserted is left. -/
def Past (count : Nat) (s : State) : Prop :=
  s.inserted = none ∧ (s.ahead.length < count ∨ AtBottom s)

theorem inserted_of_atEnd (h : s.lookahead = .atEnd) : s.inserted = none := by
  cases hi : s.inserted with
  | none => rfl
  | some kind =>
    rw [State.lookahead, hi] at h
    cases h

section
variable {effort : Nonterminal → Nat}

/-- Every trial of a repair ends within the moves it is given. -/
theorem exists_score (ht : setting.tables.Paced effort 9 16) (s : State) (stack : List Item)
    (r : Repair) :
    ∃ score, (Trial.ofRepair s stack r).iterate setting (trialMoves stack.length) =
      .ended score := by
  have hpending : (Trial.ofRepair s stack r).pending ≤ 33 := by
    have : (Trial.ofRepair s stack r).matched = 0 := rfl
    unfold Trial.pending trialLength
    split <;> omega
  refine Trial.exists_ended ht hpending ?_
  rw [trialMoves, show (Trial.ofRepair s stack r).stack = stack from rfl]
  omega

/-- **A repair takes the machine past the token at which the error was.** -/
theorem repair_advances (ht : setting.tables.Paced effort 9 16) {r : Repair}
    (h : repair? setting s = some r) :
    ∃ k s', QuietRun setting k (s.apply r) s' ∧ Past s.ahead.length s' := by
  obtain ⟨-, -, henough⟩ := repair?_spec h
  obtain ⟨score, hscore⟩ := exists_score ht s (r.stack s) r
  rw [Parse.score, hscore, Trial.Move.score] at henough
  have hshadows : (Trial.ofRepair s (r.stack s) r).Shadows (s.apply r) := ⟨rfl, rfl, rfl⟩
  obtain ⟨k, s', hrun, hreached⟩ := Trial.honoured hscore hshadows
  refine ⟨k, s', hrun, ?_⟩
  cases score with
  | accepted => exact ⟨inserted_of_atEnd hreached.2, .inr hreached.1⟩
  | matched count =>
    obtain ⟨hlen, hins⟩ := hreached
    have hcount : minMatched ≤ count := by simpa [Score.isEnough] using henough
    have hmatched : (Trial.ofRepair s (r.stack s) r).matched = 0 := rfl
    -- what the trial matched is consumed, and a deleted token does not come back
    have hahead : (s.apply r).ahead.length ≤ s.ahead.length := by
      simp only [State.apply]
      split <;> simp
    rw [hmatched] at hlen hins
    unfold minMatched at hcount
    exact ⟨hins (by omega), .inl (by omega)⟩

end

/-! ### Cutting the stack -/

/-- A stack is cut to a part of it, which still has a bottom, and which is lower if the stack is
stuck. -/
theorem syncPoint?_spec {a : Lookahead} {σ kept : List Item} {ends : Nat}
    (h : syncPoint? setting a σ = some (ends, kept)) :
    kept <:+ σ ∧ (Stuck setting a σ → kept.length < σ.length) ∧
      ([.bottom] <:+ σ → [.bottom] <:+ kept) := by
  induction σ generalizing ends with
  | nil => cases h
  | cons item σ ih =>
    -- the cases in which the item is cut off and the search goes on
    have hcut : ∀ {e}, syncPoint? setting a σ = some (e, kept) →
        kept <:+ item :: σ ∧ (Stuck setting a (item :: σ) → kept.length < (item :: σ).length) ∧
          ([.bottom] <:+ item :: σ → [.bottom] <:+ kept) := by
      intro e he
      obtain ⟨hsuffix, -, hground⟩ := ih he
      refine ⟨hsuffix.trans (List.suffix_cons _ _), fun _ => ?_, fun hb => ?_⟩
      · exact Nat.lt_succ_of_le hsuffix.length_le
      · rcases List.suffix_cons_iff.1 hb with hb | hb
        · obtain ⟨rfl, rfl⟩ := List.cons.inj hb
          cases he
        · exact hground hb
    have hkeep : ¬ Stuck setting a (item :: σ) → kept = item :: σ →
        kept <:+ item :: σ ∧ (Stuck setting a (item :: σ) → kept.length < (item :: σ).length) ∧
          ([.bottom] <:+ item :: σ → [.bottom] <:+ kept) := by
      rintro hstuck rfl
      exact ⟨List.suffix_rfl, fun h => absurd h hstuck, id⟩
    cases item with
    | terminal kind =>
      rw [syncPoint?] at h
      split at h
      · next hkind => exact hkeep (by simp [Stuck, hkind]) (Prod.mk.inj (Option.some.inj h)).2.symm
      · exact hcut h
    | bottom =>
      rw [syncPoint?] at h
      split at h
      · exact hkeep (by simp [Stuck]) (Prod.mk.inj (Option.some.inj h)).2.symm
      · exact hcut h
    | endOfProduction =>
      rw [syncPoint?] at h
      obtain ⟨⟨e, kept'⟩, he, heq⟩ := Option.map_eq_some_iff.1 h
      obtain ⟨-, rfl⟩ := Prod.mk.inj heq
      exact hcut he
    | nonterminal n =>
      rw [syncPoint?] at h
      split at h
      · next hn =>
        refine hkeep (fun hstuck => ?_) (Prod.mk.inj (Option.some.inj h)).2.symm
        have : setting.tables.select? n a = none := hstuck
        simp [this] at hn
      · split at h
        · obtain ⟨-, rfl⟩ := Prod.mk.inj (Option.some.inj h)
          refine ⟨List.suffix_cons _ _, fun _ => Nat.lt_succ_self _, fun hb => ?_⟩
          exact (List.suffix_cons_iff.1 hb).resolve_left (by simp)
        · exact hcut h

/-- Some tokens are passed over, and then the stack is cut. -/
theorem recover?_spec {attempts : Nat} (h : recover? setting attempts s = some s') :
    ∃ ahead ends kept, ahead <:+ s.ahead ∧
      syncPoint? setting (look s.inserted ahead) s.stack = some (ends, kept) ∧
      s' = { State.closeNodes ends { s with ahead } with stack := kept, checkpoint := kept } := by
  fun_induction recover? setting attempts s with
  | case1 attempts s ends kept hsync =>
    exact ⟨s.ahead, ends, kept, List.suffix_rfl, hsync, (Option.some.inj h).symm⟩
  | case2 s hsync t ahead attempts hahead ih =>
    -- nothing fits this token, and what is found behind it is also found from here
    obtain ⟨ahead', ends, kept, hsuffix, hsync, rfl⟩ := ih h
    exact ⟨ahead', ends, kept, hahead ▸ hsuffix.trans (List.suffix_cons _ _), hsync, rfl⟩
  | case3 => cases h

/-! ### Errors -/

/-- The state with the error at it reported. -/
def reported (setting : Setting) (s : State) : State :=
  { s with errors := s.errors ++ [errorAt setting s] }

/-- What the machine does after an error: it gives up, makes a repair or cuts its stack. -/
theorem stumble_cases (setting : Setting) (s : State) :
    (∃ s', stumble setting s = .gaveUp s' ∧
      s'.errors = s.errors ++ [errorAt setting s, .unrecoverable (s.line setting)]) ∨
    (∃ r, repair? setting (reported setting s) = some r ∧
      stumble setting s = .running ((reported setting s).apply r)) ∨
    ∃ s', recover? setting setting.limits.maxRecoveryAttempts (reported setting s) = some s' ∧
      stumble setting s = .running s' := by
  unfold stumble
  dsimp only
  split
  · exact .inl ⟨_, rfl, by simp⟩
  · split
    · next r hr => exact .inr (.inl ⟨r, hr, rfl⟩)
    · cases hrec : recover? setting setting.limits.maxRecoveryAttempts (reported setting s) with
      | none => exact .inl ⟨_, by rw [← reported, hrec]; rfl, by simp⟩
      | some s' => exact .inr (.inr ⟨s', rfl, by rw [← reported, hrec]; rfl⟩)

/-- If there is a repair, the machine goes on with it only. -/
theorem eq_apply_of_repair {r : Repair} (hr : repair? setting (reported setting s) = some r)
    (h : stumble setting s = .running s') : s' = (reported setting s).apply r := by
  unfold stumble at h
  dsimp only at h
  split at h
  · cases h
  · rw [← reported, hr] at h
    exact (Step.running.inj h).symm

theorem stumble_ne_finished : stumble setting s ≠ .finished s' := by
  rcases stumble_cases setting s with ⟨_, h, -⟩ | ⟨_, -, h⟩ | ⟨_, -, h⟩ <;> simp [h]

/-- Where the machine goes on after an error: with a repair, or with a part of its stack at one of
the tokens ahead. -/
theorem stumble_running_cases (h : stumble setting s = .running s') :
    (∃ r, repair? setting (reported setting s) = some r ∧ s' = (reported setting s).apply r) ∨
    ∃ ahead ends kept, ahead <:+ s.ahead ∧
      syncPoint? setting (look s.inserted ahead) s.stack = some (ends, kept) ∧
      s' = { State.closeNodes ends { reported setting s with ahead } with
        stack := kept, checkpoint := kept } := by
  rcases stumble_cases setting s with ⟨s₁, h₁, -⟩ | ⟨r, hr, h₁⟩ | ⟨s₁, hrec, h₁⟩
  · rw [h₁] at h
    cases h
  · exact .inl ⟨r, hr, (Step.running.inj (h₁.symm.trans h)).symm⟩
  · obtain rfl := Step.running.inj (h₁.symm.trans h)
    exact .inr (recover?_spec hrec)

end Bistro.Parse
