import Bistro.Proofs.Parse.Quiet

/-!
# Trials end, and the machine honours them

A trial makes the moves of the machine without end marks.  At one lookahead it makes a bounded
number of moves, and it matches a bounded number of tokens, so it ends.

A trial and the machine that start from one stack go the same way: their stacks differ in end marks
only.  So what a trial matches, the machine matches quietly.

## Main definitions

* `Parse.strip` — a stack without its end marks.
* `Parse.Trial.Shadows` — a trial that stands where the machine does.

## Main results

* `Parse.Trial.exists_ended` — **every trial ends.**
* `Parse.Trial.honoured` — **the machine honours a trial.**
-/

namespace Bistro.Parse

variable {setting : Setting} {s s' : State} {t t' : Trial}

/-! ### Trials end -/

namespace Trial

theorem iterate_of_going (h : t.move setting = .going t') (moves : Nat) :
    t.iterate setting (moves + 1) = t'.iterate setting moves := by
  rw [iterate, h]

theorem iterate_of_ended {score : Score} (h : t.move setting = .ended score) {moves : Nat}
    (hm : 1 ≤ moves) : t.iterate setting moves = .ended score := by
  obtain ⟨moves, rfl⟩ := Nat.exists_eq_add_of_le' hm
  rw [iterate, h]

@[simp] theorem matchTerminal_frame (t : Trial) (rest : List Item) :
    (t.matchTerminal rest).stack = rest ∧ (t.matchTerminal rest).inserted = none ∧
      (t.matchTerminal rest).ahead = (if t.inserted.isSome then t.ahead else t.ahead.tail) ∧
      (t.matchTerminal rest).matched = if t.inserted.isSome then t.matched else t.matched + 1 := by
  unfold matchTerminal
  split <;> simp_all

/-- A trial ends at the bottom of its stack and where the stack is stuck. -/
theorem exists_move_ended
    (h : t.stack = [] ∨ (∃ rest, t.stack = .bottom :: rest) ∨ Stuck setting t.lookahead t.stack) :
    ∃ score, t.move setting = .ended score := by
  unfold move
  split
  · exact ⟨_, rfl⟩
  · rcases h with h | ⟨rest, h⟩ | h
    · exact ⟨_, by rw [h]⟩
    · exact ⟨_, by rw [h]⟩
    · refine ⟨.matched t.matched, ?_⟩
      unfold Stuck at h
      split at h
      · next hstack => simp [hstack, h]
      · next hstack => simp [hstack, h]
      · exact h.elim

/-- What the stack does at one lookahead, a trial does. -/
theorem iterate_of_settles {a : Lookahead} {k : Nat} {σ τ : List Item}
    (h : Settles setting false a k σ τ) (ha : t.lookahead = a) (hσ : t.stack = σ)
    (hm : t.matched < trialLength) (moves : Nat) :
    t.iterate setting (k + moves) = { t with stack := τ }.iterate setting moves := by
  -- nothing is matched at one lookahead, so the trial does not become long enough on the way
  have hlong : ¬ trialLength ≤ t.matched := Nat.not_le.2 hm
  induction h generalizing t with
  | refl σ =>
    subst hσ
    rw [Nat.zero_add]
  | @mark k σ τ _ ih =>
    have hmove : t.move setting = .going { t with stack := σ } := by
      rw [move, if_neg hlong, hσ]
    rw [Nat.add_right_comm, iterate_of_going hmove]
    exact ih ha rfl hm hlong
  | @expand k i n σ τ hi _ ih =>
    have hmove : t.move setting =
        .going { t with stack := (State.production setting n i).map Item.ofSymbol ++ σ } := by
      rw [move, if_neg hlong, hσ]
      simp only [ha, hi]
    rw [Nat.add_right_comm, iterate_of_going hmove]
    exact ih ha rfl hm hlong

/-- How many matches a trial has before it at most. -/
def pending (t : Trial) : Nat := trialLength - t.matched + if t.inserted.isSome then 1 else 0

theorem pending_matchTerminal_lt (hm : t.matched < trialLength) (rest : List Item) :
    (t.matchTerminal rest).pending < t.pending := by
  cases hi : t.inserted.isSome <;> simp [pending, hi]
  omega

/-- **Every trial ends.**  Between two matches the moves are bounded by the height of the stack, and
each match lets the stack grow by a bounded number of items. -/
theorem exists_ended {effort : Nonterminal → Nat} {most longest : Nat}
    (ht : setting.tables.Paced effort most longest) {m : Nat} (hm : t.pending ≤ m) {moves : Nat}
    (hmoves : (m + 1) * (most * (t.stack.length + (longest + 1) * most * m) + 2) ≤ moves) :
    ∃ score, t.iterate setting moves = .ended score := by
  induction m generalizing t moves with
  | zero =>
    -- no match is left, so the trial is long enough
    have hlong : trialLength ≤ t.matched := by
      unfold pending at hm
      omega
    refine ⟨.matched t.matched, iterate_of_ended ?_ (by omega)⟩
    rw [move, if_pos hlong]
  | succ m ih =>
    by_cases hlong : trialLength ≤ t.matched
    · refine ⟨.matched t.matched, iterate_of_ended ?_ ?_⟩
      · rw [move, if_pos hlong]
      · rw [Nat.succ_mul] at hmoves
        omega
    · obtain ⟨k, τ, hsettles, hk, hcase⟩ := exists_settles ht false t.lookahead t.stack
      have hlt : t.matched < trialLength := Nat.not_le.1 hlong
      -- the moves up to the next match come first, and those of the induction are left then
      have hheight : most * t.stack.length ≤
          most * (t.stack.length + (longest + 1) * most * (m + 1)) :=
        Nat.mul_le_mul_left _ (Nat.le_add_right _ _)
      rw [Nat.succ_mul] at hmoves
      obtain ⟨moves, rfl⟩ := Nat.exists_eq_add_of_le (show k ≤ moves by omega)
      obtain ⟨moves, rfl⟩ := Nat.exists_eq_add_of_le' (show 1 ≤ moves by omega)
      rw [iterate_of_settles hsettles rfl rfl hlt]
      -- in all other cases but a match the next move is the last one
      have hrest : (τ = [] ∨ (∃ ρ, τ = .bottom :: ρ) ∨ Stuck setting t.lookahead τ) →
          ∃ score, { t with stack := τ }.iterate setting (moves + 1) = .ended score := by
        intro h
        obtain ⟨score, hmove⟩ := exists_move_ended (t := { t with stack := τ }) h
        exact ⟨score, iterate_of_ended hmove (Nat.le_add_left 1 moves)⟩
      rcases hcase with (hτ | hτ) | ⟨kind, ρ, rfl, hkind, hρ⟩ | ⟨hτ, -, -⟩
      · exact hrest (.inl hτ)
      · exact hrest (.inr (.inl hτ))
      · have hmove : move setting { t with stack := .terminal kind :: ρ } =
            .going (t.matchTerminal ρ) := by
          rw [move, if_neg hlong]
          exact if_pos hkind
        have hpending := pending_matchTerminal_lt hlt ρ
        have hgrow : ρ.length + (longest + 1) * most * m ≤
            t.stack.length + (longest + 1) * most * (m + 1) := by
          rw [Nat.mul_succ]
          omega
        have := Nat.mul_le_mul_left (m + 1)
          (Nat.add_le_add_right (Nat.mul_le_mul_left most hgrow) 2)
        rw [iterate_of_going hmove]
        refine ih (by omega) ?_
        rw [(matchTerminal_frame t ρ).1]
        omega
      · exact hrest (.inr (.inr hτ))

end Trial

/-! ### Stacks without end marks -/

/-- A stack without its end marks. -/
def strip (σ : List Item) : List Item := σ.filter (· ≠ .endOfProduction)

@[simp] theorem strip_nil : strip [] = [] := rfl

@[simp] theorem strip_mark (σ : List Item) : strip (.endOfProduction :: σ) = strip σ := rfl

@[simp] theorem strip_terminal (kind : Token.Kind) (σ : List Item) :
    strip (.terminal kind :: σ) = .terminal kind :: strip σ := rfl

@[simp] theorem strip_nonterminal (n : Nonterminal) (σ : List Item) :
    strip (.nonterminal n :: σ) = .nonterminal n :: strip σ := rfl

@[simp] theorem strip_bottom (σ : List Item) : strip (.bottom :: σ) = .bottom :: strip σ := rfl

@[simp] theorem strip_append (σ τ : List Item) : strip (σ ++ τ) = strip σ ++ strip τ :=
  List.filter_append σ τ

@[simp] theorem strip_ending (marked : Bool) (α : Grammar.Production Nonterminal Token.Kind) :
    strip (ending marked α) = [] := by
  unfold ending
  split <;> rfl

/-- End marks on top come off, at whatever lookahead. -/
theorem settles_of_strip (marked : Bool) (a : Lookahead) {x : Item} {rest σ : List Item}
    (h : strip σ = x :: rest) :
    ∃ k rest', Settles setting marked a k σ (x :: rest') ∧ strip rest' = rest := by
  induction σ with
  | nil => cases h
  | cons item σ ih =>
    cases item with
    | endOfProduction =>
      obtain ⟨k, rest', hsettles, hrest⟩ := ih h
      exact ⟨k + 1, rest', .mark hsettles, hrest⟩
    | terminal _ | nonterminal _ | bottom =>
      obtain ⟨rfl, rfl⟩ := List.cons.inj h
      exact ⟨0, σ, .refl _, rfl⟩

/-! ### The machine honours a trial -/

/-- A trial stands where the machine does. -/
structure Trial.Shadows (t : Trial) (s : State) : Prop where
  /-- Their stacks differ in end marks only. -/
  stack : strip t.stack = strip s.stack
  /-- The same terminal is inserted. -/
  inserted : t.inserted = s.inserted
  /-- The same tokens are ahead. -/
  ahead : t.ahead = s.ahead

namespace Trial.Shadows

theorem lookahead (h : t.Shadows s) : t.lookahead = s.lookahead := by
  rw [Trial.lookahead, State.lookahead, h.inserted, h.ahead]

/-- The machine takes its end marks off until the item on top of the trial's stack is on top. -/
theorem exists_top (setting : Setting) (h : t.Shadows s) {x : Item} {rest : List Item}
    (hx : strip t.stack = x :: rest) :
    ∃ k s' rest', QuietRun setting k s s' ∧ Alike s s' ∧ s'.stack = x :: rest' ∧
      strip rest' = rest := by
  obtain ⟨k, rest', hsettles, hrest⟩ := settles_of_strip true s.lookahead (h.stack ▸ hx)
  obtain ⟨s', hrun, hstack, halike⟩ := quietRun_of_settles hsettles rfl rfl
  exact ⟨k, s', rest', hrun, halike, hstack, hrest⟩

/-- What the machine does while a trial makes one move. -/
theorem move (h : t.Shadows s) (hmove : t.move setting = .going t') :
    ∃ k s', QuietRun setting k s s' ∧ t'.Shadows s' ∧
      s'.ahead.length + t'.matched = s.ahead.length + t.matched ∧
      (t.matched < t'.matched → s'.inserted = none) := by
  unfold Trial.move at hmove
  split at hmove
  · cases hmove
  split at hmove
  · cases hmove
  · cases hmove
  · next rest hstack =>
    obtain rfl := Trial.Move.going.inj hmove
    exact ⟨0, s, .refl s, ⟨by rw [← h.stack, hstack]; rfl, h.inserted, h.ahead⟩, rfl,
      fun hlt => absurd hlt (Nat.lt_irrefl _)⟩
  · next kind rest hstack =>
    split at hmove
    · next hkind =>
      obtain rfl := Trial.Move.going.inj hmove
      obtain ⟨k, s', rest', hrun, halike, hstack', hrest⟩ :=
        h.exists_top setting (by rw [hstack, strip_terminal])
      have hseen : s'.lookahead = .token kind := by rw [halike.lookahead, ← h.lookahead, hkind]
      -- the trial counts a match exactly if the machine consumes a token
      refine ⟨k + 1, s'.matchTerminal setting kind rest',
        hrun.trans (.single (.terminal hstack' hseen)), ⟨?_, ?_, ?_⟩, ?_, fun _ => by simp⟩
      · simp [hrest]
      · simp
      · rw [State.matchTerminal_ahead, halike.inserted, halike.ahead]
        simp [h.inserted, h.ahead]
      · rw [State.matchTerminal_ahead, halike.inserted, halike.ahead]
        cases hi : s.inserted with
        | some _ => simp [h.inserted, hi]
        | none =>
          obtain ⟨token, ahead, ha, -⟩ := State.exists_ahead (h.lookahead ▸ hkind) hi
          simp only [h.inserted, hi, ha, Trial.matchTerminal_frame, Option.isSome_none,
            Bool.false_eq_true, if_false, List.tail_cons, List.length_cons]
          omega
    · cases hmove
  · next n rest hstack =>
    split at hmove
    · cases hmove
    · next i hi =>
      obtain rfl := Trial.Move.going.inj hmove
      obtain ⟨k, s', rest', hrun, halike, hstack', hrest⟩ :=
        h.exists_top setting (by rw [hstack, strip_nonterminal])
      rw [h.lookahead, ← halike.lookahead] at hi
      refine ⟨k + 1, s'.expand setting n i rest', hrun.trans (.single (.expand hstack' hi)),
        ⟨?_, ?_, ?_⟩, ?_, fun hlt => absurd hlt (Nat.lt_irrefl _)⟩
      · simp [hrest]
      · simp [h.inserted, halike.inserted]
      · simp [h.ahead, halike.ahead]
      · simp [halike.ahead]

/-- Where the machine is when a trial is over. -/
theorem ended (h : t.Shadows s) {score : Score} (hmove : t.move setting = .ended score) :
    score = .matched t.matched ∨
      score = .accepted ∧
        ∃ k s', QuietRun setting k s s' ∧ AtBottom s' ∧ s'.lookahead = .atEnd := by
  unfold Trial.move at hmove
  split at hmove
  · exact .inl (Trial.Move.ended.inj hmove).symm
  split at hmove
  · exact .inl (Trial.Move.ended.inj hmove).symm
  · next rest hstack =>
    obtain ⟨k, s', rest', hrun, halike, hstack', -⟩ :=
      h.exists_top setting (by rw [hstack, strip_bottom])
    split at hmove
    · next hend =>
      exact .inr ⟨(Trial.Move.ended.inj hmove).symm, k, s', hrun, .inr ⟨rest', hstack'⟩,
        halike.lookahead.trans (h.lookahead ▸ hend)⟩
    · exact .inl (Trial.Move.ended.inj hmove).symm
  · cases hmove
  · split at hmove
    · cases hmove
    · exact .inl (Trial.Move.ended.inj hmove).symm
  · split at hmove
    · exact .inl (Trial.Move.ended.inj hmove).symm
    · cases hmove

end Trial.Shadows

/-- Where a trial with a score takes the machine: behind the tokens that were matched, or to the
bottom of the stack at the end of the input. -/
def Score.Reached (matched : Nat) (s s' : State) : Score → Prop
  | .matched count =>
    s'.ahead.length + count = s.ahead.length + matched ∧ (matched < count → s'.inserted = none)
  | .accepted => AtBottom s' ∧ s'.lookahead = .atEnd

/-- **The machine honours a trial**: it quietly gets as far as the trial did. -/
theorem Trial.honoured {moves : Nat} {score : Score} (h : t.iterate setting moves = .ended score)
    (hs : t.Shadows s) : ∃ k s', QuietRun setting k s s' ∧ score.Reached t.matched s s' := by
  induction moves generalizing t s with
  | zero => cases h
  | succ moves ih =>
    cases hmove : t.move setting with
    | ended score' =>
      rw [iterate_of_ended hmove (Nat.le_add_left 1 moves)] at h
      obtain rfl := Trial.Move.ended.inj h
      rcases hs.ended hmove with rfl | ⟨rfl, k, s', hrun, hbottom, hend⟩
      · exact ⟨0, s, .refl s, rfl, fun hlt => absurd hlt (Nat.lt_irrefl _)⟩
      · exact ⟨k, s', hrun, hbottom, hend⟩
    | going t' =>
      rw [iterate_of_going hmove] at h
      obtain ⟨j, s₁, hrun, hs₁, hlen, hins⟩ := hs.move hmove
      obtain ⟨k, s', hrun', hreached⟩ := ih h hs₁
      refine ⟨j + k, s', hrun.trans hrun', ?_⟩
      cases score with
      | accepted => exact hreached
      | matched count =>
        obtain ⟨hlen', hins'⟩ := hreached
        refine ⟨by omega, fun hlt => ?_⟩
        -- the inserted terminal was matched in this move or is matched later
        by_cases hlt' : t'.matched < count
        · exact hins' hlt'
        · exact hrun'.inserted_eq_none (hins (by omega))

end Bistro.Parse
