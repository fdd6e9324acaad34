import Bistro.Parse.Run
import Bistro.Proofs.Parse.Descent

/-!
# Quiet steps of the machine

A step is quiet if nothing is wrong: an end mark is taken off, a terminal is matched or a
nonterminal is expanded.  Any other step either ends the run at the bottom of the stack or reports
an error, and it reports one exactly if the stack is stuck.

There is at most one quiet step from a state.  So two quiet runs from one state are parts of each
other, and a state that has no quiet step is where all of them end.

## Main definitions

* `Parse.Quiet`, `Parse.QuietRun` — one quiet step, and a number of them.
* `Parse.AtBottom` — the stack is used up.

## Main results

* `Parse.step_cases` — what a step can be.
* `Parse.QuietRun.total` — **two quiet runs from one state are parts of each other.**
* `Parse.quietRun_of_settles` — what the stack does at one lookahead, the machine does.
* `Parse.exists_quietRun` — every state quietly comes to rest.
-/

namespace Bistro.Parse

/-! ### What the moves leave alone -/

namespace State

@[simp] theorem attach_frame (node : ParseTree) (s : State) :
    (s.attach node).ahead = s.ahead ∧ (s.attach node).stack = s.stack ∧
      (s.attach node).checkpoint = s.checkpoint ∧ (s.attach node).inserted = s.inserted ∧
      (s.attach node).errors = s.errors := by
  unfold attach
  split <;> simp

@[simp] theorem closeNode_frame (s : State) :
    s.closeNode.ahead = s.ahead ∧ s.closeNode.stack = s.stack ∧
      s.closeNode.checkpoint = s.checkpoint ∧ s.closeNode.inserted = s.inserted ∧
      s.closeNode.errors = s.errors := by
  unfold closeNode
  split <;> simp

@[simp] theorem closeNodes_frame (n : Nat) (s : State) :
    (s.closeNodes n).ahead = s.ahead ∧ (s.closeNodes n).stack = s.stack ∧
      (s.closeNodes n).checkpoint = s.checkpoint ∧ (s.closeNodes n).inserted = s.inserted ∧
      (s.closeNodes n).errors = s.errors := by
  induction n generalizing s with
  | zero => simp [closeNodes]
  | succ n ih => simp [closeNodes, ih s.closeNode]

@[simp] theorem expand_frame (setting : Setting) (n : Nonterminal) (i : Nat) (rest : List Item)
    (s : State) :
    (s.expand setting n i rest).ahead = s.ahead ∧
      (s.expand setting n i rest).checkpoint = s.checkpoint ∧
      (s.expand setting n i rest).inserted = s.inserted ∧
      (s.expand setting n i rest).errors = s.errors := by
  unfold expand
  dsimp only
  split <;> simp

@[simp] theorem expand_stack (setting : Setting) (n : Nonterminal) (i : Nat) (rest : List Item)
    (s : State) : (s.expand setting n i rest).stack =
      (production setting n i).map Item.ofSymbol ++
        (ending true (production setting n i) ++ rest) := by
  unfold expand
  dsimp only
  split
  · next h => simp [h, ending]
  · next h =>
    have hne : production setting n i ≠ [] := by simpa using h
    simp [ending, hne]

@[simp] theorem matchTerminal_frame (setting : Setting) (kind : Token.Kind) (rest : List Item)
    (s : State) :
    (s.matchTerminal setting kind rest).stack = rest ∧
      (s.matchTerminal setting kind rest).checkpoint = rest ∧
      (s.matchTerminal setting kind rest).inserted = none ∧
      (s.matchTerminal setting kind rest).errors = s.errors := by
  unfold matchTerminal
  dsimp only
  split <;> simp_all

theorem matchTerminal_ahead (setting : Setting) (kind : Token.Kind) (rest : List Item) (s : State) :
    (s.matchTerminal setting kind rest).ahead =
      if s.inserted.isSome then s.ahead else s.ahead.tail := by
  unfold matchTerminal
  dsimp only
  split <;> simp_all

/-- If no terminal is inserted, the terminal that is seen is that of the next token. -/
theorem exists_ahead {s : State} {kind : Token.Kind} (h : s.lookahead = .token kind)
    (hi : s.inserted = none) : ∃ t ahead, s.ahead = t :: ahead ∧ t.kind = kind := by
  rw [lookahead, hi] at h
  cases ha : s.ahead with
  | nil => rw [ha] at h; cases h
  | cons t ahead =>
    rw [ha] at h
    exact ⟨t, ahead, rfl, Grammar.Lookahead.token.inj h⟩

end State

variable {setting : Setting} {s s' s₁ s₂ : State}

/-! ### Steps -/

/-- A step in which nothing is wrong. -/
inductive Quiet (setting : Setting) : State → State → Prop
  /-- An end mark is taken off, and a node is complete. -/
  | close {s : State} {rest : List Item} (h : s.stack = .endOfProduction :: rest) :
      Quiet setting s { s with stack := rest }.closeNode
  /-- A terminal is matched. -/
  | terminal {s : State} {kind : Token.Kind} {rest : List Item}
      (h : s.stack = .terminal kind :: rest) (hk : s.lookahead = .token kind) :
      Quiet setting s (s.matchTerminal setting kind rest)
  /-- A nonterminal is expanded. -/
  | expand {s : State} {n : Nonterminal} {i : Nat} {rest : List Item}
      (h : s.stack = .nonterminal n :: rest) (hi : setting.tables.select? n s.lookahead = some i) :
      Quiet setting s (s.expand setting n i rest)

/-- The stack is used up. -/
def AtBottom (s : State) : Prop := s.stack = [] ∨ ∃ rest, s.stack = .bottom :: rest

theorem Quiet.step_eq (h : Quiet setting s s') : step setting s = .running s' := by
  cases h with
  | close h => simp [step, h]
  | terminal h hk => simp [step, h, hk]
  | expand h hi => simp [step, h, hi]

theorem AtBottom.step_eq (h : AtBottom s) : step setting s = .finished s := by
  rcases h with h | ⟨rest, h⟩ <;> simp [step, h]

theorem Stuck.step_eq (h : Stuck setting s.lookahead s.stack) :
    step setting s = stumble setting s := by
  unfold Stuck at h
  split at h
  · next hs => simp [step, hs, h]
  · next hs => simp [step, hs, h]
  · exact h.elim

/-- **What a step can be**: the end at the bottom of the stack, a quiet step or an error. -/
theorem step_cases (setting : Setting) (s : State) :
    AtBottom s ∨ (∃ s', Quiet setting s s') ∨ Stuck setting s.lookahead s.stack := by
  match h : s.stack with
  | [] => exact .inl (.inl h)
  | .bottom :: rest => exact .inl (.inr ⟨rest, h⟩)
  | .endOfProduction :: rest => exact .inr (.inl ⟨_, .close h⟩)
  | .terminal kind :: rest =>
    by_cases hk : s.lookahead = .token kind
    · exact .inr (.inl ⟨_, .terminal h hk⟩)
    · exact .inr (.inr hk)
  | .nonterminal n :: rest =>
    cases hi : setting.tables.select? n s.lookahead with
    | none => exact .inr (.inr hi)
    | some i => exact .inr (.inl ⟨_, .expand h hi⟩)

theorem Quiet.not_atBottom (h : Quiet setting s s') : ¬ AtBottom s := by
  rintro (hb | ⟨rest, hb⟩) <;> cases h <;> simp_all

theorem Quiet.not_stuck (h : Quiet setting s s') : ¬ Stuck setting s.lookahead s.stack := by
  cases h <;> simp_all [Stuck]

theorem Stuck.not_atBottom {a : Lookahead} (h : Stuck setting a s.stack) : ¬ AtBottom s := by
  rintro (hb | ⟨rest, hb⟩) <;> simp [Stuck, hb] at h

theorem Quiet.errors_eq (h : Quiet setting s s') : s'.errors = s.errors := by
  cases h <;> simp

theorem Quiet.inserted_eq_none (h : Quiet setting s s') (hs : s.inserted = none) :
    s'.inserted = none := by
  cases h <;> simp [hs]

/-- A quiet step consumes at most one token. -/
theorem Quiet.ahead_suffix (h : Quiet setting s s') : s'.ahead <:+ s.ahead := by
  cases h with
  | close h => simp
  | terminal h hk =>
    rw [State.matchTerminal_ahead]
    split
    · exact List.suffix_rfl
    · exact List.tail_suffix _
  | expand h hi => simp

/-! ### Runs -/

/-- A number of quiet steps. -/
inductive QuietRun (setting : Setting) : Nat → State → State → Prop
  /-- No step. -/
  | refl (s : State) : QuietRun setting 0 s s
  /-- One step, and then a run. -/
  | head {k : Nat} {s s' s'' : State} (h : Quiet setting s s') (hrun : QuietRun setting k s' s'') :
      QuietRun setting (k + 1) s s''

variable {j k : Nat}

theorem QuietRun.trans (h : QuietRun setting j s s₁) (h' : QuietRun setting k s₁ s₂) :
    QuietRun setting (j + k) s s₂ := by
  induction h with
  | refl => rwa [Nat.zero_add]
  | head hq _ ih =>
    rw [Nat.add_right_comm]
    exact .head hq (ih h')

theorem QuietRun.single (h : Quiet setting s s') : QuietRun setting 1 s s' := .head h (.refl s')

theorem Quiet.deterministic (h₁ : Quiet setting s s₁) (h₂ : Quiet setting s s₂) : s₁ = s₂ := by
  have := h₁.step_eq.symm.trans h₂.step_eq
  exact Step.running.inj this

/-- **Two quiet runs from one state are parts of each other.** -/
theorem QuietRun.total (h₁ : QuietRun setting j s s₁) (h₂ : QuietRun setting k s s₂) :
    (∃ i, QuietRun setting i s₁ s₂) ∨ ∃ i, QuietRun setting i s₂ s₁ := by
  induction h₁ generalizing k with
  | refl => exact .inl ⟨k, h₂⟩
  | head hq hrun ih =>
    cases h₂ with
    | refl => exact .inr ⟨_, .head hq hrun⟩
    | head hq₂ hrun₂ =>
      obtain rfl := hq.deterministic hq₂
      exact ih hrun₂

theorem QuietRun.errors_eq (h : QuietRun setting k s s') : s'.errors = s.errors := by
  induction h with
  | refl => rfl
  | head hq _ ih => rw [ih, hq.errors_eq]

theorem QuietRun.inserted_eq_none (h : QuietRun setting k s s') (hs : s.inserted = none) :
    s'.inserted = none := by
  induction h with
  | refl => exact hs
  | head hq _ ih => exact ih (hq.inserted_eq_none hs)

theorem QuietRun.ahead_suffix (h : QuietRun setting k s s') : s'.ahead <:+ s.ahead := by
  induction h with
  | refl => exact List.suffix_rfl
  | head hq _ ih => exact ih.trans hq.ahead_suffix

/-- A run from a state without a quiet step makes none. -/
theorem QuietRun.eq_of_rest (h : QuietRun setting k s s') (hs : ∀ s', ¬ Quiet setting s s') :
    s' = s := by
  cases h with
  | refl => rfl
  | head hq _ => exact absurd hq (hs _)

/-- All quiet runs lead to a state without a quiet step. -/
theorem QuietRun.to_rest (h₁ : QuietRun setting j s s₁) (h₂ : QuietRun setting k s s₂)
    (hs : ∀ s', ¬ Quiet setting s₂ s') : ∃ i, QuietRun setting i s₁ s₂ := by
  rcases h₁.total h₂ with h | ⟨i, h⟩
  · exact h
  · obtain rfl := h.eq_of_rest hs
    exact ⟨0, .refl _⟩

theorem Stuck.rest (h : Stuck setting s.lookahead s.stack) : ∀ s', ¬ Quiet setting s s' :=
  fun _ hq => hq.not_stuck h

theorem AtBottom.rest (h : AtBottom s) : ∀ s', ¬ Quiet setting s s' :=
  fun _ hq => hq.not_atBottom h

/-! ### Iterations -/

theorem iterate_of_running (h : step setting s = .running s') (steps : Nat) :
    iterate setting (steps + 1) s = iterate setting steps s' := by
  rw [iterate, h]

theorem QuietRun.iterate_eq (h : QuietRun setting k s s') (steps : Nat) :
    iterate setting (k + steps) s = iterate setting steps s' := by
  induction h with
  | refl => rw [Nat.zero_add]
  | head hq _ ih => rw [Nat.add_right_comm, iterate_of_running hq.step_eq, ih]

/-- The state of a machine that goes on. -/
def Step.running? : Step → Option State
  | running s => some s
  | finished _ | gaveUp _ => none

theorem Step.mem_running? {halted : Step} : s ∈ halted.running? ↔ halted = .running s := by
  cases halted <;> simp [running?]

/-! ### One lookahead -/

/-- Two states that differ at most in their stacks and in what they know of the tree. -/
structure Alike (s s' : State) : Prop where
  /-- The same tokens are ahead. -/
  ahead : s'.ahead = s.ahead
  /-- The same terminal is inserted. -/
  inserted : s'.inserted = s.inserted
  /-- The same stack was there after the last match. -/
  checkpoint : s'.checkpoint = s.checkpoint

theorem Alike.lookahead (h : Alike s s') : s'.lookahead = s.lookahead := by
  rw [State.lookahead, State.lookahead, h.ahead, h.inserted]

theorem Alike.trans (h : Alike s s₁) (h' : Alike s₁ s₂) : Alike s s₂ :=
  ⟨h'.ahead.trans h.ahead, h'.inserted.trans h.inserted, h'.checkpoint.trans h.checkpoint⟩

/-- What the stack does at one lookahead, the machine does. -/
theorem quietRun_of_settles {a : Lookahead} {σ τ : List Item} (h : Settles setting true a k σ τ)
    (ha : s.lookahead = a) (hσ : s.stack = σ) :
    ∃ s', QuietRun setting k s s' ∧ s'.stack = τ ∧ Alike s s' := by
  induction h generalizing s with
  | refl σ => exact ⟨s, .refl s, hσ, rfl, rfl, rfl⟩
  | @mark k σ τ _ ih =>
    have hq : Quiet setting s { s with stack := σ }.closeNode := .close hσ
    have halike : Alike s { s with stack := σ }.closeNode := ⟨by simp, by simp, by simp⟩
    obtain ⟨s', hrun, hτ, hs'⟩ := ih (halike.lookahead.trans ha) (by simp)
    exact ⟨s', .head hq hrun, hτ, halike.trans hs'⟩
  | @expand k i n σ τ hi _ ih =>
    have hq : Quiet setting s (s.expand setting n i σ) := .expand hσ (ha ▸ hi)
    have halike : Alike s (s.expand setting n i σ) := ⟨by simp, by simp, by simp⟩
    obtain ⟨s', hrun, hτ, hs'⟩ := ih (halike.lookahead.trans ha) (by simp)
    exact ⟨s', .head hq hrun, hτ, halike.trans hs'⟩

/-- **Every state quietly comes to rest** before it consumes anything: at the bottom, before a match
or at an error.  An error is about what was on the stack from the beginning. -/
theorem exists_quietRun {effort : Nonterminal → Nat} {most longest : Nat}
    (ht : setting.tables.Paced effort most longest) (s : State) :
    ∃ k s', QuietRun setting k s s' ∧ Alike s s' ∧ k ≤ most * s.stack.length ∧
      (AtBottom s' ∨
        (∃ kind rest, s'.stack = .terminal kind :: rest ∧ s'.lookahead = .token kind ∧
          rest.length ≤ s.stack.length + (longest + 1) * most) ∨
        Stuck setting s'.lookahead s'.stack ∧ s'.stack <:+ s.stack ∧
          k + most * s'.stack.length ≤ most * s.stack.length) := by
  obtain ⟨k, τ, hsettles, hk, hcase⟩ := exists_settles ht true s.lookahead s.stack
  obtain ⟨s', hrun, rfl, halike⟩ := quietRun_of_settles hsettles rfl rfl
  refine ⟨k, s', hrun, halike, hk, ?_⟩
  rw [halike.lookahead]
  exact hcase

end Bistro.Parse
