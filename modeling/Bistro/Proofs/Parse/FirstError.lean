import Bistro.Proofs.Language.Beginnings
import Bistro.Proofs.Parse.Correct

/-!
# The first error

Until its first error the machine runs quietly, and the tokens that it has consumed, with the
symbols that are left on its stack behind them, are a form of the grammar.  So what it has consumed
begins a program.

At the error the next token is wrong.  A machine that sees other tokens behind this one does the
same up to here, as it does not look farther; so it reports an error as well, and no program begins
with what was consumed and this token.

## Main definitions

* `SyntaxError.found?` — the token that an error tells of.
* `Parse.FirstWrong` — the place of the first token with which no program begins any more.
* `Parse.Expects` — what was consumed and what is left to be found are a form of the grammar.
* `Parse.Abreast` — two states that differ only in tokens they do not look at.
* `Parse.Reports` — the error that is reported at a state.

## Main results

* `Parse.Expects.beginsProgram` — what was consumed begins a program.
* `Parse.not_beginsProgram_of_stuck` — no program begins with what was consumed and the next token.
* `Parse.exists_first_rest` — a run is quiet up to its end or its first error.
* `Parse.first_error_at_first_wrong` — **the first error is at the first wrong token.**
-/

namespace Bistro

/-- The token that an error tells of, as it was written. -/
def SyntaxError.found? : SyntaxError → Option String
  | expected _ _ found _ => some found
  | unexpected _ found _ => some found
  | unrecoverable _ | incomplete _ => none

namespace Parse

open Grammar (Production)
open Bistro.Language (IsProgram BeginsProgram)

variable {setting : Setting} {s s' s₁ : State} {effort : Nonterminal → Nat} {most longest k : Nat}
  {tokens consumed : List Token}

/-! ### Wrong tokens -/

/-- A place in a row of tokens up to which it begins a program, but not beyond. -/
structure FirstWrong (tokens : List Token) (p : Nat) : Prop where
  /-- The place is in the row or at its end. -/
  le : p ≤ tokens.length
  /-- The tokens before the place begin a program. -/
  before : BeginsProgram ((tokens.take p).map Token.kind)
  /-- With the token at the place they do not. -/
  wrong : p < tokens.length → ¬ BeginsProgram ((tokens.take (p + 1)).map Token.kind)

theorem FirstWrong.not_lt {p q : Nat} (hp : FirstWrong tokens p) (hq : FirstWrong tokens q) :
    ¬ p < q := by
  intro hlt
  refine hp.wrong (Nat.lt_of_lt_of_le hlt hq.le) ?_
  -- what ends with the token at `p` is a beginning of what ends before `q`
  obtain ⟨rest, hrest⟩ : tokens.take (p + 1) <+: tokens.take q := List.take_prefix_take_left hlt
  have hbefore := hq.before
  rw [← hrest, List.map_append] at hbefore
  exact hbefore.of_append

theorem FirstWrong.unique {p q : Nat} (hp : FirstWrong tokens p) (hq : FirstWrong tokens q) :
    p = q :=
  Nat.le_antisymm (Nat.not_lt.1 (hq.not_lt hp)) (Nat.not_lt.1 (hp.not_lt hq))

/-! ### What is left to be found -/

/-- The symbol that an item stands for. -/
def Item.symbol? : Item → Option (Grammar.Symbol Nonterminal Token.Kind)
  | terminal kind => some (.terminal kind)
  | nonterminal n => some (.nonterminal n)
  | endOfProduction | bottom => none

/-- The symbols on a stack. -/
def symbols (σ : List Item) : Production Nonterminal Token.Kind := σ.filterMap Item.symbol?

@[simp] theorem symbols_append (σ τ : List Item) : symbols (σ ++ τ) = symbols σ ++ symbols τ :=
  List.filterMap_append

@[simp] theorem symbols_map_ofSymbol (α : Production Nonterminal Token.Kind) :
    symbols (α.map Item.ofSymbol) = α := by
  have : Item.symbol? ∘ Item.ofSymbol = some := by
    funext x
    cases x <;> rfl
  rw [symbols, List.filterMap_map, this, List.filterMap_some]

@[simp] theorem symbols_ending (marked : Bool) (α : Production Nonterminal Token.Kind) :
    symbols (ending marked α) = [] := by
  unfold ending
  split <;> rfl

@[simp] theorem symbols_cons (x : Item) (σ : List Item) :
    symbols (x :: σ) = x.symbol?.toList ++ symbols σ := by
  cases x <;> rfl

theorem Stuck.symbols_ne_nil {a : Lookahead} {σ : List Item} (h : Stuck setting a σ) :
    symbols σ ≠ [] := by
  unfold Stuck at h
  split at h
  · simp [Item.symbol?]
  · simp [Item.symbol?]
  · exact h.elim

/-- Nothing is inserted, and what was consumed with what is left to be found behind it is a form of
the grammar. -/
structure Expects (g : Grammar Nonterminal Token.Kind) (tokens consumed : List Token) (s : State) :
    Prop where
  /-- Nothing is inserted. -/
  inserted : s.inserted = none
  /-- What was consumed is in front of what is ahead. -/
  tokens : consumed ++ s.ahead = tokens
  /-- The tokens that were consumed and the symbols on the stack are derived. -/
  derives : g.Derives [.nonterminal g.start] (terminals consumed ++ symbols s.stack)

theorem Expects.initial (g : Grammar Nonterminal Token.Kind) (tokens : List Token) :
    Expects g tokens [] (State.initial g.start tokens) :=
  ⟨rfl, rfl, .refl⟩

/-- A quiet step keeps the form, or it makes one replacement in it. -/
theorem Expects.quiet (ht : setting.tables.Paced effort most longest)
    (h : Expects setting.tables.grammar tokens consumed s) (hq : Quiet setting s s') :
    ∃ consumed', Expects setting.tables.grammar tokens consumed' s' := by
  obtain ⟨hins, htokens, hderives⟩ := h
  have hins' := hq.inserted_eq_none hins
  cases hq with
  | close htop =>
    rw [htop] at hderives
    exact ⟨consumed, hins', by simpa using htokens, by simpa [Item.symbol?] using hderives⟩
  | @terminal kind rest htop hseen =>
    -- the terminal goes from the stack to what was consumed
    obtain ⟨t, ahead, hahead, rfl⟩ := State.exists_ahead hseen hins
    rw [htop] at hderives
    rw [hahead] at htokens
    refine ⟨consumed ++ [t], hins', ?_, ?_⟩
    · rw [State.matchTerminal_ahead, hins, hahead]
      simpa using htokens
    · simpa [Item.symbol?, terminals] using hderives
  | @expand n i rest htop hi =>
    rw [htop] at hderives
    refine ⟨consumed, hins', by simpa using htokens, .tail hderives ?_⟩
    exact ⟨terminals consumed, n, _, symbols rest, production_mem ht hi, rfl, by simp⟩

theorem Expects.quietRun (ht : setting.tables.Paced effort most longest)
    (h : Expects setting.tables.grammar tokens consumed s) (hrun : QuietRun setting k s s') :
    ∃ consumed', Expects setting.tables.grammar tokens consumed' s' := by
  induction hrun generalizing consumed with
  | refl => exact ⟨consumed, h⟩
  | head hq _ ih =>
    obtain ⟨consumed', h'⟩ := h.quiet ht hq
    exact ih h'

/-- **What was consumed begins a program.** -/
theorem Expects.beginsProgram (h : Expects Language.grammar tokens consumed s) :
    BeginsProgram (consumed.map Token.kind) := by
  refine Language.beginsProgram_of_derives (α := symbols s.stack) ?_
  rw [← terminals_eq]
  exact h.derives

/-- While something is left to be found, what was consumed is no program. -/
theorem Expects.not_isProgram (h : Expects Language.grammar tokens consumed s)
    (hs : symbols s.stack ≠ []) : ¬ IsProgram (consumed.map Token.kind) := by
  intro hprogram
  refine hs (Language.eq_nil_of_isProgram hprogram ?_)
  rw [← terminals_eq]
  exact h.derives

/-- At the bottom what was consumed is a program. -/
theorem Tracks.isProgram (h : Tracks Language.grammar (consumed ++ s.ahead) s) (hs : AtBottom s) :
    IsProgram (consumed.map Token.kind) := by
  obtain ⟨-, t, -, htag, hconforms, hleaves⟩ := h.exists_tree hs
  rw [List.map_append] at hleaves
  have hyields := hconforms.yields (x := .nonterminal Language.grammar.start) htag
  rw [List.append_cancel_right hleaves, kinds_leaves] at hyields
  exact hyields.derives

/-! ### Tokens that are not looked at -/

/-- Two states with the same stack that have the same tokens ahead, up to and with one `x` behind
which they may differ. -/
structure Abreast (x : Token) (behind behind' : List Token) (s s' : State) : Prop where
  /-- The stacks are the same. -/
  stack : s'.stack = s.stack
  /-- Nothing is inserted in the first state. -/
  inserted : s.inserted = none
  /-- Nothing is inserted in the second state. -/
  inserted' : s'.inserted = none
  /-- The tokens ahead are the same up to `x`. -/
  ahead : ∃ front, s.ahead = front ++ x :: behind ∧ s'.ahead = front ++ x :: behind'

variable {x : Token} {behind behind' : List Token}

theorem Abreast.lookahead (h : Abreast x behind behind' s s') : s'.lookahead = s.lookahead := by
  obtain ⟨front, hahead, hahead'⟩ := h.ahead
  rw [State.lookahead, State.lookahead, h.inserted, h.inserted', hahead, hahead']
  cases front <;> rfl

/-- Until `x` is consumed, the second machine does what the first one does. -/
theorem Abreast.quiet (h : Abreast x behind behind' s s') (hq : Quiet setting s s₁)
    (hleft : behind.length < s₁.ahead.length) :
    ∃ s₁', Quiet setting s' s₁' ∧ Abreast x behind behind' s₁ s₁' := by
  have hins := hq.inserted_eq_none h.inserted
  obtain ⟨front, hahead, hahead'⟩ := h.ahead
  cases hq with
  | @close rest htop =>
    refine ⟨_, .close (h.stack.trans htop), by simp, hins, by simpa using h.inserted', front, ?_⟩
    simpa using ⟨hahead, hahead'⟩
  | @terminal kind rest htop hseen =>
    refine ⟨_, .terminal (h.stack.trans htop) (h.lookahead.trans hseen), by simp, hins, by simp, ?_⟩
    rw [State.matchTerminal_ahead, h.inserted, hahead] at hleft
    rw [State.matchTerminal_ahead, State.matchTerminal_ahead, h.inserted, h.inserted', hahead,
      hahead']
    -- a token before `x` was consumed, as `x` is still ahead
    cases front with
    | nil => simp at hleft
    | cons t front => exact ⟨front, rfl, rfl⟩
  | @expand n i rest htop hi =>
    refine ⟨_, .expand (h.stack.trans htop) (h.lookahead ▸ hi), by simp, hins,
      by simpa using h.inserted', front, ?_⟩
    simpa using ⟨hahead, hahead'⟩

theorem Abreast.quietRun (h : Abreast x behind behind' s s') (hrun : QuietRun setting k s s₁)
    (hleft : behind.length < s₁.ahead.length) :
    ∃ s₁', QuietRun setting k s' s₁' ∧ Abreast x behind behind' s₁ s₁' := by
  induction hrun generalizing s' with
  | refl => exact ⟨s', .refl s', h⟩
  | head hq hrun ih =>
    obtain ⟨s₂', hq', h₂⟩ := h.quiet hq (Nat.lt_of_lt_of_le hleft hrun.ahead_suffix.length_le)
    obtain ⟨s₁', hrun', h₁⟩ := ih h₂ hleft
    exact ⟨s₁', .head hq' hrun', h₁⟩

/-- A machine that is stuck after some quiet steps does not accept its tokens. -/
theorem success_eq_false_of_stuck
    (hrun : QuietRun setting k (State.initial setting.tables.grammar.start tokens) s)
    (hstuck : Stuck setting s.lookahead s.stack) : (outcome setting tokens).success = false := by
  refine Bool.eq_false_iff.2 fun hsuccess => ?_
  obtain ⟨s', hs', herrors, -⟩ := conclude_success_iff.1 hsuccess
  obtain ⟨j, hrun', hbottom⟩ := quietRun_of_finished hs' herrors
  obtain ⟨i, hi⟩ := hrun.to_rest hrun' hbottom.rest
  rw [hi.eq_of_rest hstuck.rest] at hbottom
  exact hstuck.not_atBottom hbottom

/-- **No program begins with what was consumed before an error and the next token.** -/
theorem not_beginsProgram_of_stuck (ht : setting.tables.Paced effort 9 16)
    (hgrammar : setting.tables.grammar = Language.grammar)
    (hrun : QuietRun setting k
      (State.initial setting.tables.grammar.start (consumed ++ x :: behind)) s)
    (hstuck : Stuck setting s.lookahead s.stack) (hahead : s.ahead = x :: behind) :
    ¬ BeginsProgram ((consumed ++ [x]).map Token.kind) := by
  rintro ⟨v, hv⟩
  -- the program goes on with some tokens of the kinds `v`
  obtain ⟨behind', rfl⟩ : ∃ behind' : List Token, behind'.map Token.kind = v :=
    ⟨v.map fun kind => ⟨"", kind, 1⟩, by simp [Function.comp_def]⟩
  have habreast : Abreast x behind behind'
      (State.initial setting.tables.grammar.start (consumed ++ x :: behind))
      (State.initial setting.tables.grammar.start (consumed ++ x :: behind')) :=
    ⟨rfl, rfl, rfl, consumed, rfl, rfl⟩
  obtain ⟨s', hrun', hs'⟩ := habreast.quietRun hrun (by simp [hahead])
  -- so the machine is stuck in the middle of a program
  have hstuck' : Stuck setting s'.lookahead s'.stack := by rwa [hs'.lookahead, hs'.stack]
  have hfalse := success_eq_false_of_stuck hrun' hstuck'
  have htrue : (outcome setting (consumed ++ x :: behind')).success = true := by
    refine success_of_yields ht ?_
    rw [hgrammar]
    have : (consumed ++ x :: behind').map Token.kind =
        (consumed ++ [x]).map Token.kind ++ behind'.map Token.kind := by simp
    rw [this]
    exact Grammar.derives_iff_yields.1 hv
  rw [hfalse] at htrue
  cases htrue

/-- No program begins with a program and a further token. -/
theorem not_beginsProgram_of_isProgram (h : IsProgram (consumed.map Token.kind)) (x : Token) :
    ¬ BeginsProgram ((consumed ++ [x]).map Token.kind) := by
  rintro ⟨v, hv⟩
  rw [List.map_append, List.append_assoc, IsProgram, List.map_append] at hv
  have := Language.eq_nil_of_isProgram h hv
  simp at this

/-! ### The first error of a run -/

theorem step_gaveUp (h : step setting s = .gaveUp s') :
    s.errors ++ [errorAt setting s] <+: s'.errors := by
  rcases step_cases setting s with hbottom | ⟨s₁, hq⟩ | hstuck
  · cases hbottom.step_eq.symm.trans h
  · cases hq.step_eq.symm.trans h
  · have hstumble := hstuck.step_eq.symm.trans h
    rcases stumble_cases setting s with ⟨s₁, h₁, herrors⟩ | ⟨r, -, h₁⟩ | ⟨s₁, -, h₁⟩
    · obtain rfl := Step.gaveUp.inj (h₁.symm.trans hstumble)
      exact ⟨[.unrecoverable (s.line setting)], by simp [herrors]⟩
    · cases h₁.symm.trans hstumble
    · cases h₁.symm.trans hstumble

/-- Errors are not taken back. -/
theorem errors_prefix_conclude (k : Nat) (s : State) :
    s.errors <+: (conclude setting (iterate setting k s)).errors := by
  induction k generalizing s with
  | zero => exact List.prefix_rfl
  | succ k ih =>
    rw [iterate]
    cases hstep : step setting s with
    | finished s₁ =>
      obtain ⟨-, rfl⟩ := step_finished hstep
      simp only [conclude]
      split
      · exact List.prefix_rfl
      · exact List.prefix_append _ _
    | gaveUp s₁ => exact (List.prefix_append _ _).trans (step_gaveUp hstep)
    | running s₁ =>
      refine List.IsPrefix.trans ?_ (ih s₁)
      rcases step_errors hstep with hq | herr
      · exact hq.errors_eq ▸ List.prefix_rfl
      · exact herr ▸ List.prefix_append _ _

/-- A run without a new error is quiet. -/
theorem quietRun_of_running (h : iterate setting k s = .running s') (he : s'.errors = s.errors) :
    QuietRun setting k s s' := by
  induction k generalizing s with
  | zero =>
    obtain rfl := Step.running.inj h
    exact .refl _
  | succ k ih =>
    cases hstep : step setting s with
    | finished s₁ | gaveUp s₁ =>
      rw [iterate, hstep] at h
      cases h
    | running s₁ =>
      rw [iterate_of_running hstep] at h
      rcases step_errors hstep with hq | herr
      · exact .head hq (ih h (he.trans hq.errors_eq.symm))
      · -- the error of the first step would be there at the end
        have hprefix : s₁.errors <+: (conclude setting (iterate setting k s₁)).errors :=
          errors_prefix_conclude k s₁
        rw [h, conclude, herr, he] at hprefix
        have := hprefix.length_le
        simp at this

/-- The error at which the machine is stuck is reported. -/
theorem Stuck.errors_prefix (hstuck : Stuck setting s.lookahead s.stack) (k : Nat) :
    s.errors ++ [errorAt setting s] <+: (conclude setting (iterate setting (k + 1) s)).errors := by
  rw [iterate]
  cases hstep : step setting s with
  | finished s₁ => exact absurd (step_finished hstep).1 hstuck.not_atBottom
  | gaveUp s₁ => exact step_gaveUp hstep
  | running s₁ =>
    rcases step_errors hstep with hq | herr
    · exact absurd hstuck hq.not_stuck
    · exact herr ▸ errors_prefix_conclude k s₁

/-- **A run is quiet up to its end or its first error.** -/
theorem exists_first_rest {steps : Nat} (h : ∀ s', iterate setting steps s ≠ .running s') :
    ∃ k s₁, QuietRun setting k s s₁ ∧
      (AtBottom s₁ ∧ iterate setting steps s = .finished s₁ ∨
        Stuck setting s₁.lookahead s₁.stack ∧
          s₁.errors ++ [errorAt setting s₁] <+: (conclude setting (iterate setting steps s)).errors)
      := by
  induction steps generalizing s with
  | zero => exact absurd rfl (h s)
  | succ steps ih =>
    rcases step_cases setting s with hbottom | ⟨s', hq⟩ | hstuck
    · exact ⟨0, s, .refl s, .inl ⟨hbottom, by rw [iterate, hbottom.step_eq]⟩⟩
    · rw [iterate_of_running hq.step_eq] at h ⊢
      obtain ⟨k, s₁, hrun, hcase⟩ := ih h
      exact ⟨k + 1, s₁, .head hq hrun, hcase⟩
    · exact ⟨0, s, .refl s, .inr ⟨hstuck, hstuck.errors_prefix steps⟩⟩

/-! ### What the first error says -/

/-- An error is reported at a state: that at a symbol that does not fit, or that there are tokens
behind the program. -/
def Reports (setting : Setting) (s : State) (e : SyntaxError) : Prop :=
  Stuck setting s.lookahead s.stack ∧ e = errorAt setting s ∨
    AtBottom s ∧ s.ahead ≠ [] ∧ e = .incomplete (s.line setting)

/-- The error at a state tells of its line and of the next token. -/
theorem errorAt_cases (setting : Setting) (s : State) :
    (∃ names context, errorAt setting s = .expected (s.line setting) names s.lexeme context) ∨
      ∃ context, errorAt setting s = .unexpected (s.line setting) s.lexeme context := by
  unfold errorAt
  split
  dsimp only
  split
  · exact .inl ⟨_, _, rfl⟩
  · exact .inr ⟨_, rfl⟩

theorem errorAt_line (setting : Setting) (s : State) :
    (errorAt setting s).line = s.line setting := by
  obtain ⟨names, context, h⟩ | ⟨context, h⟩ := errorAt_cases setting s <;> rw [h] <;> rfl

theorem errorAt_found? (setting : Setting) (s : State) :
    (errorAt setting s).found? = some s.lexeme := by
  obtain ⟨names, context, h⟩ | ⟨context, h⟩ := errorAt_cases setting s <;> rw [h] <;> rfl

theorem Reports.line_eq {e : SyntaxError} (h : Reports setting s e) :
    e.line = s.line setting := by
  rcases h with ⟨-, rfl⟩ | ⟨-, -, rfl⟩
  · exact errorAt_line setting s
  · rfl

theorem Reports.found?_eq {e : SyntaxError} (h : Reports setting s e) {found : String}
    (hfound : e.found? = some found) : found = s.lexeme := by
  rcases h with ⟨-, rfl⟩ | ⟨-, -, rfl⟩
  · rw [errorAt_found?] at hfound
    exact (Option.some.inj hfound).symm
  · cases hfound

theorem Reports.incomplete_iff {e : SyntaxError} (h : Reports setting s e) :
    (∃ line, e = .incomplete line) ↔ AtBottom s := by
  rcases h with ⟨hstuck, rfl⟩ | ⟨hbottom, -, rfl⟩
  · refine iff_of_false ?_ hstuck.not_atBottom
    rintro ⟨line, hline⟩
    have := errorAt_found? setting s
    rw [hline] at this
    cases this
  · exact iff_of_true ⟨_, rfl⟩ hbottom

/-- The machine comes quietly to the state at which it reports its first error. -/
theorem exists_reports (ht : setting.tables.Paced effort 9 16)
    (h : (outcome setting tokens).success = false) :
    ∃ k s e later, QuietRun setting k (State.initial setting.tables.grammar.start tokens) s ∧
      Reports setting s e ∧ (outcome setting tokens).errors = e :: later := by
  obtain ⟨k, s, hrun, ⟨hbottom, hend⟩ | ⟨hstuck, later, hlater⟩⟩ :=
    exists_first_rest (iterate_initial_ne_running ht setting.tables.grammar.start tokens)
  · have herrors : s.errors = [] := hrun.errors_eq
    -- at the bottom all tokens are consumed, unless this is the error
    have hahead : s.ahead ≠ [] := by
      intro hnil
      have hsuccess : (outcome setting tokens).success = true :=
        conclude_success_iff.2 ⟨s, hend, herrors, hnil⟩
      rw [h] at hsuccess
      cases hsuccess
    refine ⟨k, s, _, [], hrun, .inr ⟨hbottom, hahead, rfl⟩, ?_⟩
    rw [outcome, hend]
    simp [conclude, hahead, herrors]
  · have herrors : s.errors = [] := hrun.errors_eq
    rw [herrors] at hlater
    exact ⟨k, s, _, later, hrun, .inl ⟨hstuck, rfl⟩, hlater.symm⟩

/-- The first error is reported at the first wrong token, and at the bottom exactly if a program
was consumed. -/
theorem Reports.firstWrong (ht : setting.tables.Paced effort 9 16)
    (hgrammar : setting.tables.grammar = Language.grammar) {e : SyntaxError}
    (hrun : QuietRun setting k (State.initial setting.tables.grammar.start tokens) s)
    (h : Reports setting s e) :
    ∃ p, FirstWrong tokens p ∧ s.ahead = tokens.drop p ∧
      (AtBottom s ↔ IsProgram ((tokens.take p).map Token.kind)) := by
  obtain ⟨consumed, hexpects⟩ := (Expects.initial setting.tables.grammar tokens).quietRun ht hrun
  rw [hgrammar] at hexpects
  have htracks := (Tracks.initial setting.tables.grammar tokens).quietRun ht
    (hgrammar ▸ Language.nodup_alternatives) hrun
  rw [hgrammar] at htracks
  obtain rfl := hexpects.tokens
  have hprogram : AtBottom s ↔ IsProgram (consumed.map Token.kind) := by
    refine ⟨htracks.isProgram, fun hisProgram => ?_⟩
    rcases h with ⟨hstuck, -⟩ | ⟨hbottom, -⟩
    · exact absurd hisProgram (hexpects.not_isProgram hstuck.symbols_ne_nil)
    · exact hbottom
  refine ⟨consumed.length, ⟨by simp, ?_, fun hlt => ?_⟩, List.drop_left.symm, ?_⟩
  · rw [List.take_left]
    exact hexpects.beginsProgram
  · -- there is a token ahead, and it is wrong behind what was consumed
    obtain ⟨x, behind, hahead⟩ : ∃ x behind, s.ahead = x :: behind := by
      refine List.exists_cons_of_ne_nil fun hnil => ?_
      simp [hnil] at hlt
    have htake : (consumed ++ s.ahead).take (consumed.length + 1) = consumed ++ [x] := by
      rw [hahead, List.take_length_add_append]
      rfl
    rw [htake]
    rcases h with ⟨hstuck, -⟩ | ⟨hbottom, -⟩
    · rw [hahead] at hrun
      exact not_beginsProgram_of_stuck ht hgrammar hrun hstuck hahead
    · exact not_beginsProgram_of_isProgram (hprogram.1 hbottom) x
  · rw [List.take_left]
    exact hprogram

theorem State.line_eq_of_drop (tables : Grammar.Tables Nonterminal Token.Kind) (limits : Limits)
    {p : Nat} (h : s.ahead = tokens.drop p) :
    s.line (Setting.ofTokens tables limits tokens) =
      (tokens[p]?.or tokens.getLast?).elim 1 Token.line := by
  rw [← List.head?_drop, ← h, State.line]
  cases s.ahead <;> rfl

theorem State.lexeme_eq_of_drop {p : Nat} (h : s.ahead = tokens.drop p) (hins : s.inserted = none) :
    s.lexeme = tokens[p]?.elim "$" Token.lexeme := by
  rw [← List.head?_drop, ← h, State.lexeme, hins]
  cases s.ahead <;> rfl

/-- **The first error is at the first wrong token.**  A row of tokens that is not accepted has one
place up to which it begins a program, but not beyond.  The machine comes quietly to this place, and
there it reports its first error: with the line of the token there, or of the last one at the end of
the row, and with this token, if it tells of one.  It reports that there are tokens behind the
program exactly if those before the place form one. -/
theorem first_error_at_first_wrong : ∃ tables, Language.tables = .ok tables ∧
    ∀ (limits : Limits) (tokens : List Token),
      (ofTokens tables limits tokens).success = false →
      let setting := Setting.ofTokens tables limits tokens
      (∃! p, FirstWrong tokens p) ∧ ∀ p, FirstWrong tokens p →
        ∃ e later, (ofTokens tables limits tokens).errors = e :: later ∧
          (∃ k s, QuietRun setting k (State.initial .program tokens) s ∧
            s.ahead = tokens.drop p ∧ Reports setting s e) ∧
          e.line = (tokens[p]?.or tokens.getLast?).elim 1 Token.line ∧
          (∀ found, e.found? = some found → found = tokens[p]?.elim "$" Token.lexeme) ∧
          ((∃ line, e = .incomplete line) ↔ IsProgram ((tokens.take p).map Token.kind)) := by
  obtain ⟨tables, htables, hgrammar, ht⟩ := Language.exists_tables
  refine ⟨tables, htables, fun limits tokens hfalse => ?_⟩
  intro setting
  have hstart : tables.grammar.start = .program := by rw [hgrammar]; rfl
  have ht : setting.tables.Paced Language.effort 9 16 := ht
  obtain ⟨k, s, e, later, hrun, hreports, herrors⟩ := exists_reports ht hfalse
  obtain ⟨p, hp, hahead, hprogram⟩ := hreports.firstWrong ht hgrammar hrun
  refine ⟨⟨p, hp, fun q hq => hq.unique hp⟩, fun q hq => ?_⟩
  obtain rfl := hp.unique hq
  refine ⟨e, later, herrors, ⟨k, s, hstart ▸ hrun, hahead, hreports⟩, ?_, ?_, ?_⟩
  · exact hreports.line_eq.trans (State.line_eq_of_drop tables limits hahead)
  · intro found hfound
    rw [hreports.found?_eq hfound]
    exact State.lexeme_eq_of_drop hahead (hrun.inserted_eq_none rfl)
  · exact hreports.incomplete_iff.trans hprogram

end Parse

end Bistro
