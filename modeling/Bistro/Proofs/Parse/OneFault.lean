import Bistro.Proofs.Parse.FirstError
import Bistro.Proofs.Parse.Honoured

/-!
# One fault, one error

A row of tokens with one fault is a row that is accepted once the token at the first error is
deleted or replaced, or another one is inserted before it.  Near the end of the row the trial of
such a repair runs to the end of the input and accepts it.  So the machine makes a repair with which
it accepts the rest, and there is no second error.

The terminals that are tried are those which the item on top of a stack can begin with.  On the
stack after the last match this item can be an end mark, which begins with nothing.  Below it there
may be symbols that have vanished in view of the wrong token, so that they are not on the present
stack either; what only these could begin with is not tried.

## Main definitions

* `Parse.Fix` — a change of one token.
* `Parse.Fix.Tried` — a fix that is among the repairs that are tried.
* `Parse.Level` — two states that see the same terminals and have the same stack.
* `Parse.Replayed` — what was consumed leads to the same stacks, whatever comes behind it.

## Main results

* `Parse.Level.quietRun` — machines on one level go the same way.
* `Parse.Trial.accepted_of_quietRun` — **a trial accepts what the machine accepts.**
* `Parse.exists_accepting_repair` — one repair that accepts is enough to have one made.
* `Parse.one_fault_one_error` — **one fault near the end costs one error**, if its fix is tried.
* `Parse.hidden_operator_untried` — an operator behind a literal is not tried.
-/

namespace Bistro.Parse

open Bistro.Language (IsProgram)

variable {setting : Setting} {s s' s₁ s₂ : State} {effort : Nonterminal → Nat} {k : Nat}
  {start : Nonterminal} {tokens consumed behind : List Token}

/-! ### Machines on one level -/

/-- The terminals that a machine has before it. -/
def State.upcoming (s : State) : List Token.Kind := s.inserted.toList ++ s.ahead.map Token.kind

theorem State.lookahead_eq (s : State) : s.lookahead = Grammar.lookAt .atEnd s.upcoming := by
  unfold State.lookahead State.upcoming
  cases s.inserted with
  | some kind => rfl
  | none => cases s.ahead <;> rfl

theorem State.upcoming_matchTerminal {kind : Token.Kind} (setting : Setting) (rest : List Item) :
    (s.matchTerminal setting kind rest).upcoming = s.upcoming.tail := by
  unfold State.upcoming
  rw [State.matchTerminal_ahead, (State.matchTerminal_frame ..).2.2.1]
  cases s.inserted with
  | some _ => rfl
  | none => simp

/-- Two states have the same stack and the same terminals before them. -/
structure Level (s s' : State) : Prop where
  /-- The stacks are the same. -/
  stack : s'.stack = s.stack
  /-- The same terminals come. -/
  upcoming : s'.upcoming = s.upcoming

theorem Level.lookahead (h : Level s s') : s'.lookahead = s.lookahead := by
  rw [State.lookahead_eq, State.lookahead_eq, h.upcoming]

theorem Level.quiet (h : Level s s') (hq : Quiet setting s s₁) :
    ∃ s₁', Quiet setting s' s₁' ∧ Level s₁ s₁' := by
  have hupcoming := h.upcoming
  cases hq with
  | close htop =>
    exact ⟨_, .close (h.stack.trans htop), by simp, by simpa [State.upcoming] using hupcoming⟩
  | terminal htop hseen =>
    refine ⟨_, .terminal (h.stack.trans htop) (h.lookahead.trans hseen), by simp, ?_⟩
    rw [State.upcoming_matchTerminal, State.upcoming_matchTerminal, hupcoming]
  | expand htop hi =>
    refine ⟨_, .expand (h.stack.trans htop) (h.lookahead ▸ hi), by simp, ?_⟩
    simpa [State.upcoming] using hupcoming

/-- **Machines on one level go the same way.** -/
theorem Level.quietRun (h : Level s s') (hrun : QuietRun setting k s s₁) :
    ∃ s₁', QuietRun setting k s' s₁' ∧ Level s₁ s₁' := by
  induction hrun generalizing s' with
  | refl => exact ⟨s', .refl s', h⟩
  | head hq _ ih =>
    obtain ⟨s₂', hq', h₂⟩ := h.quiet hq
    obtain ⟨s₁', hrun', h₁⟩ := ih h₂
    exact ⟨s₁', .head hq' hrun', h₁⟩

/-! ### Other tokens behind what was consumed -/

/-- The machine comes quietly to a stack, with certain tokens ahead. -/
def ComesTo (setting : Setting) (start : Nonterminal) (tokens : List Token) (σ : List Item)
    (behind : List Token) : Prop :=
  ∃ k s, QuietRun setting k (State.initial start tokens) s ∧ s.stack = σ ∧ s.inserted = none ∧
    s.ahead = behind

theorem ComesTo.quiet {σ σ' : List Item} {behind' : List Token}
    (h : ComesTo setting start tokens σ behind)
    (hstep : ∀ s : State, s.stack = σ → s.inserted = none → s.ahead = behind →
      ∃ s', Quiet setting s s' ∧ s'.stack = σ' ∧ s'.ahead = behind') :
    ComesTo setting start tokens σ' behind' := by
  obtain ⟨k, s, hrun, hstack, hins, hahead⟩ := h
  obtain ⟨s', hq, hstack', hahead'⟩ := hstep s hstack hins hahead
  exact ⟨_, s', hrun.trans (.single hq), hstack', hq.inserted_eq_none hins, hahead'⟩

/-- What was consumed leads to the stack after the last match, whatever comes behind it, and to the
present stack, if the same terminal is seen behind it. -/
structure Replayed (setting : Setting) (start : Nonterminal) (tokens consumed : List Token)
    (s : State) : Prop where
  /-- What was consumed is in front of what is ahead. -/
  tokens : consumed ++ s.ahead = tokens
  /-- Nothing is inserted. -/
  inserted : s.inserted = none
  /-- The stack after the last match does not depend on what comes. -/
  checkpoint : ∀ behind, ComesTo setting start (consumed ++ behind) s.checkpoint behind
  /-- The present stack depends on what is seen only. -/
  stack : ∀ behind, look none behind = s.lookahead →
    ComesTo setting start (consumed ++ behind) s.stack behind

theorem Replayed.initial (setting : Setting) (start : Nonterminal) (tokens : List Token) :
    Replayed setting start tokens [] (State.initial start tokens) :=
  ⟨rfl, rfl, fun _ => ⟨0, _, .refl _, rfl, rfl, rfl⟩, fun _ _ => ⟨0, _, .refl _, rfl, rfl, rfl⟩⟩

theorem Replayed.quiet (h : Replayed setting start tokens consumed s) (hq : Quiet setting s s') :
    ∃ consumed', Replayed setting start tokens consumed' s' := by
  obtain ⟨htokens, hins, hcheckpoint, hstack⟩ := h
  have hins' := hq.inserted_eq_none hins
  cases hq with
  | @close rest htop =>
    refine ⟨consumed, by simpa using htokens, hins', by simpa using hcheckpoint, ?_⟩
    intro behind hseen
    refine (hstack behind (by simpa [State.lookahead] using hseen)).quiet fun s₀ hs₀ _ hahead => ?_
    exact ⟨_, .close (hs₀.trans htop), by simp, by simpa using hahead⟩
  | @expand n i rest htop hi =>
    refine ⟨consumed, by simpa using htokens, hins', by simpa using hcheckpoint, ?_⟩
    intro behind hseen
    have hseen : look none behind = s.lookahead := by simpa [State.lookahead] using hseen
    refine (hstack behind hseen).quiet fun s₀ hs₀ hins₀ hahead => ?_
    have hsame : s₀.lookahead = s.lookahead := by rw [← hseen, State.lookahead, hins₀, hahead]
    exact ⟨_, .expand (hs₀.trans htop) (hsame ▸ hi), by simp, by simpa using hahead⟩
  | @terminal kind rest htop hseen =>
    obtain ⟨t, ahead, hahead, rfl⟩ := State.exists_ahead hseen hins
    -- with this token in front of it, anything may come behind
    have hmatched : ∀ behind, ComesTo setting start (consumed ++ [t] ++ behind) rest behind := by
      intro behind
      have hlook : look none (t :: behind) = s.lookahead := hseen.symm
      rw [List.append_assoc]
      refine (hstack (t :: behind) hlook).quiet fun s₀ hs₀ hins₀ hahead₀ => ?_
      have hseen₀ : s₀.lookahead = .token t.kind := by rw [State.lookahead, hins₀, hahead₀]; rfl
      refine ⟨_, .terminal (hs₀.trans htop) hseen₀, by simp, ?_⟩
      rw [State.matchTerminal_ahead, hins₀, hahead₀]
      rfl
    refine ⟨consumed ++ [t], ?_, hins', by simpa using hmatched,
      by simpa using fun behind _ => hmatched behind⟩
    rw [State.matchTerminal_ahead, hins, hahead]
    simpa [hahead] using htokens

theorem Replayed.quietRun (h : Replayed setting start tokens consumed s)
    (hrun : QuietRun setting k s s') : ∃ consumed', Replayed setting start tokens consumed' s' := by
  induction hrun generalizing consumed with
  | refl => exact ⟨consumed, h⟩
  | head hq _ ih =>
    obtain ⟨consumed', h'⟩ := h.quiet hq
    exact ih h'

/-! ### Trials accept what the machine accepts -/

/-- A machine that accepts: it is at the bottom of its stack and at the end of the input. -/
structure Accepts (s : State) : Prop where
  /-- The bottom is on top. -/
  bottom : ∃ rest, s.stack = .bottom :: rest
  /-- Nothing comes. -/
  atEnd : s.lookahead = .atEnd

theorem Accepts.rest (h : Accepts s) : ∀ s', ¬ Quiet setting s s' := AtBottom.rest (.inr h.bottom)

/-- Where the machine can accept, a trial that is not too long ends by accepting only. -/
theorem Trial.Shadows.accepted {t : Trial} (h : t.Shadows s) (hground : [.bottom] <:+ s.stack)
    (hrun : QuietRun setting k s s₁) (hs₁ : Accepts s₁) (hshort : t.matched < trialLength)
    {score : Score} (hmove : t.move setting = .ended score) : score = .accepted := by
  -- where the trial ends the machine comes to rest, and it does so at `s₁` only
  have hend : ∀ {x rest}, strip t.stack = x :: rest →
      (x = .bottom ∨ Stuck setting t.lookahead (x :: rest)) →
        x = .bottom ∧ t.lookahead = .atEnd := by
    intro x rest hx hcase
    obtain ⟨j, s', rest', hrun', halike, hstack, -⟩ := h.exists_top setting hx
    have hrest : ∀ s'', ¬ Quiet setting s' s'' := by
      rcases hcase with rfl | hstuck
      · exact AtBottom.rest (.inr ⟨rest', hstack⟩)
      · refine Stuck.rest ?_
        rw [halike.lookahead, ← h.lookahead, hstack]
        cases x <;> exact hstuck
    obtain ⟨i, hi⟩ := hrun'.to_rest hrun hs₁.rest
    obtain rfl := hi.eq_of_rest hrest
    obtain ⟨rest'', hbottom⟩ := hs₁.bottom
    refine ⟨(List.cons.inj (hstack.symm.trans hbottom)).1, ?_⟩
    rw [h.lookahead, ← halike.lookahead]
    exact hs₁.atEnd
  unfold Trial.move at hmove
  rw [if_neg (Nat.not_le.2 hshort)] at hmove
  split at hmove
  · next hstack =>
    -- a stack with a bottom is not used up
    have hmem : .bottom ∈ strip s.stack := List.mem_filter.2 ⟨hground.mem List.mem_cons_self, rfl⟩
    rw [← h.stack, hstack] at hmem
    cases hmem
  · next rest hstack =>
    rw [(hend (by rw [hstack, strip_bottom]) (.inl rfl)).2] at hmove
    exact (Trial.Move.ended.inj hmove).symm
  · cases hmove
  · next kind rest hstack =>
    split at hmove
    · cases hmove
    · next hkind =>
      cases (hend (x := .terminal kind) (by rw [hstack, strip_terminal]) (.inr hkind)).1
  · next n rest hstack =>
    split at hmove
    · next hn => cases (hend (x := .nonterminal n) (by rw [hstack, strip_nonterminal]) (.inr hn)).1
    · cases hmove

/-- **A trial accepts what the machine accepts**, if there are not too many tokens. -/
theorem Trial.accepted_of_quietRun {t : Trial} {moves : Nat} {score : Score}
    (h : t.iterate setting moves = .ended score) (hs : t.Shadows s) (hground : Grounded s)
    (hrun : QuietRun setting k s s₁) (hs₁ : Accepts s₁)
    (hshort : s.ahead.length + t.matched < trialLength) : score = .accepted := by
  induction moves generalizing t s k with
  | zero => cases h
  | succ moves ih =>
    cases hmove : t.move setting with
    | ended score' =>
      rw [iterate_of_ended hmove (Nat.le_add_left 1 moves)] at h
      obtain rfl := Trial.Move.ended.inj h
      exact hs.accepted hground.stack hrun hs₁ (by omega) hmove
    | going t' =>
      rw [iterate_of_going hmove] at h
      obtain ⟨j, s₂, hrun₂, hs₂, hlen, -⟩ := hs.move hmove
      obtain ⟨i, hi⟩ := hrun₂.to_rest hrun hs₁.rest
      exact ih h hs₂ (hground.quietRun hrun₂) hi (by omega)

/-- The score of a repair with which the machine accepts the rest of the input. -/
theorem score_eq_accepted (ht : setting.tables.Paced effort 9 16) {r : Repair} (hs : Grounded s)
    (hrun : QuietRun setting k (s.apply r) s₁) (hs₁ : Accepts s₁)
    (hshort : (s.apply r).ahead.length < trialLength) :
    score setting s (r.stack s) r = .accepted := by
  obtain ⟨score, hscore⟩ := exists_score ht s (r.stack s) r
  have hground : Grounded (s.apply r) := by
    refine ⟨?_, hs.checkpoint⟩
    unfold State.apply
    dsimp only
    split
    · exact hs.checkpoint
    · exact hs.stack
  rw [Parse.score, hscore]
  exact Trial.accepted_of_quietRun hscore ⟨rfl, rfl, rfl⟩ hground hrun hs₁ hshort

/-! ### Repairs that accept -/

theorem foldl_better_accepted {r : Repair} (all : List (Score × Repair)) :
    all.foldl better (some (.accepted, r)) = some (.accepted, r) := by
  induction all with
  | nil => rfl
  | cons x all ih =>
    have hx : better (some (.accepted, r)) x = some (.accepted, r) := by
      unfold better
      cases x.1 <;> simp [Score.beats]
    rw [List.foldl_cons, hx, ih]

/-- A repair that accepts is not beaten by any other. -/
theorem exists_foldl_better {r : Repair} {all : List (Score × Repair)}
    (h : (.accepted, r) ∈ all) (best : Option (Score × Repair)) :
    ∃ r', all.foldl better best = some (.accepted, r') := by
  induction all generalizing best with
  | nil => cases h
  | cons x all ih =>
    rcases List.mem_cons.1 h with rfl | h
    · -- it is taken, unless the best so far accepts as well
      have hx : ∃ r', better best (.accepted, r) = some (.accepted, r') := by
        unfold better
        cases best with
        | none => exact ⟨r, rfl⟩
        | some top =>
          obtain ⟨score, r'⟩ := top
          cases score with
          | matched count => exact ⟨r, rfl⟩
          | accepted => exact ⟨r', rfl⟩
      obtain ⟨r', hr'⟩ := hx
      exact ⟨r', by rw [List.foldl_cons, hr', foldl_better_accepted]⟩
    · exact ih h _

/-- A repair that is tried: it is a candidate on its stack, and it goes on from the stack after the
last match only where that differs. -/
structure Candidate (setting : Setting) (s : State) (r : Repair) : Prop where
  /-- The repair is a candidate. -/
  mem : r ∈ candidates setting s r.fromCheckpoint (r.stack s)
  /-- The two stacks differ, if it matters. -/
  differs : r.fromCheckpoint = true → s.checkpoint ≠ s.stack

/-- All candidates with their scores. -/
def judged (setting : Setting) (s : State) : List (Score × Repair) :=
  let judge (stack : List Item) (r : Repair) := (score setting s stack r, r)
  (candidates setting s false s.stack).map (judge s.stack) ++
    if s.checkpoint = s.stack then []
    else (candidates setting s true s.checkpoint).map (judge s.checkpoint)

theorem repair?_eq (setting : Setting) (s : State) :
    repair? setting s = ((judged setting s).foldl better none).map (·.2) := rfl

theorem mem_judged {x : Score × Repair} : x ∈ judged setting s ↔
    Candidate setting s x.2 ∧ x.1 = score setting s (x.2.stack s) x.2 := by
  obtain ⟨score', r⟩ := x
  unfold judged
  dsimp only
  constructor
  · intro h
    rcases List.mem_append.1 h with h | h
    · obtain ⟨r', hr', heq⟩ := List.mem_map.1 h
      obtain ⟨rfl, rfl⟩ := Prod.mk.inj heq
      have hfrom := (candidates_spec hr').1
      have hstack : r'.stack s = s.stack := by rw [Repair.stack, hfrom]; rfl
      exact ⟨⟨by rwa [hfrom, hstack], by simp [hfrom]⟩, by rw [hstack]⟩
    · split at h
      · cases h
      · next hne =>
        obtain ⟨r', hr', heq⟩ := List.mem_map.1 h
        obtain ⟨rfl, rfl⟩ := Prod.mk.inj heq
        have hfrom := (candidates_spec hr').1
        have hstack : r'.stack s = s.checkpoint := by rw [Repair.stack, hfrom]; rfl
        exact ⟨⟨by rwa [hfrom, hstack], fun _ => hne⟩, by rw [hstack]⟩
  · rintro ⟨⟨hmem, hdiffers⟩, rfl⟩
    rw [List.mem_append]
    cases hfrom : r.fromCheckpoint with
    | false =>
      have hstack : r.stack s = s.stack := by rw [Repair.stack, hfrom]; rfl
      rw [hfrom, hstack] at hmem
      exact .inl (List.mem_map.2 ⟨r, hmem, by rw [hstack]⟩)
    | true =>
      have hstack : r.stack s = s.checkpoint := by rw [Repair.stack, hfrom]; rfl
      rw [hfrom, hstack] at hmem
      rw [if_neg (hdiffers hfrom)]
      exact .inr (List.mem_map.2 ⟨r, hmem, by rw [hstack]⟩)

/-- **One candidate that accepts is enough** for a repair that accepts. -/
theorem exists_accepting_repair {r : Repair} (hr : Candidate setting s r)
    (hscore : score setting s (r.stack s) r = .accepted) :
    ∃ r', repair? setting s = some r' ∧ score setting s (r'.stack s) r' = .accepted := by
  have hmem : (.accepted, r) ∈ judged setting s := mem_judged.2 ⟨hr, hscore.symm⟩
  obtain ⟨r', hbest⟩ := exists_foldl_better hmem none
  refine ⟨r', by rw [repair?_eq, hbest]; rfl, ?_⟩
  rcases foldl_better_spec hbest with hnone | ⟨hmem', -⟩
  · cases hnone
  · exact (mem_judged.1 hmem').2.symm

/-! ### Terminals that are tried -/

theorem mem_row {n : Nonterminal} {a : Lookahead} {i : Nat}
    (h : setting.tables.select? n a = some i) : (a, i) ∈ setting.tables.row n := by
  unfold Grammar.Tables.select? Grammar.Table.select? at h
  obtain ⟨row, hrow, hi⟩ := Option.bind_eq_some_iff.1 h
  unfold Grammar.Tables.row
  rw [hrow]
  exact Dictionary.mem_of_find hi

/-- A terminal at which the machine goes on is expected, unless an end mark is on top. -/
theorem mem_expectedTerminals {kind : Token.Kind} (hq : Quiet setting s s')
    (hseen : s.lookahead = .token kind) (hmark : ∀ rest, s.stack ≠ .endOfProduction :: rest) :
    kind ∈ expectedTerminals setting s.stack := by
  cases hq with
  | close htop => exact absurd htop (hmark _)
  | terminal htop hkind =>
    rw [hseen] at hkind
    obtain rfl := Grammar.Lookahead.token.inj hkind
    rw [htop]
    exact List.mem_singleton_self _
  | expand htop hi =>
    rw [hseen] at hi
    rw [htop]
    exact List.mem_filterMap.2 ⟨_, mem_row hi, rfl⟩

/-! ### Fixes -/

/-- A change of one token. -/
inductive Fix
  /-- The token is deleted. -/
  | delete
  /-- Another token is inserted before it. -/
  | insert (t : Token)
  /-- Another token takes its place. -/
  | replace (t : Token)
  deriving DecidableEq, Repr, Inhabited

namespace Fix

/-- The row of tokens with the change at a place. -/
def apply (p : Nat) (tokens : List Token) : Fix → List Token
  | delete => tokens.eraseIdx p
  | insert t => tokens.take p ++ t :: tokens.drop p
  | replace t => tokens.set p t

/-- The token that is put there. -/
def token? : Fix → Option Token
  | delete => none
  | insert t | replace t => some t

/-- Whether the token that is there goes away. -/
def skips : Fix → Bool
  | insert _ => false
  | delete | replace _ => true

/-- The repair that makes the change. -/
def repair (fix : Fix) (fromCheckpoint : Bool) : Repair :=
  ⟨fromCheckpoint, fix.skips, fix.token?.map Token.kind⟩

/-- A fix is tried if nothing is to be put there, or if there is no end mark on top of the stack
after the last match, or if what has vanished from that stack in view of the wrong token does so in
view of the right one as well. -/
def Tried (setting : Setting) (s : State) (fix : Fix) : Prop :=
  ∀ t ∈ fix.token?, (∀ rest, s.checkpoint ≠ .endOfProduction :: rest) ∨
    ∃ k, Settles setting true (.token t.kind) k s.checkpoint s.stack

/-- A change at the end of what was consumed. -/
theorem apply_append (fix : Fix) (consumed ahead : List Token)
    (h : ahead = [] → fix.skips = false) :
    fix.apply consumed.length (consumed ++ ahead) =
      consumed ++ (fix.token?.toList ++ if fix.skips then ahead.tail else ahead) := by
  cases fix with
  | insert t => simp [apply, token?, skips]
  | delete =>
    cases ahead with
    | nil => cases h rfl
    | cons x ahead => simp [apply, token?, skips, List.eraseIdx_append_of_length_le]
  | replace t =>
    cases ahead with
    | nil => cases h rfl
    | cons x ahead => simp [apply, token?, skips]

/-- At the end of the row there is nothing to delete or to replace. -/
theorem apply_length {fix : Fix} (h : fix.skips = true) (tokens : List Token) :
    fix.apply tokens.length tokens = tokens := by
  cases fix with
  | insert t => cases h
  | delete => exact List.eraseIdx_of_length_le (Nat.le_refl _)
  | replace t => exact List.set_eq_of_length_le (Nat.le_refl _)

end Fix

/-! ### The machine behind a repair -/

/-- A machine that accepts its tokens gets quietly to the end. -/
theorem exists_accepts (h : (outcome setting tokens).success = true) :
    ∃ k s, QuietRun setting k (State.initial setting.tables.grammar.start tokens) s ∧
      Accepts s := by
  obtain ⟨s, hs, herrors, hahead⟩ := conclude_success_iff.1 h
  obtain ⟨k, hrun, hbottom⟩ := quietRun_of_finished hs herrors
  have hground := ((Grounded.initial setting.tables.grammar.start tokens).quietRun hrun).stack
  have hins := hrun.inserted_eq_none rfl
  refine ⟨k, s, hrun, hbottom.resolve_left fun hnil => ?_, ?_⟩
  · simp [hnil] at hground
  · rw [State.lookahead, hins, hahead]
    rfl

/-- Whether tokens are accepted depends on the tables only. -/
theorem success_of_tables_eq {setting' : Setting} (h : (outcome setting' tokens).success = true)
    (htables : setting'.tables = setting.tables) (ht : setting.tables.Paced effort 9 16)
    (hg : ∀ n, (setting.tables.grammar.alternatives n).Nodup) :
    (outcome setting tokens).success = true := by
  rw [← htables] at ht hg
  obtain ⟨t, -, htag, hconforms, hleaves⟩ := exists_tree_of_success ht hg h
  have hyields := hconforms.yields (x := .nonterminal setting'.tables.grammar.start) htag
  rw [hleaves, kinds_leaves, htables] at hyields
  exact success_of_yields (htables ▸ ht) hyields

/-- If other tokens behind what was consumed are accepted, then so is what has the same terminals,
from each stack that the one after the last match leads to in view of them. -/
theorem Replayed.exists_accepts {fixed : List Token} {u : State} {j : Nat}
    (h : Replayed setting setting.tables.grammar.start tokens consumed s)
    (haccept : (outcome setting (consumed ++ fixed)).success = true)
    (hstack : Settles setting true (look none fixed) j s.checkpoint u.stack)
    (hupcoming : u.upcoming = fixed.map Token.kind) :
    ∃ k s₁, QuietRun setting k u s₁ ∧ Accepts s₁ := by
  obtain ⟨k₁, s₁, hrun₁, hs₁⟩ := Parse.exists_accepts haccept
  obtain ⟨k₂, s₂, hrun₂, hstack₂, hins₂, hahead₂⟩ := h.checkpoint fixed
  have hseen : s₂.lookahead = look none fixed := by rw [State.lookahead, hins₂, hahead₂]
  obtain ⟨s₃, hrun₃, hstack₃, halike⟩ := quietRun_of_settles hstack hseen hstack₂
  obtain ⟨k₄, hrun₄⟩ := (hrun₂.trans hrun₃).to_rest hrun₁ hs₁.rest
  have hlevel : Level s₃ u := by
    refine ⟨hstack₃.symm, ?_⟩
    rw [hupcoming, State.upcoming, halike.inserted, halike.ahead, hins₂, hahead₂]
    rfl
  obtain ⟨s₄, hrun₄', hlevel'⟩ := hlevel.quietRun hrun₄
  obtain ⟨rest, hbottom⟩ := hs₁.bottom
  exact ⟨k₄, s₄, hrun₄', ⟨rest, hlevel'.stack.trans hbottom⟩, hlevel'.lookahead.trans hs₁.atEnd⟩

theorem upcoming_apply (s : State) (fix : Fix) (fromCheckpoint : Bool) :
    (s.apply (fix.repair fromCheckpoint)).upcoming =
      (fix.token?.toList ++ if fix.skips then s.ahead.tail else s.ahead).map Token.kind := by
  unfold State.upcoming State.apply Fix.repair
  cases fix.token? <;> rfl

/-- What makes a repair a candidate. -/
theorem mem_candidates {r : Repair} {stack : List Item} (hskip : r.skip = true → s.ahead ≠ [])
    (hdoes : r.skip = true ∨ r.insert.isSome = true)
    (hinsert : ∀ kind ∈ r.insert, kind ∈ expectedTerminals setting stack) :
    r ∈ candidates setting s r.fromCheckpoint stack := by
  obtain ⟨fromCheckpoint, skip, insert⟩ := r
  unfold candidates
  dsimp only
  cases insert with
  | none =>
    have hskip' : skip = true := by simpa using hdoes
    subst hskip'
    simp [hskip rfl]
  | some kind =>
    have hkind := hinsert kind rfl
    cases skip with
    | false => split <;> simp [hkind]
    | true => simp [hskip rfl, hkind]

theorem Stuck.not_mark {a : Lookahead} {σ : List Item} (h : Stuck setting a σ) (rest : List Item) :
    σ ≠ .endOfProduction :: rest := by
  rintro rfl
  exact h

/-- A repair with which the machine accepts is a candidate, if no end mark hides what is put in. -/
theorem Fix.candidate {fix : Fix} {fromCheckpoint : Bool} (hskip : s.ahead = [] → fix.skips = false)
    (hdiffers : fromCheckpoint = true → s.checkpoint ≠ s.stack)
    (hmark : ∀ t ∈ fix.token?, ∀ rest,
      (fix.repair fromCheckpoint).stack s ≠ .endOfProduction :: rest)
    (hrun : QuietRun setting k (s.apply (fix.repair fromCheckpoint)) s₁) (hs₁ : Accepts s₁) :
    Candidate setting s (fix.repair fromCheckpoint) := by
  refine ⟨mem_candidates (fun h hnil => ?_) ?_ fun kind hkind => ?_, hdiffers⟩
  · have h : fix.skips = true := h
    rw [hskip hnil] at h
    cases h
  · cases fix with
    | insert t => exact .inr rfl
    | delete | replace t => exact .inl rfl
  · obtain ⟨t, ht, rfl⟩ := Option.map_eq_some_iff.1 hkind
    have hseen : (s.apply (fix.repair fromCheckpoint)).lookahead = .token t.kind := by
      rw [State.lookahead_eq, upcoming_apply, ht]
      rfl
    -- the machine goes on at this terminal, as it accepts only at the end
    cases hrun with
    | refl => cases hseen.symm.trans hs₁.atEnd
    | head hq _ => exact mem_expectedTerminals hq hseen (hmark t ht)

/-- **A fix that is tried is found**, or another repair with which the machine accepts. -/
theorem exists_repair_of_fix (ht : setting.tables.Paced effort 9 16) {fix : Fix}
    (h : Replayed setting setting.tables.grammar.start tokens consumed s) (hground : Grounded s)
    (hstuck : Stuck setting s.lookahead s.stack) (hshort : s.ahead.length < trialLength)
    (hskip : s.ahead = [] → fix.skips = false)
    (haccept : (outcome setting (fix.apply consumed.length tokens)).success = true)
    (htried : fix.Tried setting s) :
    ∃ r, repair? setting s = some r ∧ score setting s (r.stack s) r = .accepted := by
  rw [← h.tokens, fix.apply_append _ _ hskip] at haccept
  -- one of the two stacks is such that the fix is a candidate on it
  have hchoice : ∃ fromCheckpoint k s₁,
      QuietRun setting k (s.apply (fix.repair fromCheckpoint)) s₁ ∧ Accepts s₁ ∧
      (fromCheckpoint = true → s.checkpoint ≠ s.stack) ∧
      ∀ t ∈ fix.token?, ∀ rest, (fix.repair fromCheckpoint).stack s ≠ .endOfProduction :: rest := by
    by_cases hsame : s.checkpoint = s.stack
    · have hstack : Settles setting true
          (look none (fix.token?.toList ++ if fix.skips then s.ahead.tail else s.ahead)) 0
          s.checkpoint (s.apply (fix.repair false)).stack := by
        rw [hsame]
        exact .refl s.stack
      obtain ⟨k, s₁, hrun, hs₁⟩ := h.exists_accepts haccept hstack (upcoming_apply s fix false)
      exact ⟨false, k, s₁, hrun, hs₁, nofun, fun _ _ => hstuck.not_mark⟩
    · by_cases hmark : ∀ t ∈ fix.token?, ∀ rest, s.checkpoint ≠ .endOfProduction :: rest
      · obtain ⟨k, s₁, hrun, hs₁⟩ := h.exists_accepts haccept (.refl _)
          (upcoming_apply s fix true)
        exact ⟨true, k, s₁, hrun, hs₁, fun _ => hsame, hmark⟩
      · simp only [not_forall] at hmark
        obtain ⟨t, hfix, hhidden⟩ := hmark
        obtain ⟨j, hsettles⟩ := (htried t hfix).resolve_left (by simpa using hhidden)
        have hlook : look none (fix.token?.toList ++ if fix.skips then s.ahead.tail else s.ahead) =
            .token t.kind := by rw [hfix]; rfl
        obtain ⟨k, s₁, hrun, hs₁⟩ := h.exists_accepts haccept (hlook ▸ hsettles)
          (upcoming_apply s fix false)
        exact ⟨false, k, s₁, hrun, hs₁, nofun, fun _ _ => hstuck.not_mark⟩
  obtain ⟨fromCheckpoint, k, s₁, hrun, hs₁, hdiffers, hmark⟩ := hchoice
  refine exists_accepting_repair (Fix.candidate hskip hdiffers hmark hrun hs₁) ?_
  refine score_eq_accepted ht hground hrun hs₁ (Nat.lt_of_le_of_lt ?_ hshort)
  simp only [State.apply]
  split <;> simp

/-! ### One error -/

/-- With a repair that accepts, the machine reports nothing more. -/
theorem errors_of_accepting_repair (ht : setting.tables.Paced effort 9 16) {r : Repair}
    (hrun : QuietRun setting k (State.initial setting.tables.grammar.start tokens) s)
    (hstuck : Stuck setting s.lookahead s.stack) (hlimit : 2 ≤ setting.limits.maxSyntaxErrors)
    (hr : repair? setting (reported setting s) = some r)
    (hscore : score setting (reported setting s) (r.stack (reported setting s)) r = .accepted) :
    (outcome setting tokens).errors = [errorAt setting s] := by
  have herrors : s.errors = [] := hrun.errors_eq
  have hstep := hstuck.step_of_repair hr (by rw [herrors]; exact hlimit)
  -- behind the repair the machine comes to the bottom at the end of the input
  obtain ⟨s₁, hmatch, -, -, hdelivers⟩ := exists_delivers ht hr
  rw [hscore] at hdelivers
  obtain ⟨j₂, s₂, hrun₂, hbottom, hahead, -⟩ := hdelivers
  obtain ⟨j₁, hrun₁⟩ := hmatch.exists_quietRun
  have hquiet := hrun₁.trans hrun₂
  have hfinished : iterate setting (k + (j₁ + j₂ + 1 + 1))
      (State.initial setting.tables.grammar.start tokens) = .finished s₂ := by
    rw [hrun.iterate_eq, iterate_of_running hstep, hquiet.iterate_eq, iterate, hbottom.step_eq]
  have herrors₂ : s₂.errors = [errorAt setting s] := by
    have : s₂.errors = s.errors ++ [errorAt setting s] := hquiet.errors_eq
    rw [this, herrors, List.nil_append]
  rw [outcome, iterate_maxSteps ht hfinished]
  simp [conclude, hahead, herrors₂]

/-- **One fault near the end costs one error**, where the machine is stuck. -/
theorem errors_of_fix (ht : setting.tables.Paced effort 9 16) {fix : Fix}
    (hrun : QuietRun setting k (State.initial setting.tables.grammar.start tokens) s)
    (hstuck : Stuck setting s.lookahead s.stack) (hlimit : 2 ≤ setting.limits.maxSyntaxErrors)
    (h : Replayed setting setting.tables.grammar.start tokens consumed s)
    (hshort : s.ahead.length < trialLength)
    (haccept : (outcome setting (fix.apply consumed.length tokens)).success = true)
    (htried : fix.Tried setting s) : (outcome setting tokens).errors = [errorAt setting s] := by
  have hskip : s.ahead = [] → fix.skips = false := by
    intro hnil
    refine Bool.eq_false_iff.2 fun hskips => ?_
    -- nothing would be changed, but the tokens are not accepted as they are
    obtain rfl : consumed = tokens := by simpa [hnil] using h.tokens
    rw [Fix.apply_length hskips, success_eq_false_of_stuck hrun hstuck] at haccept
    cases haccept
  have hground : Grounded s := (Grounded.initial _ tokens).quietRun hrun
  -- to report the error changes nothing that a repair depends on
  have hreported : Replayed setting setting.tables.grammar.start tokens consumed
      (reported setting s) := ⟨h.tokens, h.inserted, h.checkpoint, h.stack⟩
  obtain ⟨r, hr, hscore⟩ := exists_repair_of_fix ht hreported ⟨hground.stack, hground.checkpoint⟩
    hstuck hshort hskip haccept htried
  exact errors_of_accepting_repair ht hrun hstuck hlimit hr hscore

/-- At the bottom the tokens that are left are the only error. -/
theorem errors_of_atBottom (ht : setting.tables.Paced effort 9 16)
    (hrun : QuietRun setting k (State.initial setting.tables.grammar.start tokens) s)
    (hbottom : AtBottom s) (hahead : s.ahead ≠ []) :
    (outcome setting tokens).errors = [.incomplete (s.line setting)] := by
  have herrors : s.errors = [] := hrun.errors_eq
  have hfinished : iterate setting (k + 1) (State.initial setting.tables.grammar.start tokens) =
      .finished s := by
    rw [hrun.iterate_eq, iterate, hbottom.step_eq]
  rw [outcome, iterate_maxSteps ht hfinished]
  simp [conclude, hahead, herrors]

theorem Reports.isFatal_eq_false {e : SyntaxError} (h : Reports setting s e) :
    e.isFatal = false := by
  rcases h with ⟨-, rfl⟩ | ⟨-, -, rfl⟩
  · obtain ⟨names, context, h⟩ | ⟨context, h⟩ := errorAt_cases setting s <;> rw [h] <;> rfl
  · rfl

/-- **One fault near the end costs one error.**  A row of tokens that is not accepted has a first
wrong token, to which the machine comes quietly and at which it reports its first error.  If the row
ends within thirty-one tokens and a second error would be allowed, then a change of one token at
this place that makes the row acceptable and is tried leaves this error the only one, and it is not
fatal. -/
theorem one_fault_one_error (limits : Limits) (tokens : List Token) :
    ∃ tables, Language.tables = .ok tables ∧
      let setting := Setting.ofTokens tables limits tokens
      ((ofTokens tables limits tokens).success = false →
        ∃ k s e p, QuietRun setting k (State.initial .program tokens) s ∧ Reports setting s e ∧
          s.ahead = tokens.drop p ∧ FirstWrong tokens p ∧
          (tokens.length - p ≤ 31 → 2 ≤ limits.maxSyntaxErrors → ∀ fix : Fix,
            (ofTokens tables limits (fix.apply p tokens)).success = true →
            fix.Tried setting s →
            (ofTokens tables limits tokens).errors = [e] ∧ e.isFatal = false)) := by
  obtain ⟨tables, htables, hgrammar, ht⟩ := Language.exists_tables
  refine ⟨tables, htables, ?_⟩
  intro setting hfalse
  have hstart : tables.grammar.start = .program := by rw [hgrammar]; rfl
  have ht : setting.tables.Paced Language.effort 9 16 := ht
  have hg : ∀ n, (setting.tables.grammar.alternatives n).Nodup :=
    hgrammar ▸ Language.nodup_alternatives
  obtain ⟨k, s, e, later, hrun, hreports, -⟩ := exists_reports ht hfalse
  obtain ⟨p, hp, hahead, -⟩ := hreports.firstWrong ht hgrammar hrun
  refine ⟨k, s, e, p, hstart ▸ hrun, hreports, hahead, hp, ?_⟩
  intro hshort hlimit fix haccept htried
  refine ⟨?_, hreports.isFatal_eq_false⟩
  rcases hreports with ⟨hstuck, rfl⟩ | ⟨hbottom, hne, rfl⟩
  · obtain ⟨consumed, h⟩ := (Replayed.initial setting _ tokens).quietRun hrun
    have hlength : s.ahead.length = tokens.length - p := by rw [hahead, List.length_drop]
    have hconsumed : consumed.length = p := by
      have := congrArg List.length h.tokens
      rw [List.length_append, hlength] at this
      have := hp.le
      omega
    refine errors_of_fix ht hrun hstuck hlimit h ?_ ?_ htried
    · unfold trialLength
      omega
    · rw [hconsumed]
      rw [ofTokens_eq] at haccept
      exact success_of_tables_eq haccept rfl ht hg
  · exact errors_of_atBottom ht hrun hbottom hne

/-! ### A fix that is not tried -/

/-- A program in which a parenthesis stands between two literals, where an operator should. -/
def hiddenOperator : List Token :=
  [⟨"dinein", .dinein, 1⟩, ⟨"chef", .chef, 1⟩, ⟨"pinch", .pinch, 1⟩, ⟨"dish", .dish, 1⟩,
    ⟨"(", .leftParen, 1⟩, ⟨")", .rightParen, 1⟩, ⟨"\x7b", .leftBrace, 1⟩, ⟨"x", .ident, 1⟩,
    ⟨"=", .assign, 1⟩, ⟨"5", .pinchLiteral, 1⟩, ⟨")", .rightParen, 1⟩, ⟨"6", .pinchLiteral, 1⟩,
    ⟨";", .semicolon, 1⟩, ⟨"spit", .spit, 1⟩, ⟨"0", .pinchLiteral, 1⟩, ⟨";", .semicolon, 1⟩,
    ⟨"\x7d", .rightBrace, 1⟩, ⟨"takeout", .takeout, 1⟩]

/-- The operator that should stand there. -/
def operatorFix : Fix := .replace ⟨"+", .plus, 1⟩

-- the machine is run by the kernel; it is stuck after twenty-eight steps
set_option maxRecDepth 10000 in
theorem eval_hiddenOperator : ∀ tables ∈ Language.writtenTables.toOption,
    let setting := Setting.ofTokens tables .standard hiddenOperator
    (∃ s ∈ (iterate setting 28 (State.initial tables.grammar.start hiddenOperator)).running?,
      s.errors = [] ∧ Stuck setting s.lookahead s.stack ∧ s.ahead = hiddenOperator.drop 10) ∧
    (ofTokens tables .standard (operatorFix.apply 10 hiddenOperator)).success = true ∧
    (ofTokens tables .standard hiddenOperator).errors.length = 2 := by
  decide +kernel

/-- **An operator behind a literal is not tried.**  The parenthesis between two literals is the
first wrong token, with an operator in its place the program is accepted, and only eight tokens
remain.  Still there are two errors. -/
theorem hidden_operator_untried : ∃ tables, Language.tables = .ok tables ∧
    (ofTokens tables .standard hiddenOperator).success = false ∧ FirstWrong hiddenOperator 10 ∧
    hiddenOperator.length - 10 ≤ 31 ∧ 2 ≤ Limits.standard.maxSyntaxErrors ∧
    (ofTokens tables .standard (operatorFix.apply 10 hiddenOperator)).success = true ∧
    (ofTokens tables .standard hiddenOperator).errors.length = 2 := by
  obtain ⟨tables, htables, hgrammar, ht⟩ := Language.exists_tables
  obtain ⟨⟨s, hs, herrors, hstuck, hahead⟩, hfixed, htwo⟩ :=
    eval_hiddenOperator tables (Language.mem_writtenTables htables)
  have hrun := quietRun_of_running (Step.mem_running?.1 hs) herrors
  -- the place of the first wrong token is known from the tokens behind it
  obtain ⟨p, hp, hdrop, -⟩ := Reports.firstWrong ht hgrammar hrun (.inl ⟨hstuck, rfl⟩)
  obtain rfl : p = 10 := by
    have hlength := congrArg List.length (hdrop.symm.trans hahead)
    have hle := hp.le
    rw [List.length_drop, List.length_drop] at hlength
    simp only [hiddenOperator, List.length_cons, List.length_nil] at hlength hle
    omega
  exact ⟨tables, htables, success_eq_false_of_stuck hrun hstuck, hp, by decide, by decide, hfixed,
    htwo⟩

end Bistro.Parse
