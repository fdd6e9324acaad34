import Bistro.Proofs.Parse.Halting
import Bistro.Proofs.ParseTree.Conforms

/-!
# Parsing is correct

While the machine runs quietly, the nodes that are not yet complete mirror the productions on its
stack: each of them has children for the symbols that were found, and the symbols that are still to
be found stand on the stack, down to the end mark.  At the bottom a complete tree is left, which
conforms to the grammar and holds the tokens that were consumed.

Conversely the machine follows every derivation: the lookahead selects the alternative that the
derivation takes.

## Main definitions

* `Parse.Waits` — the open nodes and the stack below a nonterminal that is being parsed.
* `Parse.Mirrors` — the open nodes mirror the stack.
* `Parse.built` — the tokens of the open nodes.

## Main results

* `Parse.Mirrors.quiet` — quiet steps keep the two stacks in step.
* `Parse.exists_tree` — what the machine accepts has a conforming tree.
* `Parse.follows_derivation` — the machine follows a derivation.
* `Parse.parser_correct` — **the machine accepts what the grammar derives**, with its parse tree.
-/

namespace Bistro.Parse

open Grammar (Production)
open ParseTree (Conforms Tag spelling leavesAll)

variable {setting : Setting} {s s' : State} {effort : Nonterminal → Nat} {most longest : Nat}

/-! ### The two stacks -/

/-- The children of an open node are those for the first symbols of a production. -/
structure Fits (g : Grammar Nonterminal Token.Kind) (node : OpenNode)
    (done todo : Production Nonterminal Token.Kind) : Prop where
  /-- The symbols form a production of the nonterminal at the node. -/
  mem : done ++ todo ∈ g.alternatives node.head
  /-- The children have the tags of the symbols that were found. -/
  tags : node.children.reverse.map ParseTree.tag = done.map Tag.ofSymbol
  /-- The children conform. -/
  conform : ∀ child ∈ node.children, Conforms g child

/-- The stack and the open nodes wait for a nonterminal to be complete. -/
inductive Waits (g : Grammar Nonterminal Token.Kind) :
    Nonterminal → List Item → List OpenNode → Prop
  /-- The start symbol is waited for at the bottom. -/
  | bottom : Waits g g.start [.bottom] []
  /-- A nonterminal is waited for inside a production. -/
  | inside {n : Nonterminal} {done todo : Production Nonterminal Token.Kind} {node : OpenNode}
      {σ : List Item} {outer : List OpenNode} (fits : Fits g node done (.nonterminal n :: todo))
      (below : Waits g node.head σ outer) :
      Waits g n (todo.map Item.ofSymbol ++ .endOfProduction :: σ) (node :: outer)

/-- The open nodes mirror the stack. -/
inductive Mirrors (g : Grammar Nonterminal Token.Kind) :
    List Item → List OpenNode → Option ParseTree → Prop
  /-- Nothing has been done. -/
  | start : Mirrors g [.nonterminal g.start, .bottom] [] none
  /-- The tree is complete. -/
  | complete {t : ParseTree} (tag : t.tag = .nonterminal g.start) (conforms : Conforms g t) :
      Mirrors g [.bottom] [] (some t)
  /-- A production is being parsed. -/
  | inside {done todo : Production Nonterminal Token.Kind} {node : OpenNode} {σ : List Item}
      {outer : List OpenNode} (fits : Fits g node done todo) (ne : done ++ todo ≠ [])
      (below : Waits g node.head σ outer) :
      Mirrors g (todo.map Item.ofSymbol ++ .endOfProduction :: σ) (node :: outer) none

variable {g : Grammar Nonterminal Token.Kind} {σ : List Item} {opened : List OpenNode}
  {root : Option ParseTree}

/-- The node with one child more fits the production with one symbol more found. -/
theorem Fits.push {node : OpenNode} {done todo : Production Nonterminal Token.Kind}
    {x : Grammar.Symbol Nonterminal Token.Kind} {t : ParseTree} (h : Fits g node done (x :: todo))
    (htag : t.tag = Tag.ofSymbol x) (ht : Conforms g t) :
    Fits g { node with children := t :: node.children } (done ++ [x]) todo where
  mem := by simpa using h.mem
  tags := by simp [h.tags, htag]
  conform := by
    intro child hchild
    rcases List.mem_cons.1 hchild with rfl | hchild
    · exact ht
    · exact h.conform child hchild

/-- A complete node takes the place of the nonterminal that was waited for. -/
theorem Waits.attach {n : Nonterminal} (h : Waits g n s.stack s.opened) (hroot : s.root = none)
    {t : ParseTree} (htag : t.tag = .nonterminal n) (ht : Conforms g t) :
    Mirrors g (s.attach t).stack (s.attach t).opened (s.attach t).root := by
  -- the node is the tree, or the next child of the production around it
  generalize hσ : s.stack = σ at h
  generalize ho : s.opened = opened at h
  cases h with
  | bottom =>
    simp only [State.attach, ho, hσ]
    exact .complete htag ht
  | inside fits below =>
    simp only [State.attach, ho, hσ, hroot]
    exact .inside (fits.push (x := .nonterminal n) htag ht) (by simp) below

/-- A nonterminal on top of the stack is waited for below it. -/
theorem Mirrors.waits {n : Nonterminal} {rest : List Item}
    (h : Mirrors g (.nonterminal n :: rest) opened root) : Waits g n rest opened ∧ root = none := by
  generalize hσ : Item.nonterminal n :: rest = σ at h
  cases h with
  | start =>
    obtain ⟨hn, rfl⟩ := List.cons.inj hσ
    obtain rfl := Item.nonterminal.inj hn
    exact ⟨.bottom, rfl⟩
  | complete => cases hσ
  | @inside done todo node σ outer fits ne below =>
    cases todo with
    | nil => cases hσ
    | cons x todo =>
      cases x with
      | terminal kind => cases hσ
      | nonterminal m =>
        obtain ⟨hn, rfl⟩ := List.cons.inj hσ
        obtain rfl := Item.nonterminal.inj hn
        exact ⟨.inside fits below, rfl⟩

/-! ### Quiet steps keep the two stacks in step -/

theorem Mirrors.close {rest : List Item} (h : Mirrors g s.stack s.opened s.root)
    (hg : ∀ n, (g.alternatives n).Nodup) (htop : s.stack = .endOfProduction :: rest)
    (hs' : s' = { s with stack := rest }.closeNode) : Mirrors g s'.stack s'.opened s'.root := by
  rw [htop] at h
  generalize hσ : Item.endOfProduction :: rest = σ at h
  generalize ho : s.opened = opened at h
  generalize hr : s.root = root at h
  cases h with
  | start => cases hσ
  | complete => cases hσ
  | @inside done todo node σ outer fits ne below =>
    cases todo with
    | cons x todo => cases x <;> cases hσ
    | nil =>
      obtain rfl : rest = σ := (List.cons.inj hσ).2
      have hmem := fits.mem
      rw [List.append_nil] at hmem ne
      -- the production is complete, and the children spell it
      have hconforms : Conforms g node.close := by
        refine .interior (ParseTree.existsUnique_alternative (hg _) hmem ?_) fun child hchild => ?_
        · rw [fits.tags, ParseTree.spelling_of_ne_nil ne]
        · exact fits.conform child (List.mem_reverse.1 hchild)
      have hwaits : Waits g node.head rest outer := below
      rw [hs', State.closeNode]
      simp only [ho]
      exact Waits.attach (s := { s with stack := rest, opened := outer }) hwaits hr rfl hconforms

theorem Mirrors.terminal {kind : Token.Kind} {rest : List Item}
    (h : Mirrors g (.terminal kind :: rest) s.opened s.root) (lexeme : String) (line : Nat) :
    Mirrors g rest (s.attach (.leaf kind lexeme line)).opened
      (s.attach (.leaf kind lexeme line)).root := by
  generalize hσ : Item.terminal kind :: rest = σ at h
  generalize ho : s.opened = opened at h
  generalize hr : s.root = root at h
  cases h with
  | start => cases hσ
  | complete => cases hσ
  | @inside done todo node σ outer fits ne below =>
    cases todo with
    | nil => cases hσ
    | cons x todo =>
      cases x with
      | nonterminal m => cases hσ
      | terminal kind' =>
        obtain ⟨hk, rfl⟩ := List.cons.inj hσ
        obtain rfl := Item.terminal.inj hk
        simp only [State.attach, ho, hr]
        exact .inside (fits.push (x := .terminal kind) rfl (.leaf kind lexeme line)) (by simp) below

theorem Mirrors.expand (ht : setting.tables.Paced effort most longest)
    (hg : ∀ n, (setting.tables.grammar.alternatives n).Nodup) {n : Nonterminal} {i : Nat}
    {rest : List Item} (h : Mirrors setting.tables.grammar s.stack s.opened s.root)
    (htop : s.stack = .nonterminal n :: rest)
    (hi : setting.tables.select? n s.lookahead = some i) :
    Mirrors setting.tables.grammar (s.expand setting n i rest).stack
      (s.expand setting n i rest).opened (s.expand setting n i rest).root := by
  rw [htop] at h
  obtain ⟨hwaits, hroot⟩ := h.waits
  obtain ⟨α, hα, -⟩ := (ht.select_iff n _ i).1 hi
  have hmem := List.mem_of_getElem? hα
  have hprod : State.production setting n i = α := by
    rw [State.production, hα]
    rfl
  unfold State.expand
  dsimp only
  rw [hprod]
  -- a production without symbols gives a complete node at once, any other one an open node
  split
  · refine Waits.attach (s := { s with stack := rest }) hwaits hroot rfl (.interior ?_ ?_)
    · exact ParseTree.existsUnique_alternative (hg n) hmem rfl
    · intro child hchild
      obtain rfl := List.mem_singleton.1 hchild
      exact .lambda _
  · next hne =>
    have hne : α ≠ [] := by simpa using hne
    dsimp only
    rw [hroot]
    have hfits : Fits setting.tables.grammar ⟨n, s.line setting, []⟩ [] α := ⟨hmem, rfl, by simp⟩
    exact .inside hfits hne hwaits

theorem Mirrors.root_eq_none (h : Mirrors g σ opened root) (hσ : σ ≠ [.bottom]) : root = none := by
  cases h with
  | start => rfl
  | complete => exact absurd rfl hσ
  | inside => rfl

/-! ### The tokens of the tree -/

/-- The leaf for a token. -/
def leafOf (t : Token) : ParseTree := .leaf t.kind t.lexeme t.line

/-- The tokens of the open nodes, in order. -/
def built : List OpenNode → List ParseTree
  | [] => []
  | node :: outer => built outer ++ leavesAll node.children.reverse

/-- The tokens of the tree and of the open nodes, in order. -/
def harvest (s : State) : List ParseTree := s.root.elim [] ParseTree.leaves ++ built s.opened

theorem harvest_attach (t : ParseTree) (hs : s.root = none) :
    harvest (s.attach t) = harvest s ++ t.leaves := by
  unfold State.attach
  cases ho : s.opened with
  | nil => simp [harvest, built, hs, ho]
  | cons parent outer => simp [harvest, built, hs, ho]

theorem harvest_closeNode (hs : s.root = none) : harvest s.closeNode = harvest s := by
  unfold State.closeNode
  cases ho : s.opened with
  | nil => rfl
  | cons node outer =>
    have hattach := harvest_attach (s := { s with opened := outer }) node.close hs
    dsimp only
    rw [hattach]
    simp [harvest, built, hs, ho, OpenNode.close]

/-- Nothing is inserted, the two stacks are in step, and no token is lost. -/
structure Tracks (g : Grammar Nonterminal Token.Kind) (tokens : List Token) (s : State) : Prop where
  /-- Nothing is inserted. -/
  inserted : s.inserted = none
  /-- The open nodes mirror the stack. -/
  mirrors : Mirrors g s.stack s.opened s.root
  /-- The tokens of the tree and those ahead are all tokens. -/
  tokens : harvest s ++ s.ahead.map leafOf = tokens.map leafOf

theorem Tracks.initial (g : Grammar Nonterminal Token.Kind) (tokens : List Token) :
    Tracks g tokens (State.initial g.start tokens) :=
  ⟨rfl, .start, rfl⟩

/-- **A quiet step keeps the two stacks in step** and loses no token. -/
theorem Tracks.quiet (ht : setting.tables.Paced effort most longest)
    (hg : ∀ n, (setting.tables.grammar.alternatives n).Nodup) {tokens : List Token}
    (h : Tracks setting.tables.grammar tokens s) (hq : Quiet setting s s') :
    Tracks setting.tables.grammar tokens s' := by
  obtain ⟨hins, hmirrors, htokens⟩ := h
  have hroot : s.stack ≠ [.bottom] → s.root = none := hmirrors.root_eq_none
  -- first the two stacks, then the tokens
  refine ⟨hq.inserted_eq_none hins, ?_, ?_⟩
  · cases hq with
    | close htop => exact hmirrors.close hg htop rfl
    | expand htop hi => exact hmirrors.expand ht hg htop hi
    | @terminal kind rest htop hseen =>
      obtain ⟨t, ahead, hahead, -⟩ := State.exists_ahead hseen hins
      rw [htop] at hmirrors
      simp only [State.matchTerminal, hins, hahead]
      exact Mirrors.terminal (s := { s with ahead, inserted := none }) hmirrors t.lexeme t.line
  · cases hq with
    | @close rest htop =>
      have := harvest_closeNode (s := { s with stack := rest }) (hroot (by simp [htop]))
      rw [this, ← htokens]
      simp [harvest]
    | @expand n i rest htop hi =>
      rw [← htokens, (State.expand_frame ..).1]
      congr 1
      unfold State.expand
      dsimp only
      split
      · rw [harvest_attach (s := { s with stack := rest }) _ (hroot (by simp [htop]))]
        simp [harvest]
      · simp [harvest, built]
    | @terminal kind rest htop hseen =>
      obtain ⟨t, ahead, hahead, rfl⟩ := State.exists_ahead hseen hins
      have := harvest_attach (s := { s with ahead }) (leafOf t) (hroot (by simp [htop]))
      rw [← htokens, State.matchTerminal_ahead, hins, hahead]
      simp only [State.matchTerminal, hins, hahead]
      simp_all [harvest, leafOf]

theorem Tracks.quietRun (ht : setting.tables.Paced effort most longest)
    (hg : ∀ n, (setting.tables.grammar.alternatives n).Nodup) {tokens : List Token} {k : Nat}
    (h : Tracks setting.tables.grammar tokens s) (hrun : QuietRun setting k s s') :
    Tracks setting.tables.grammar tokens s' := by
  induction hrun with
  | refl => exact h
  | head hq _ ih => exact ih (h.quiet ht hg hq)

/-- At the bottom the tree is complete, and it has all tokens that were consumed. -/
theorem Tracks.exists_tree {tokens : List Token} (h : Tracks g tokens s) (hs : AtBottom s) :
    s.opened = [] ∧ ∃ t, s.root = some t ∧ t.tag = .nonterminal g.start ∧ t.Conforms g ∧
      t.leaves ++ s.ahead.map leafOf = tokens.map leafOf := by
  obtain ⟨-, hmirrors, htokens⟩ := h
  unfold harvest at htokens
  generalize hσ : s.stack = σ at hmirrors
  generalize ho : s.opened = opened at hmirrors htokens
  generalize hr : s.root = root at hmirrors htokens
  cases hmirrors with
  | start => rcases hs with hs | ⟨rest, hs⟩ <;> simp [hσ] at hs
  | @complete t tag conforms => exact ⟨rfl, t, rfl, tag, conforms, by simpa [built] using htokens⟩
  | @inside done todo =>
    cases todo with
    | nil => rcases hs with hs | ⟨rest, hs⟩ <;> simp [hσ] at hs
    | cons x todo => rcases hs with hs | ⟨rest, hs⟩ <;> cases x <;> simp [hσ, Item.ofSymbol] at hs

/-! ### Runs without errors -/

/-- An error at which the machine goes on stays in the list. -/
theorem stumble_errors (h : stumble setting s = .running s') :
    s'.errors = s.errors ++ [errorAt setting s] := by
  rcases stumble_running_cases h with ⟨r, -, rfl⟩ | ⟨ahead, ends, kept, -, -, rfl⟩
  · rfl
  · simp [reported]

theorem step_errors (h : step setting s = .running s') :
    Quiet setting s s' ∨ s'.errors = s.errors ++ [errorAt setting s] := by
  rcases step_cases setting s with hbottom | ⟨s₁, hq⟩ | hstuck
  · rw [hbottom.step_eq] at h
    cases h
  · obtain rfl := Step.running.inj (hq.step_eq.symm.trans h)
    exact .inl hq
  · exact .inr (stumble_errors (hstuck.step_eq.symm.trans h))

theorem step_finished (h : step setting s = .finished s') : AtBottom s ∧ s' = s := by
  rcases step_cases setting s with hbottom | ⟨s₁, hq⟩ | hstuck
  · exact ⟨hbottom, (Step.finished.inj (hbottom.step_eq.symm.trans h)).symm⟩
  · cases hq.step_eq.symm.trans h
  · exact absurd (hstuck.step_eq.symm.trans h) stumble_ne_finished

theorem errors_prefix {k : Nat} (h : iterate setting k s = .finished s') :
    s.errors <+: s'.errors := by
  induction k generalizing s with
  | zero => cases h
  | succ k ih =>
    cases hstep : step setting s with
    | finished s₁ =>
      rw [iterate, hstep] at h
      obtain rfl := Step.finished.inj h
      obtain ⟨-, rfl⟩ := step_finished hstep
      exact List.prefix_rfl
    | gaveUp s₁ =>
      rw [iterate, hstep] at h
      cases h
    | running s₁ =>
      rw [iterate_of_running hstep] at h
      refine List.IsPrefix.trans ?_ (ih h)
      rcases step_errors hstep with hq | herr
      · exact ⟨[], by simp [hq.errors_eq]⟩
      · exact ⟨[errorAt setting s], herr.symm⟩

/-- A run that ends without an error is quiet. -/
theorem quietRun_of_finished {k : Nat} (h : iterate setting k s = .finished s')
    (he : s'.errors = []) : ∃ j, QuietRun setting j s s' ∧ AtBottom s' := by
  induction k generalizing s with
  | zero => cases h
  | succ k ih =>
    cases hstep : step setting s with
    | finished s₁ =>
      rw [iterate, hstep] at h
      obtain rfl := Step.finished.inj h
      obtain ⟨hbottom, rfl⟩ := step_finished hstep
      exact ⟨0, .refl _, hbottom⟩
    | gaveUp s₁ =>
      rw [iterate, hstep] at h
      cases h
    | running s₁ =>
      rw [iterate_of_running hstep] at h
      rcases step_errors hstep with hq | herr
      · obtain ⟨j, hrun, hbottom⟩ := ih h
        exact ⟨j + 1, .head hq hrun, hbottom⟩
      · have := errors_prefix h
        -- an error is never taken back, but there is none at the end
        rw [he, herr, List.prefix_nil] at this
        simp at this

/-! ### The machine follows derivations -/

/-- The machine quietly consumes a row of terminals for a row of symbols, if certain tokens stand
behind it. -/
def Consumes (setting : Setting) (α : Production Nonterminal Token.Kind) (w : List Token.Kind)
    (behind : List Token) : Prop :=
  ∀ (s : State) (σ : List Item) (tokens : List Token), s.stack = α.map Item.ofSymbol ++ σ →
    s.inserted = none → s.ahead = tokens ++ behind → tokens.map Token.kind = w →
    ∃ k s', QuietRun setting k s s' ∧ s'.stack = σ ∧ s'.inserted = none ∧ s'.ahead = behind

theorem look_append (tokens behind : List Token) :
    look none (tokens ++ behind) =
      Grammar.lookAt (look none behind) (tokens.map Token.kind) := by
  cases tokens <;> rfl

/-- A nonterminal is expanded by the alternative of the derivation, and then this is consumed. -/
theorem Consumes.nonterminal (ht : setting.tables.Paced effort most longest) {n : Nonterminal}
    {β : Production Nonterminal Token.Kind} {u : List Token.Kind} {behind : List Token}
    (hβ : β ∈ setting.tables.grammar.alternatives n) (hu : setting.tables.grammar.Yields β u)
    (hbehind : look none behind ∈ setting.tables.follow.getD n [])
    (h : Consumes setting β u behind) : Consumes setting [.nonterminal n] u behind := by
  intro s σ tokens hstack hins hahead htokens
  -- what is seen is predicted for `β`, so that no other alternative is selected
  have hseen : s.lookahead ∈ setting.tables.predicts n β := by
    rw [State.lookahead, hins, hahead, look_append, htokens]
    exact ht.look_mem_predicts hu hbehind
  obtain ⟨i, hi, rfl⟩ := exists_select ht hβ hseen
  have hq : Quiet setting s (s.expand setting n i σ) := .expand hstack hi
  obtain ⟨k, s₁, hrun, hstack₁, hins₁, hahead₁⟩ := h (s.expand setting n i σ) _ tokens
    (State.expand_stack ..) (by simpa using hins) (by simpa using hahead) htokens
  -- the end mark comes off
  obtain ⟨j, -, -, hmark⟩ :=
    settles_ending setting true s₁.lookahead (State.production setting n i)
  obtain ⟨s₂, hrun₂, hstack₂, halike⟩ := quietRun_of_settles (hmark σ) rfl hstack₁
  exact ⟨_, s₂, .head hq (hrun.trans hrun₂), hstack₂, halike.inserted.trans hins₁,
    halike.ahead.trans hahead₁⟩

/-- **The machine follows a derivation** of the rest of a production. -/
theorem consumes_of_yields (ht : setting.tables.Paced effort most longest)
    {α : Production Nonterminal Token.Kind} {w : List Token.Kind}
    (h : setting.tables.grammar.Yields α w) {n : Nonterminal}
    (before : Production Nonterminal Token.Kind) {behind : List Token}
    (hα : before ++ α ∈ setting.tables.grammar.alternatives n)
    (hbehind : look none behind ∈ setting.tables.follow.getD n []) :
    Consumes setting α w behind := by
  -- `before` is what was consumed of the production; it tells what may stand behind each symbol
  induction h generalizing n before behind with
  | nil =>
    intro s σ tokens hstack hins hahead htokens
    obtain rfl : tokens = [] := List.map_eq_nil_iff.1 htokens
    exact ⟨0, s, .refl s, hstack, hins, hahead⟩
  | @terminal kind α w _ ih =>
    intro s σ tokens hstack hins hahead htokens
    obtain ⟨t, tokens, rfl, rfl, rfl⟩ := List.map_eq_cons_iff.1 htokens
    have hseen : s.lookahead = .token t.kind := by rw [State.lookahead, hins, hahead]; rfl
    have hq : Quiet setting s (s.matchTerminal setting t.kind (α.map Item.ofSymbol ++ σ)) :=
      .terminal hstack hseen
    have hahead' : (s.matchTerminal setting t.kind (α.map Item.ofSymbol ++ σ)).ahead =
        tokens ++ behind := by
      rw [State.matchTerminal_ahead, hins, hahead]
      rfl
    obtain ⟨k, s', hrun, hs'⟩ := ih (before ++ [.terminal t.kind]) (by simpa using hα)
      hbehind _ σ tokens (by simp) (by simp) hahead' rfl
    exact ⟨k + 1, s', .head hq hrun, hs'⟩
  | @nonterminal m β α u v mem first rest ihβ ihα =>
    intro s σ tokens hstack hins hahead htokens
    obtain ⟨tokens₁, tokens₂, rfl, hu, hv⟩ := List.map_eq_append_iff.1 htokens
    -- what stands behind the nonterminal begins with what the rest of the production yields
    have hnext : look none (tokens₂ ++ behind) ∈ setting.tables.follow.getD m [] := by
      refine ht.follow_closed n _ hα before m α rfl _ ?_
      rw [look_append, hv]
      exact ht.look_mem_lookaheads rest hbehind
    have hβ := ihβ [] mem hnext
    obtain ⟨j, s₁, hrun₁, hstack₁, hins₁, hahead₁⟩ :=
      hβ.nonterminal ht mem first hnext s (α.map Item.ofSymbol ++ σ) tokens₁ hstack hins
        (by rw [hahead, List.append_assoc]) hu
    obtain ⟨k, s₂, hrun₂, hs₂⟩ := ihα (before ++ [.nonterminal m]) (by simpa using hα)
      hbehind s₁ σ tokens₂ hstack₁ hins₁ hahead₁ hv
    exact ⟨j + k, s₂, hrun₁.trans hrun₂, hs₂⟩

/-! ### Outcomes -/

/-- A row of tokens is accepted if the machine ends without an error and without tokens ahead. -/
theorem conclude_success_iff {halted : Step} : (conclude setting halted).success = true ↔
    ∃ s, halted = .finished s ∧ s.errors = [] ∧ s.ahead = [] := by
  cases halted with
  | finished s =>
    simp only [conclude, Step.finished.injEq, exists_eq_left', List.isEmpty_iff]
    split
    · next hahead => simp [hahead]
    · next hahead => simp [hahead]
  | gaveUp s => simp [conclude]
  | running s => simp [conclude]

/-- The outcome of parsing with a setting. -/
def outcome (setting : Setting) (tokens : List Token) : Outcome :=
  conclude setting (iterate setting (maxSteps tokens.length)
    (State.initial setting.tables.grammar.start tokens))

theorem ofTokens_eq (tables : Grammar.Tables Nonterminal Token.Kind) (limits : Limits)
    (tokens : List Token) :
    ofTokens tables limits tokens = outcome (Setting.ofTokens tables limits tokens) tokens := rfl

/-- The machine does not give up without an error. -/
theorem errors_of_gaveUp {k : Nat} (h : iterate setting k s = .gaveUp s') : s'.errors ≠ [] := by
  induction k generalizing s with
  | zero => cases h
  | succ k ih =>
    rw [iterate] at h
    rcases step_cases setting s with hbottom | ⟨s₁, hq⟩ | hstuck
    · rw [hbottom.step_eq] at h
      cases h
    · rw [hq.step_eq] at h
      exact ih h
    · rw [hstuck.step_eq] at h
      rcases stumble_cases setting s with ⟨s₁, h₁, herrors⟩ | ⟨r, -, h₁⟩ | ⟨s₁, -, h₁⟩
      · rw [h₁] at h
        obtain rfl := Step.gaveUp.inj h
        simp [herrors]
      · rw [h₁] at h
        exact ih h
      · rw [h₁] at h
        exact ih h

/-- The machine accepts a row of tokens exactly if it has nothing to report about it, and otherwise
it has no tree. -/
theorem outcome_cases (ht : setting.tables.Paced effort 9 16) (tokens : List Token) :
    (outcome setting tokens).success = true ∧ (outcome setting tokens).errors = [] ∨
      (outcome setting tokens).success = false ∧ (outcome setting tokens).errors ≠ [] ∧
        (outcome setting tokens).tree = none := by
  unfold outcome
  -- the steps suffice, so the machine is never stopped on its way
  rcases halts_initial ht setting.tables.grammar.start tokens with ⟨s', _, hend, -⟩ | ⟨s', hend⟩
  · rw [hend, conclude]
    dsimp only
    generalize (if s'.ahead.isEmpty then s'.errors
      else s'.errors ++ [.incomplete (s'.line setting)]) = errors
    cases errors with
    | nil => exact .inl ⟨rfl, rfl⟩
    | cons e errors => exact .inr ⟨rfl, List.cons_ne_nil _ _, rfl⟩
  · rw [hend, conclude]
    exact .inr ⟨rfl, errors_of_gaveUp hend, rfl⟩

/-- What the machine accepts has a conforming tree. -/
theorem exists_tree_of_success (ht : setting.tables.Paced effort most longest)
    (hg : ∀ n, (setting.tables.grammar.alternatives n).Nodup) {tokens : List Token}
    (h : (outcome setting tokens).success = true) :
    ∃ t, (outcome setting tokens).tree = some t ∧
      t.tag = .nonterminal setting.tables.grammar.start ∧ t.Conforms setting.tables.grammar ∧
      t.leaves = tokens.map leafOf := by
  unfold outcome at h ⊢
  obtain ⟨s, hs, herrors, hahead⟩ := conclude_success_iff.1 h
  obtain ⟨k, hrun, hbottom⟩ := quietRun_of_finished hs herrors
  -- without an error the run was quiet, and the two stacks stayed in step
  have htracks := (Tracks.initial setting.tables.grammar tokens).quietRun ht hg hrun
  obtain ⟨hopened, t, hroot, htag, hconforms, hleaves⟩ := htracks.exists_tree hbottom
  refine ⟨t, ?_, htag, hconforms, ?_⟩
  · rw [hs]
    simp [conclude, herrors, hahead, hopened, State.closeNodes, hroot]
  · simpa [hahead] using hleaves

/-- What the grammar derives is accepted. -/
theorem success_of_yields (ht : setting.tables.Paced effort 9 16) {tokens : List Token}
    (h : setting.tables.grammar.Yields [.nonterminal setting.tables.grammar.start]
      (tokens.map Token.kind)) : (outcome setting tokens).success = true := by
  generalize hw : tokens.map Token.kind = w at h
  cases h with
  | @nonterminal _ β _ u v mem first rest =>
    cases rest
    rw [List.append_nil] at hw
    have hbehind : look none [] ∈ setting.tables.follow.getD setting.tables.grammar.start [] :=
      ht.follow_start
    have hβ : Consumes setting β u [] := consumes_of_yields ht first [] mem hbehind
    obtain ⟨k, s, hrun, hstack, hins, hahead⟩ := hβ.nonterminal ht mem first hbehind
      (State.initial setting.tables.grammar.start tokens) [.bottom] tokens rfl rfl
      (List.append_nil _).symm hw
    have hbottom : AtBottom s := .inr ⟨[], hstack⟩
    have hfinished : iterate setting (k + 1) (State.initial setting.tables.grammar.start tokens) =
        .finished s := by
      rw [hrun.iterate_eq, iterate, hbottom.step_eq]
    -- the steps that the machine is given lead to the same end
    exact conclude_success_iff.2 ⟨s, iterate_maxSteps ht hfinished, hrun.errors_eq, hahead⟩

theorem kinds_leaves (tokens : List Token) :
    ParseTree.kinds (tokens.map leafOf) = tokens.map Token.kind := by
  simp [ParseTree.kinds, List.filterMap_map, Function.comp_def, leafOf, ParseTree.leaf,
    ParseTree.token?]

/-- The machine accepts exactly what the start symbol yields. -/
theorem success_iff_yields (ht : setting.tables.Paced effort 9 16)
    (hg : ∀ n, (setting.tables.grammar.alternatives n).Nodup) {tokens : List Token} :
    (outcome setting tokens).success = true ↔
      setting.tables.grammar.Yields [.nonterminal setting.tables.grammar.start]
        (tokens.map Token.kind) := by
  refine ⟨fun h => ?_, success_of_yields ht⟩
  obtain ⟨t, -, htag, hconforms, hleaves⟩ := exists_tree_of_success ht hg h
  have hyields := hconforms.yields (x := .nonterminal setting.tables.grammar.start) htag
  rwa [hleaves, kinds_leaves] at hyields

/-- The tokens of a program as terminals of the grammar. -/
def terminals (tokens : List Token) : List (Grammar.Symbol Nonterminal Token.Kind) :=
  tokens.map fun t => .terminal t.kind

theorem terminals_eq (tokens : List Token) :
    terminals tokens = (tokens.map Token.kind).map .terminal := by
  rw [List.map_map]
  rfl

/-- **The parser of the language accepts exactly the rows of tokens that the grammar derives from
`<program>`.**  Its tree is then the parse tree of a derivation: a program is at the root, the
children of every node spell exactly one alternative, and the leaves are the tokens in order. -/
theorem parser_correct : ∃ tables, Language.tables = .ok tables ∧
    ∀ (limits : Limits) (tokens : List Token),
      ((ofTokens tables limits tokens).success = true ↔
        Language.grammar.Derives [.nonterminal .program] (terminals tokens)) ∧
      ((ofTokens tables limits tokens).success = true →
        ∃ tree, (ofTokens tables limits tokens).tree = some tree ∧
          tree.tag = .nonterminal .program ∧ tree.Conforms Language.grammar ∧
          tree.leaves = tokens.map fun t => .leaf t.kind t.lexeme t.line) := by
  obtain ⟨tables, htables, hgrammar, ht⟩ := Language.exists_tables
  refine ⟨tables, htables, fun limits tokens => ?_⟩
  have hg : ∀ n, (tables.grammar.alternatives n).Nodup := hgrammar ▸ Language.nodup_alternatives
  have hstart : tables.grammar.start = .program := by rw [hgrammar]; rfl
  rw [ofTokens_eq, ← hgrammar, ← hstart, terminals_eq]
  generalize hsetting : Setting.ofTokens tables limits tokens = setting
  obtain rfl : setting.tables = tables := by rw [← hsetting]; rfl
  have htree : (outcome setting tokens).success = true → _ := exists_tree_of_success ht hg
  exact ⟨(success_iff_yields ht hg).trans Grammar.derives_iff_yields.symm, htree⟩

end Bistro.Parse
