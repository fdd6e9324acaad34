import Bistro.Proofs.Parse.Correct
import Bistro.Proofs.ParseTree.Sound

/-!
# The lines of nodes

When the machine expands a nonterminal, it gives the node the line of the next token.  As long as it
runs quietly, that token is the first one below the node, if there is any.

## Main definitions

* `Parse.LinedNodes` — the nodes that are not yet complete have the lines of their first tokens.
* `Parse.LinedState` — so have all nodes of a state.

## Main results

* `Parse.LinedState.quiet` — quiet steps keep the lines right.
* `Parse.lined_of_success` — **the tree of what the machine accepts has the right lines.**
* `Parse.exists_sound_tree` — what the parser of the language accepts has a sound tree.
-/

namespace Bistro.Parse

open ParseTree (Lined leavesAll)

variable {setting : Setting} {s s' : State}

/-- The open nodes, innermost first, have the lines of their first tokens; a node without tokens so
far has the line of the next one.  The tokens behind the innermost node are `behind`. -/
def LinedNodes : List OpenNode → List ParseTree → Prop
  | [], _ => True
  | node :: outer, behind =>
    (∀ leaf ∈ (leavesAll node.children.reverse ++ behind).head?, leaf.line = node.line) ∧
      (∀ child ∈ node.children, child.Lined) ∧
      LinedNodes outer (leavesAll node.children.reverse ++ behind)

/-- The nodes have the right lines. -/
structure LinedState (s : State) : Prop where
  inserted : s.inserted = none
  opened : LinedNodes s.opened (s.ahead.map leafOf)
  root : ∀ t ∈ s.root, t.Lined

theorem LinedState.initial (start : Nonterminal) (tokens : List Token) :
    LinedState (State.initial start tokens) :=
  ⟨rfl, trivial, nofun⟩

/-- A complete node takes its tokens from those ahead. -/
theorem LinedState.attach {t : ParseTree} (hins : s.inserted = none)
    (hopened : LinedNodes s.opened (t.leaves ++ s.ahead.map leafOf))
    (hroot : ∀ t ∈ s.root, t.Lined) (ht : t.Lined) : LinedState (s.attach t) := by
  unfold State.attach
  cases ho : s.opened with
  | nil =>
    refine ⟨hins, by simp [LinedNodes], fun u hu => ?_⟩
    obtain rfl := Option.some.inj hu
    exact ht
  | cons parent outer =>
    rw [ho] at hopened
    obtain ⟨hfirst, hchildren, houter⟩ := hopened
    have hleaves : leavesAll (t :: parent.children).reverse ++ s.ahead.map leafOf =
        leavesAll parent.children.reverse ++ (t.leaves ++ s.ahead.map leafOf) := by simp
    refine ⟨hins, ⟨?_, ?_, ?_⟩, hroot⟩
    · rw [hleaves]
      exact hfirst
    · exact List.forall_mem_cons.2 ⟨ht, hchildren⟩
    · rw [hleaves]
      exact houter

theorem LinedState.closeNode (h : LinedState s) : LinedState s.closeNode := by
  obtain ⟨hins, hopened, hroot⟩ := h
  unfold State.closeNode
  cases ho : s.opened with
  | nil => exact ⟨hins, by simp [ho, LinedNodes], hroot⟩
  | cons node outer =>
    rw [ho] at hopened
    obtain ⟨hfirst, hchildren, houter⟩ := hopened
    refine LinedState.attach (s := { s with opened := outer }) hins houter hroot ?_
    refine .interior (fun leaf hleaf => ?_) fun child hchild => ?_
    · exact hfirst leaf (by simp [Option.mem_def.1 hleaf])
    · exact hchildren child (List.mem_reverse.1 hchild)

theorem LinedState.closeNodes (n : Nat) (h : LinedState s) : LinedState (s.closeNodes n) := by
  induction n generalizing s with
  | zero => exact h
  | succ n ih => exact ih h.closeNode

theorem LinedState.expand (h : LinedState s) (n : Nonterminal) (i : Nat) (rest : List Item) :
    LinedState (s.expand setting n i rest) := by
  obtain ⟨hins, hopened, hroot⟩ := h
  unfold State.expand
  dsimp only
  split
  · -- a node that vanishes has no tokens
    refine LinedState.attach (s := { s with stack := rest }) hins hopened hroot ?_
    refine .interior (by simp) fun child hchild => ?_
    obtain rfl := List.mem_singleton.1 hchild
    exact .lambda _
  · refine ⟨hins, ⟨fun leaf hleaf => ?_, nofun, hopened⟩, hroot⟩
    -- the machine is on the line of the next token
    cases hahead : s.ahead with
    | nil => simp [hahead] at hleaf
    | cons t ahead =>
      obtain rfl : leafOf t = leaf := by simpa [hahead] using hleaf
      simp [State.line, hahead, leafOf, ParseTree.leaf]

/-- **A quiet step keeps the lines right.** -/
theorem LinedState.quiet (h : LinedState s) (hq : Quiet setting s s') : LinedState s' := by
  cases hq with
  | @close rest htop =>
    exact LinedState.closeNode (s := { s with stack := rest }) ⟨h.inserted, h.opened, h.root⟩
  | expand htop hi => exact h.expand _ _ _
  | @terminal kind rest htop hseen =>
    obtain ⟨hins, hopened, hroot⟩ := h
    obtain ⟨t, ahead, hahead, rfl⟩ := State.exists_ahead hseen hins
    rw [hahead] at hopened
    have hattach : LinedState ({ s with ahead, inserted := none }.attach (leafOf t)) :=
      .attach rfl hopened hroot (.leaf _ _ _)
    simp only [State.matchTerminal, hins, hahead]
    exact ⟨hattach.inserted, hattach.opened, hattach.root⟩

theorem LinedState.quietRun {k : Nat} (h : LinedState s) (hrun : QuietRun setting k s s') :
    LinedState s' := by
  induction hrun with
  | refl => exact h
  | head hq _ ih => exact ih (h.quiet hq)

/-- **The tree of what the machine accepts has the right lines.** -/
theorem lined_of_success {tokens : List Token} (h : (outcome setting tokens).success = true)
    {t : ParseTree} (ht : (outcome setting tokens).tree = some t) : t.Lined := by
  unfold outcome at h ht
  obtain ⟨s, hs, herrors, hahead⟩ := conclude_success_iff.1 h
  obtain ⟨k, hrun, hbottom⟩ := quietRun_of_finished hs herrors
  have hlined := (LinedState.initial setting.tables.grammar.start tokens).quietRun hrun
  have hroot : (s.closeNodes s.opened.length).root = some t := by
    rw [hs] at ht
    simpa [conclude, herrors, hahead] using ht
  exact (hlined.closeNodes _).root t hroot

/-- What the parser of the language accepts has a sound tree of a program. -/
theorem exists_sound_tree {effort : Nonterminal → Nat} {most longest : Nat}
    (ht : setting.tables.Paced effort most longest)
    (hgrammar : setting.tables.grammar = Language.grammar) {tokens : List Token}
    (h : (outcome setting tokens).success = true) :
    ∃ t, (outcome setting tokens).tree = some t ∧ t.tag = .nonterminal .program ∧ t.Sound ∧
      t.tokens = tokens := by
  have hg : ∀ n, (setting.tables.grammar.alternatives n).Nodup :=
    hgrammar ▸ Language.nodup_alternatives
  obtain ⟨t, htree, htag, hconforms, hleaves⟩ := exists_tree_of_success ht hg h
  have hstart : Language.grammar.start = .program := rfl
  rw [hgrammar, hstart] at htag
  rw [hgrammar] at hconforms
  refine ⟨t, htree, htag, ⟨hconforms, lined_of_success h htree⟩, ?_⟩
  have htoken : ParseTree.toToken ∘ leafOf = id := rfl
  rw [ParseTree.tokens, hleaves, List.map_map, htoken, List.map_id]

/-- What the parser accepts has a sound tree of a program, whatever the limits are. -/
theorem exists_accepted_tree : ∃ tables, Language.tables = .ok tables ∧
    ∀ (limits : Limits) (tokens : List Token), (ofTokens tables limits tokens).success = true →
      ∃ tree, (ofTokens tables limits tokens).tree = some tree ∧
        tree.tag = .nonterminal .program ∧ tree.Sound ∧ tree.tokens = tokens := by
  obtain ⟨tables, htables, hgrammar, ht⟩ := Language.exists_tables
  refine ⟨tables, htables, fun limits tokens h => ?_⟩
  rw [ofTokens_eq] at h ⊢
  have ht' : (Setting.ofTokens tables limits tokens).tables.Paced Language.effort 9 16 := ht
  exact exists_sound_tree ht' hgrammar h

end Bistro.Parse
