import Bistro.ParseTree.Cursor
import Bistro.Proofs.ParseTree.Layout
import Mathlib.Data.List.Forall2

/-!
# Sound trees

A tree is sound if it conforms to the grammar of the language and its nodes have the lines of their
first tokens.  The children of a node of a sound tree form a row that the layout describes.

## Main definitions

* `ParseTree.Sound` — a tree of the language.
* `ParseTree.tokens`, `ParseTree.tokensAll` — the tokens of a tree, and of a row of trees.
* `ParseTree.Row` — a row of sound trees with tags from a row of slots.

## Main results

* `ParseTree.Sound.line_eq` — a sound tree has the line of its first token.
* `ParseTree.Sound.exists_row` — the children of a node of a sound tree.
-/

namespace Bistro.ParseTree

/-! ### Sound trees -/

/-- A tree of the language. -/
structure Sound (t : ParseTree) : Prop where
  /-- The tree conforms to the grammar. -/
  conforms : t.Conforms Language.grammar
  /-- Its nodes have the lines of their first tokens. -/
  lined : t.Lined

theorem Sound.children {t : ParseTree} (h : t.Sound) {n : Nonterminal}
    (hn : t.tag = .nonterminal n) :
    (∃ α ∈ Language.grammar.alternatives n, t.children.map tag = spelling α) ∧
      ∀ child ∈ t.children, child.Sound := by
  obtain ⟨hconforms, hlined⟩ := h
  cases hconforms with
  | leaf kind lexeme line => cases hn
  | lambda line => cases hn
  | @interior n' line children spells conform =>
    obtain rfl := Tag.nonterminal.inj hn
    obtain ⟨i, ⟨α, hα, htags⟩, -⟩ := spells
    refine ⟨⟨α, List.mem_of_getElem? hα, htags⟩, fun child hchild => ?_⟩
    cases hlined with
    | interior first lined => exact ⟨conform child hchild, lined child hchild⟩

/-! ### Tokens -/

/-- The token of a leaf. -/
def toToken (t : ParseTree) : Token := ⟨t.lexeme, t.token?.getD default, t.line⟩

@[simp] theorem toToken_lexeme (t : ParseTree) : t.toToken.lexeme = t.lexeme := rfl

@[simp] theorem toToken_line (t : ParseTree) : t.toToken.line = t.line := rfl

/-- The tokens of a tree, in order. -/
def tokens (t : ParseTree) : List Token := t.leaves.map toToken

/-- The tokens of a row of trees, in order. -/
def tokensAll (ts : List ParseTree) : List Token := (leavesAll ts).map toToken

@[simp] theorem tokensAll_nil : tokensAll [] = [] := rfl

@[simp] theorem tokensAll_cons (t : ParseTree) (ts : List ParseTree) :
    tokensAll (t :: ts) = t.tokens ++ tokensAll ts :=
  List.map_append

theorem toToken_kind {t : ParseTree} {kind : Token.Kind} (h : t.tag = .token kind) :
    t.toToken.kind = kind := by
  simp [toToken, token?, h]

theorem tokens_of_token {t : ParseTree} {kind : Token.Kind} (h : t.tag = .token kind) :
    t.tokens = [t.toToken] := by
  obtain ⟨tag, value, line, children⟩ := t
  obtain rfl : tag = .token kind := h
  rfl

theorem tokens_of_empty {t : ParseTree} (h : t.tag = .empty) : t.tokens = [] := by
  obtain ⟨tag, value, line, children⟩ := t
  obtain rfl : tag = .empty := h
  rfl

theorem tokens_of_nonterminal {t : ParseTree} {n : Nonterminal} (h : t.tag = .nonterminal n) :
    t.tokens = tokensAll t.children := by
  obtain ⟨tag, value, line, children⟩ := t
  obtain rfl : tag = .nonterminal n := h
  rfl

theorem tokens_of_node {t : ParseTree} {ns : List Nonterminal} (h : t.tag ∈ Slot.nodes ns) :
    t.tokens = tokensAll t.cursor.rest := by
  obtain ⟨n, -, hn⟩ := List.mem_map.1 h
  exact tokens_of_nonterminal hn.symm

/-- A sound tree has the line of its first token. -/
theorem Sound.line_eq {t : ParseTree} (h : t.Sound) {first : Token} {rest : List Token}
    (ht : t.tokens = first :: rest) : t.line = first.line := by
  cases h.lined with
  | leaf kind lexeme line =>
    obtain ⟨rfl, -⟩ := List.cons.inj ht
    rfl
  | lambda line => cases ht
  | @interior n line children hfirst _ =>
    obtain ⟨leaf, leaves, hleaves, rfl, -⟩ := List.map_eq_cons_iff.1 ht
    rw [leaves_interior] at hleaves
    exact (hfirst leaf (by simp [hleaves])).symm

/-! ### Rows -/

/-- A row of sound trees whose tags are in the slots. -/
def Row (slots : List Slot) (ts : List ParseTree) : Prop :=
  List.Forall₂ (fun t slot => t.Sound ∧ t.tag ∈ slot) ts slots

/-- The children of a node of a sound tree form a row. -/
theorem Sound.exists_row {t : ParseTree} (h : t.Sound) {ns : List Nonterminal}
    (hn : t.tag ∈ Slot.nodes ns) {shapes : List (List Slot)} (hns : ∀ n ∈ ns, layout n = shapes) :
    ∃ slots ∈ shapes, Row slots t.children := by
  obtain ⟨n, hmem, hn⟩ := List.mem_map.1 hn
  obtain ⟨⟨α, hα, htags⟩, hchildren⟩ := h.children hn.symm
  obtain ⟨slots, hslots, hfits⟩ := exists_slots hα
  refine ⟨slots, hns n hmem ▸ hslots, ?_⟩
  rw [← htags, List.forall₂_map_left_iff] at hfits
  exact (List.forall₂_and_left _ _).2 ⟨hchildren, hfits⟩

/-- The children of a node that has one shape only. -/
theorem Sound.row {t : ParseTree} (h : t.Sound) {ns : List Nonterminal} {slots : List Slot}
    (hn : t.tag ∈ Slot.nodes ns) (hns : ∀ n ∈ ns, layout n = [slots]) : Row slots t.children := by
  obtain ⟨_, hslots, hrow⟩ := h.exists_row hn hns
  rwa [List.mem_singleton.1 hslots] at hrow

section
variable {t : ParseTree} {slot : Slot} {slots : List Slot}

theorem Row.vanishes (h : Row [.lambda] t.children) : t.vanishes = true := by
  obtain ⟨child, rest, hchild, hrest, heq⟩ := List.forall₂_cons_right_iff.1 h
  obtain rfl := List.forall₂_nil_right_iff.1 hrest
  have htag : child.tag = .empty := List.mem_singleton.1 hchild.2
  simp [ParseTree.vanishes, heq, htag]

/-- A node that vanishes has no tokens. -/
theorem Row.tokensAll_cursor (h : Row [.lambda] t.children) : tokensAll t.cursor.rest = [] := by
  obtain ⟨child, rest, hchild, hrest, heq⟩ := List.forall₂_cons_right_iff.1 h
  obtain rfl := List.forall₂_nil_right_iff.1 hrest
  change tokensAll t.children = []
  rw [heq, tokensAll_cons, tokens_of_empty (List.mem_singleton.1 hchild.2)]
  rfl

theorem Row.not_vanishes (h : Row (slot :: slots) t.children) (hslot : .empty ∉ slot) :
    ¬ t.vanishes = true := by
  obtain ⟨child, rest, hchild, hrest, heq⟩ := List.forall₂_cons_right_iff.1 h
  intro hvanishes
  unfold ParseTree.vanishes at hvanishes
  rw [heq] at hvanishes
  split at hvanishes
  · next only honly =>
    obtain ⟨rfl, -⟩ := List.cons.inj honly
    have htag : child.tag = .empty := of_decide_eq_true hvanishes
    exact hslot (htag ▸ hchild.2)
  · cases hvanishes

theorem Row.exists_peek? (h : Row (slot :: slots) t.children) :
    ∃ tag ∈ slot, t.cursor.peek? = some tag := by
  obtain ⟨child, rest, hchild, hrest, heq⟩ := List.forall₂_cons_right_iff.1 h
  exact ⟨child.tag, hchild.2, by simp [Cursor.peek?, cursor, heq]⟩

theorem Row.peek?_eq {tag : Tag} (h : Row ([tag] :: slots) t.children) :
    t.cursor.peek? = some tag := by
  obtain ⟨tag', htag, hpeek⟩ := h.exists_peek?
  rwa [List.mem_singleton.1 htag] at hpeek

theorem Row.peek?_ne {tag : Tag} (h : Row (slot :: slots) t.children) (htag : tag ∉ slot) :
    t.cursor.peek? ≠ some tag := by
  obtain ⟨tag', hmem, hpeek⟩ := h.exists_peek?
  rw [hpeek]
  intro heq
  exact htag (Option.some.inj heq ▸ hmem)

end

/-! ### Cursors on rows -/

section
variable {parent : ParseTree} {c : Cursor parent} {slot : Slot} {slots : List Slot}

/-- The next child of a row. -/
theorem Row.next (h : Row (slot :: slots) c.rest) (wanted : ShapeError.Wanted) :
    ∃ (child : Child parent) (c' : Cursor parent), c.next wanted = .ok (child, c') ∧
      child.1.Sound ∧ child.1.tag ∈ slot ∧ Row slots c'.rest ∧
      tokensAll c.rest = child.1.tokens ++ tokensAll c'.rest := by
  obtain ⟨rest, sub⟩ := c
  obtain ⟨child, rest, hchild, hrest, rfl⟩ := List.forall₂_cons_right_iff.1 h
  exact ⟨_, _, rfl, hchild.1, hchild.2, hrest, tokensAll_cons _ _⟩

/-- The next child of a row, where the row has only one tag. -/
theorem Row.expect {tag : Tag} (h : Row ([tag] :: slots) c.rest) (wanted : ShapeError.Wanted) :
    ∃ (child : Child parent) (c' : Cursor parent), c.expect wanted tag = .ok (child, c') ∧
      child.1.Sound ∧ child.1.tag = tag ∧ Row slots c'.rest ∧
      tokensAll c.rest = child.1.tokens ++ tokensAll c'.rest := by
  obtain ⟨child, c', hnext, hsound, htag, hrest, htokens⟩ := h.next wanted
  rw [List.mem_singleton] at htag
  refine ⟨child, c', ?_, hsound, htag, hrest, htokens⟩
  unfold Cursor.expect
  rw [hnext]
  exact if_pos htag

end

end Bistro.ParseTree
