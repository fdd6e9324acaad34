import Bistro.ParseTree
import Bistro.Proofs.Grammar.Derivation
import Mathlib.Data.List.Basic

/-!
# Trees that conform to a grammar

A tree conforms to a grammar if the tags of the children of each of its nodes spell one alternative
of the nonterminal at the node, and no other one.  An alternative without symbols is spelled by the
mark `λ`.  The tokens of a conforming tree are what its root yields.

## Main definitions

* `ParseTree.Tag.ofSymbol`, `ParseTree.spelling` — the tags that spell an alternative.
* `ParseTree.Conforms` — a tree conforms to a grammar.
* `ParseTree.Lined` — the nodes of a tree have the lines of their first tokens.

## Main results

* `ParseTree.spelling_injective` — different alternatives are spelled differently.
* `ParseTree.Conforms.yields` — **a conforming tree is a derivation of its tokens.**
-/

namespace Bistro.ParseTree

open Grammar (Production)

/-- The tag of a node for a symbol. -/
def Tag.ofSymbol : Grammar.Symbol Nonterminal Token.Kind → Tag
  | .terminal kind => .token kind
  | .nonterminal n => .nonterminal n

/-- The tags of the children that spell an alternative. -/
def spelling : Production Nonterminal Token.Kind → List Tag
  | [] => [.empty]
  | α => α.map Tag.ofSymbol

theorem Tag.ofSymbol_ne_empty (x : Grammar.Symbol Nonterminal Token.Kind) :
    Tag.ofSymbol x ≠ .empty := by
  cases x <;> simp [ofSymbol]

theorem Tag.ofSymbol_injective : Function.Injective Tag.ofSymbol := by
  intro x y h
  cases x <;> cases y <;> simp_all [ofSymbol]

theorem spelling_of_ne_nil {α : Production Nonterminal Token.Kind} (h : α ≠ []) :
    spelling α = α.map Tag.ofSymbol := by
  cases α with
  | nil => exact absurd rfl h
  | cons x α => rfl

/-- Different alternatives are spelled differently. -/
theorem spelling_injective : Function.Injective spelling := by
  -- no symbol has the tag that spells the alternative without symbols
  have hne : ∀ x α, spelling (x :: α) ≠ spelling [] := by
    intro x α h
    exact Tag.ofSymbol_ne_empty x (List.cons.inj h).1
  intro α β h
  cases α with
  | nil =>
    cases β with
    | nil => rfl
    | cons y β => exact absurd h.symm (hne y β)
  | cons x α =>
    cases β with
    | nil => exact absurd h (hne x α)
    | cons y β => exact List.map_injective_iff.2 Tag.ofSymbol_injective h

/-- A tree conforms to a grammar. -/
inductive Conforms (g : Grammar Nonterminal Token.Kind) : ParseTree → Prop
  /-- A token does. -/
  | leaf (kind : Token.Kind) (lexeme : String) (line : Nat) : Conforms g (leaf kind lexeme line)
  /-- The mark of a nonterminal that vanished does. -/
  | lambda (line : Nat) : Conforms g (lambda line)
  /-- An expanded nonterminal does if its children do and spell exactly one of its alternatives. -/
  | interior {n : Nonterminal} {line : Nat} {children : List ParseTree}
      (spells : ∃! i : Nat, ∃ α, (g.alternatives n)[i]? = some α ∧ children.map tag = spelling α)
      (conform : ∀ child ∈ children, Conforms g child) : Conforms g (interior n line children)

variable {g : Grammar Nonterminal Token.Kind}

/-- An alternative that stands once is spelled by no other one. -/
theorem existsUnique_alternative {n : Nonterminal} {α : Production Nonterminal Token.Kind}
    {tags : List Tag} (hg : (g.alternatives n).Nodup) (hα : α ∈ g.alternatives n)
    (htags : tags = spelling α) :
    ∃! i : Nat, ∃ β, (g.alternatives n)[i]? = some β ∧ tags = spelling β := by
  obtain ⟨i, hi⟩ := List.mem_iff_getElem?.1 hα
  refine ⟨i, ⟨α, hi, htags⟩, ?_⟩
  rintro j ⟨β, hj, hβ⟩
  obtain rfl : α = β := spelling_injective (htags.symm.trans hβ)
  obtain ⟨hlt, -⟩ := List.getElem?_eq_some_iff.1 hj
  exact (List.getElem?_inj hlt hg).1 (hj.trans hi.symm)

/-! ### Tokens -/

@[simp] theorem leavesAll_nil : leavesAll [] = [] := rfl

@[simp] theorem leavesAll_cons (t : ParseTree) (ts : List ParseTree) :
    leavesAll (t :: ts) = t.leaves ++ leavesAll ts := rfl

@[simp] theorem leavesAll_append (ts us : List ParseTree) :
    leavesAll (ts ++ us) = leavesAll ts ++ leavesAll us := by
  induction ts with
  | nil => rfl
  | cons t ts ih => simp [ih]

@[simp] theorem leaves_leaf (kind : Token.Kind) (lexeme : String) (line : Nat) :
    (leaf kind lexeme line).leaves = [leaf kind lexeme line] := rfl

@[simp] theorem leaves_lambda (line : Nat) : (lambda line).leaves = [] := rfl

@[simp] theorem leaves_interior (n : Nonterminal) (line : Nat) (children : List ParseTree) :
    (interior n line children).leaves = leavesAll children := rfl

/-- The kinds of the tokens in a row of nodes. -/
def kinds (ts : List ParseTree) : List Token.Kind := ts.filterMap token?

@[simp] theorem kinds_append (ts us : List ParseTree) : kinds (ts ++ us) = kinds ts ++ kinds us :=
  List.filterMap_append

/-- Every node of a tree has the line of its first token. -/
inductive Lined : ParseTree → Prop
  | leaf (kind : Token.Kind) (lexeme : String) (line : Nat) : Lined (leaf kind lexeme line)
  | lambda (line : Nat) : Lined (lambda line)
  | interior {n : Nonterminal} {line : Nat} {children : List ParseTree}
      (first : ∀ leaf ∈ (leavesAll children).head?, leaf.line = line)
      (lined : ∀ child ∈ children, Lined child) : Lined (interior n line children)

/-- What the children of a node yield, if it is known what each of them does. -/
theorem yields_leavesAll {children : List ParseTree} {α : Production Nonterminal Token.Kind}
    (h : ∀ child ∈ children, ∀ x, child.tag = Tag.ofSymbol x → g.Yields [x] (kinds child.leaves))
    (htags : children.map tag = α.map Tag.ofSymbol) : g.Yields α (kinds (leavesAll children)) := by
  induction children generalizing α with
  | nil =>
    obtain rfl : α = [] := by simpa using htags.symm
    exact .nil
  | cons child children ih =>
    cases α with
    | nil => simp at htags
    | cons x α =>
      obtain ⟨hx, hα⟩ := List.cons.inj htags
      have hfirst := h child List.mem_cons_self x hx
      have hrest := ih (fun c hc => h c (List.mem_cons_of_mem _ hc)) hα
      rw [leavesAll_cons, kinds_append]
      exact hfirst.append hrest

/-- **A conforming tree is a derivation of its tokens.** -/
theorem Conforms.yields {t : ParseTree} (h : Conforms g t)
    {x : Grammar.Symbol Nonterminal Token.Kind} (hx : t.tag = Tag.ofSymbol x) :
    g.Yields [x] (kinds t.leaves) := by
  induction h generalizing x with
  | leaf kind lexeme line =>
    obtain rfl : x = .terminal kind := Tag.ofSymbol_injective hx.symm
    exact .terminal .nil
  | lambda line => exact absurd hx.symm (Tag.ofSymbol_ne_empty x)
  | @interior n line children spells _ ih =>
    obtain rfl : x = .nonterminal n := Tag.ofSymbol_injective hx.symm
    obtain ⟨i, ⟨α, hα, htags⟩, -⟩ := spells
    have hyields : g.Yields α (kinds (leavesAll children)) := by
      cases α with
      | nil =>
        -- the only child is the mark, which has no tokens
        obtain ⟨child, rfl, hchild⟩ := List.map_eq_singleton_iff.1 htags
        cases child with
        | mk tag value line children =>
          obtain rfl : tag = .empty := hchild
          exact .nil
      | cons y α => exact yields_leavesAll (fun c hc x hx => ih c hc hx) htags
    have := Grammar.Yields.nonterminal (List.mem_of_getElem? hα) hyields .nil
    rwa [List.append_nil] at this

end Bistro.ParseTree
