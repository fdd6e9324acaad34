import Bistro.Grammar.Basic
import Mathlib.Logic.Relation

/-!
# Derivations

A sequence of symbols is rewritten by putting one of its alternatives in the place of a nonterminal.
What a sequence derives is what any number of such replacements leads to, in whatever order they are
made.

A parser makes them from left to right.  For its sake the same notion is given a second time, along
the sequence: a terminal yields itself, and a nonterminal what one of its alternatives yields.

## Main definitions

* `Grammar.Rewrites`, `Grammar.Derives` — one replacement, and any number of them.
* `Grammar.Yields` — the terminals that a sequence yields from left to right.

## Main results

* `Grammar.derives_iff_yields` — a sequence derives exactly the rows of terminals that it yields.
-/

namespace Bistro.Grammar

variable {N T : Type} [DecidableEq N]

/-- One nonterminal is replaced by one of its alternatives. -/
def Rewrites (g : Grammar N T) (u v : List (Symbol N T)) : Prop :=
  ∃ before n α behind, α ∈ g.alternatives n ∧ u = before ++ .nonterminal n :: behind ∧
    v = before ++ α ++ behind

/-- Any number of nonterminals is replaced, one after the other. -/
def Derives (g : Grammar N T) : List (Symbol N T) → List (Symbol N T) → Prop :=
  Relation.ReflTransGen g.Rewrites

/-- The terminals that a sequence yields, symbol by symbol. -/
inductive Yields (g : Grammar N T) : List (Symbol N T) → List T → Prop
  /-- The empty sequence yields nothing. -/
  | nil : Yields g [] []
  /-- A terminal yields itself. -/
  | terminal {t : T} {α : List (Symbol N T)} {w : List T} (rest : Yields g α w) :
      Yields g (.terminal t :: α) (t :: w)
  /-- A nonterminal yields what one of its alternatives does. -/
  | nonterminal {n : N} {β α : List (Symbol N T)} {u v : List T} (mem : β ∈ g.alternatives n)
      (first : Yields g β u) (rest : Yields g α v) : Yields g (.nonterminal n :: α) (u ++ v)

variable {g : Grammar N T} {α β : List (Symbol N T)} {u v w : List T}

/-! ### Derivations inside a longer sequence -/

theorem Rewrites.append_left (h : g.Rewrites α β) (γ : List (Symbol N T)) :
    g.Rewrites (γ ++ α) (γ ++ β) := by
  obtain ⟨before, n, δ, behind, hδ, rfl, rfl⟩ := h
  exact ⟨γ ++ before, n, δ, behind, hδ, by simp, by simp⟩

theorem Rewrites.append_right (h : g.Rewrites α β) (γ : List (Symbol N T)) :
    g.Rewrites (α ++ γ) (β ++ γ) := by
  obtain ⟨before, n, δ, behind, hδ, rfl, rfl⟩ := h
  exact ⟨before, n, δ, behind ++ γ, hδ, by simp, by simp⟩

theorem Derives.append_left (h : g.Derives α β) (γ : List (Symbol N T)) :
    g.Derives (γ ++ α) (γ ++ β) := by
  induction h with
  | refl => exact .refl
  | tail _ hr ih => exact .tail ih (hr.append_left γ)

theorem Derives.append_right (h : g.Derives α β) (γ : List (Symbol N T)) :
    g.Derives (α ++ γ) (β ++ γ) := by
  induction h with
  | refl => exact .refl
  | tail _ hr ih => exact .tail ih (hr.append_right γ)

/-! ### Yields of a sequence and of its parts -/

theorem Yields.append (hα : g.Yields α u) (hβ : g.Yields β v) : g.Yields (α ++ β) (u ++ v) := by
  induction hα with
  | nil => exact hβ
  | terminal _ ih => exact .terminal ih
  | nonterminal mem first _ _ ih =>
    rw [List.append_assoc]
    exact .nonterminal mem first ih

theorem Yields.of_append (h : g.Yields (α ++ β) w) :
    ∃ u v, w = u ++ v ∧ g.Yields α u ∧ g.Yields β v := by
  induction α generalizing w with
  | nil => exact ⟨[], w, rfl, .nil, h⟩
  | cons x α ih =>
    cases h with
    | terminal rest =>
      obtain ⟨u, v, rfl, hu, hv⟩ := ih rest
      exact ⟨_ :: u, v, rfl, .terminal hu, hv⟩
    | nonterminal mem first rest =>
      obtain ⟨u, v, rfl, hu, hv⟩ := ih rest
      exact ⟨_ ++ u, v, by simp, .nonterminal mem first hu, hv⟩

theorem yields_terminals (w : List T) : g.Yields (w.map .terminal) w := by
  induction w with
  | nil => exact .nil
  | cons t w ih => exact .terminal ih

/-- A replacement loses nothing of what a sequence yields. -/
theorem Rewrites.yields (h : g.Rewrites α β) (hβ : g.Yields β w) : g.Yields α w := by
  obtain ⟨before, n, δ, behind, hδ, rfl, rfl⟩ := h
  -- the yield splits where the sequence does, and its middle part is that of the alternative
  obtain ⟨uv, w, rfl, huv, hw⟩ := hβ.of_append
  obtain ⟨u, v, rfl, hu, hv⟩ := huv.of_append
  rw [List.append_assoc]
  exact hu.append (.nonterminal hδ hv hw)

/-! ### The two notions agree -/

theorem Yields.derives (h : g.Yields α w) : g.Derives α (w.map .terminal) := by
  induction h with
  | nil => exact .refl
  | terminal _ ih => exact Derives.append_left ih [_]
  | @nonterminal n β α u v mem _ _ ihβ ihα =>
    -- first the nonterminal is replaced, then its alternative derived, then what is behind it
    have hn : g.Rewrites (.nonterminal n :: α) (β ++ α) := ⟨[], n, β, α, mem, rfl, rfl⟩
    rw [List.map_append]
    exact .head hn ((ihβ.append_right α).trans (ihα.append_left _))

/-- **A sequence derives exactly the rows of terminals that it yields.** -/
theorem derives_iff_yields : g.Derives α (w.map .terminal) ↔ g.Yields α w := by
  refine ⟨fun h => ?_, Yields.derives⟩
  induction h using Relation.ReflTransGen.head_induction_on with
  | refl => exact yields_terminals w
  | head hr _ ih => exact hr.yields ih

end Bistro.Grammar
