import Bistro.Proofs.Grammar.Derivation
import Bistro.Proofs.Language.Tables
import Mathlib.Data.List.Induction

/-!
# Programs and how they begin

Every nonterminal of the language yields something: it has an alternative whose nonterminals are all
less high, for a height that is given to each of them.  So whatever is left to be found can be found
in some continuation, and a row of terminals that stands at the front of a derived form begins a
program.

A program ends with the only `takeout` in it.  So nothing can be left to be found behind a row of
terminals that is a program itself.

## Main definitions

* `Language.IsProgram`, `Language.BeginsProgram` — rows of terminals that are programs, and those
  that can be continued to one.
* `Language.height` — a bound on how high a tree of a nonterminal need be.
* `Language.Shaped` — what is checked of the rules.
* `Language.Sealed` — a form that ends with its only `takeout`.

## Main results

* `Grammar.exists_yields_of_heights` — nonterminals with heights yield something.
* `Language.beginsProgram_of_derives` — **the terminals at the front of a form begin a program.**
* `Language.eq_nil_of_isProgram` — **nothing is left to be found behind a program.**
-/

namespace Bistro

/-! ### Yields of nonterminals -/

namespace Grammar

variable {N T : Type} [DecidableEq N] {g : Grammar N T}

theorem exists_yields_of_forall {α : List (Symbol N T)}
    (h : ∀ n, .nonterminal n ∈ α → ∃ w, g.Yields [.nonterminal n] w) : ∃ w, g.Yields α w := by
  induction α with
  | nil => exact ⟨[], .nil⟩
  | cons x α ih =>
    obtain ⟨v, hv⟩ := ih fun n hn => h n (List.mem_cons_of_mem _ hn)
    cases x with
    | terminal t => exact ⟨t :: v, .terminal hv⟩
    | nonterminal n =>
      obtain ⟨u, hu⟩ := h n List.mem_cons_self
      exact ⟨u ++ v, hu.append hv⟩

/-- Every nonterminal yields something, if each has an alternative whose nonterminals are all less
high. -/
theorem exists_yields_of_heights {height : N → Nat}
    (h : ∀ n, ∃ α ∈ g.alternatives n, ∀ m, .nonterminal m ∈ α → height m < height n) (n : N) :
    ∃ w, g.Yields [.nonterminal n] w := by
  induction hk : height n using Nat.strongRecOn generalizing n with
  | _ k ih =>
    subst hk
    obtain ⟨α, hα, hlower⟩ := h n
    obtain ⟨w, hw⟩ := exists_yields_of_forall (g := g) fun m hm => ih _ (hlower m hm) m rfl
    exact ⟨w ++ [], .nonterminal hα hw .nil⟩

end Grammar

namespace Language

open Grammar (Production)

/-! ### Heights -/

/-- A bound on how high a tree of a nonterminal need be. -/
def height : Nonterminal → Nat
  | .loopingStatement => 4
  | .expression | .arithmeticExp | .condition => 3
  | .expressionOperand | .arithmeticOperand | .conditionOperand => 2
  | .program | .declarations | .localDeclarations | .decOrInit | .statementIdTail | .value
  | .value2 | .value3 | .conditionalStatement | .incDec => 1
  | _ => 0

/-- Whether a symbol is a terminal or less high than a nonterminal. -/
def isLower (n : Nonterminal) : Grammar.Symbol Nonterminal Token.Kind → Bool
  | .terminal _ => true
  | .nonterminal m => height m < height n

/-! ### Checks -/

/-- What is checked of the rules: every nonterminal has an alternative of symbols that are less
high, and only the rules of a program have a `takeout`, at their ends. -/
@[mk_iff]
structure Shaped : Prop where
  /-- The nonterminals with rules are those with FIRST sets. -/
  heads_eq : grammar.heads = firsts.keys
  /-- Every nonterminal has an alternative of symbols that are less high. -/
  lower : ∀ e ∈ grammar.rules.entries, e.2.any (·.all (isLower e.1)) = true
  /-- The rules of a program end with their only `takeout`, and they have no program in them. -/
  program : ∀ e ∈ grammar.rules.entries, ∀ α ∈ e.2, e.1 = .program →
    α = α.dropLast ++ [.terminal .takeout] ∧ .terminal .takeout ∉ α.dropLast ∧
      .nonterminal .program ∉ α.dropLast
  /-- Other rules have neither a `takeout` nor a program in them. -/
  others : ∀ e ∈ grammar.rules.entries, ∀ α ∈ e.2, e.1 ≠ .program →
    .terminal .takeout ∉ α ∧ .nonterminal .program ∉ α

theorem shaped : Shaped := shaped_iff.2 (by decide +kernel)

/-! ### Every nonterminal yields something -/

theorem any_isLower (n : Nonterminal) :
    (grammar.alternatives n).any (·.all (isLower n)) = true := by
  have hhead : n ∈ grammar.heads := by
    rw [shaped.heads_eq]
    cases n <;> decide
  obtain ⟨⟨_, alternatives⟩, hentry, rfl⟩ := List.mem_map.1 hhead
  have hget := (Dictionary.get?_eq_some_iff checked.nodup_keys).2 hentry
  have hlower := shaped.lower _ hentry
  rwa [Grammar.alternatives, Dictionary.getD, hget]

/-- Every row of symbols yields something. -/
theorem exists_yields (α : Production Nonterminal Token.Kind) : ∃ w, grammar.Yields α w := by
  have hlower : ∀ n, ∃ β ∈ grammar.alternatives n,
      ∀ m, .nonterminal m ∈ β → height m < height n := by
    intro n
    obtain ⟨β, hβ, hall⟩ := List.any_eq_true.1 (any_isLower n)
    refine ⟨β, hβ, fun m hm => ?_⟩
    simpa [isLower] using List.all_eq_true.1 hall _ hm
  exact Grammar.exists_yields_of_forall fun n _ => Grammar.exists_yields_of_heights hlower n

/-! ### Beginnings -/

/-- A row of terminals is a program. -/
def IsProgram (w : List Token.Kind) : Prop :=
  grammar.Derives [.nonterminal .program] (w.map .terminal)

/-- A row of terminals can be continued to a program. -/
def BeginsProgram (w : List Token.Kind) : Prop := ∃ v, IsProgram (w ++ v)

/-- What begins a program does so with all its beginnings. -/
theorem BeginsProgram.of_append {w v : List Token.Kind} (h : BeginsProgram (w ++ v)) :
    BeginsProgram w := by
  obtain ⟨u, hu⟩ := h
  exact ⟨v ++ u, by rwa [← List.append_assoc]⟩

/-- **The terminals at the front of a form begin a program.** -/
theorem beginsProgram_of_derives {w : List Token.Kind} {α : Production Nonterminal Token.Kind}
    (h : grammar.Derives [.nonterminal .program] (w.map .terminal ++ α)) : BeginsProgram w := by
  obtain ⟨v, hv⟩ := exists_yields α
  refine ⟨v, ?_⟩
  unfold IsProgram
  rw [List.map_append]
  exact h.trans (hv.derives.append_left _)

/-! ### Ends -/

/-- A form ends with its only `takeout`, and no program stands before that. -/
def Sealed (form : Production Nonterminal Token.Kind) : Prop :=
  ∃ α, form = α ++ [.terminal .takeout] ∧ .terminal .takeout ∉ α ∧ .nonterminal .program ∉ α

theorem Sealed.rewrites {form form' : Production Nonterminal Token.Kind} (h : Sealed form)
    (hr : grammar.Rewrites form form') : Sealed form' := by
  obtain ⟨α, rfl, htakeout, hprogram⟩ := h
  obtain ⟨before, n, β, behind, hβ, hform, rfl⟩ := hr
  -- the replaced nonterminal is not the last symbol, and it is no program
  cases behind using List.reverseRecOn with
  | nil =>
    have := (List.append_inj' hform rfl).2
    cases this
  | append_singleton behind x _ =>
    rw [← List.cons_append, ← List.append_assoc] at hform
    obtain ⟨rfl, hx⟩ := List.append_inj' hform rfl
    obtain rfl : .terminal .takeout = x := (List.cons.inj hx).1
    have hn : n ≠ .program := by
      rintro rfl
      exact hprogram (by simp)
    obtain ⟨alternatives, hentry, hmem⟩ := Grammar.mem_entries_of_mem_alternatives hβ
    obtain ⟨htakeout', hprogram'⟩ := shaped.others _ hentry β hmem hn
    refine ⟨before ++ β ++ behind, by simp, ?_, ?_⟩
    · simp_all
    · simp_all

/-- What a program derives is the program itself or ends with its only `takeout`. -/
theorem sealed_of_derives {form : Production Nonterminal Token.Kind}
    (h : grammar.Derives [.nonterminal .program] form) :
    form = [.nonterminal .program] ∨ Sealed form := by
  induction h with
  | refl => exact .inl rfl
  | tail _ hr ih =>
    rcases ih with rfl | ih
    · -- the first replacement is by the rule of a program
      obtain ⟨before, n, α, behind, hα, hform, rfl⟩ := hr
      obtain ⟨rfl, htop⟩ := List.append_eq_singleton_iff.1 hform.symm |>.resolve_right (by simp)
      obtain ⟨hn, rfl⟩ := List.cons.inj htop
      obtain rfl := Grammar.Symbol.nonterminal.inj hn
      obtain ⟨alternatives, hentry, hmem⟩ := Grammar.mem_entries_of_mem_alternatives hα
      obtain ⟨hlast, htakeout, hprogram⟩ := shaped.program _ hentry α hmem rfl
      exact .inr ⟨α.dropLast, by simpa using hlast, htakeout, hprogram⟩
    · exact .inr (ih.rewrites hr)

/-- **Nothing is left to be found behind a program.** -/
theorem eq_nil_of_isProgram {w : List Token.Kind} {α : Production Nonterminal Token.Kind}
    (hw : IsProgram w) (h : grammar.Derives [.nonterminal .program] (w.map .terminal ++ α)) :
    α = [] := by
  have hend : ∃ β : Production Nonterminal Token.Kind,
      w.map .terminal = β ++ [.terminal .takeout] := by
    rcases sealed_of_derives hw with hw | ⟨β, hβ, -⟩
    · cases w with
      | nil => cases hw
      | cons t w => cases hw
    · exact ⟨β, hβ⟩
  obtain ⟨β, hβ⟩ := hend
  rw [hβ] at h
  rcases sealed_of_derives h with h | ⟨γ, hγ, htakeout, -⟩
  · cases β <;> simp at h
  · -- a symbol behind the program would have to be a second `takeout`
    cases α using List.reverseRecOn with
    | nil => rfl
    | append_singleton α x _ =>
      rw [← List.append_assoc] at hγ
      obtain ⟨rfl, -⟩ := List.append_inj' hγ rfl
      exact absurd (by simp) htakeout

end Language

end Bistro
