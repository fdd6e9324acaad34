import Bistro.Proofs.Program.Words
import Bistro.Proofs.Token.Literal

/-!
# Regular programs

A program that comes from a source text has two features that no type asks for.  Its fractional
literals are numbers, so that they can be compared, and each of its functions has a result exactly
if it has a type for it.  Both are read off the tokens that the program is written with.

## Main definitions

* `Value.Regular` — a value in which every fractional number is a number.
* `Word.AllRegular` — words whose literals have such values.
* `Function.Regular`, `Program.Regular` — both features.

## Main results

* `Program.Written.regular` — **a program that is written with the tokens of a text is regular.**
-/

namespace Bistro

/-! ### Values -/

mutual
/-- Every fractional number in a value is a number. -/
def Value.Regular : Value → Prop
  | .skim x => x.isNaN = false
  | .recipe items => Value.AllRegular items
  | .pinch _ | .pasta _ | .bool _ => True

/-- The same of a row of values. -/
def Value.AllRegular : List Value → Prop
  | [] => True
  | v :: rest => v.Regular ∧ Value.AllRegular rest
end

namespace Value

theorem allRegular_iff {vs : List Value} : AllRegular vs ↔ ∀ v ∈ vs, v.Regular := by
  induction vs with
  | nil => simp [AllRegular]
  | cons v vs ih => rw [AllRegular, ih, List.forall_mem_cons]

theorem regular_recipe {items : List Value} :
    (Value.recipe items).Regular ↔ ∀ v ∈ items, v.Regular := by
  rw [Regular, allRegular_iff]

theorem regular_pinch (n : Int) : (Value.pinch n).Regular := trivial

theorem regular_pasta (s : String) : (Value.pasta s).Regular := trivial

theorem regular_bool (b : Bool) : (Value.bool b).Regular := trivial

theorem regular_skim {x : Binary64} : (Value.skim x).Regular ↔ x.isNaN = false := by
  rw [Regular]

/-- The value that elements of an array have at first is regular. -/
theorem regular_default (type : ValueType) : (Value.default type).Regular := by
  cases type with
  | pinch => exact regular_pinch 0
  | skim => exact regular_skim.2 Binary64.isNaN_zero
  | pasta => exact regular_pasta ""
  | bool => exact regular_bool false
  | recipe => exact regular_recipe.2 nofun

/-- A regular value is a number that can be compared, if it is a number at all. -/
theorem Regular.isNaN {v : Value} (h : v.Regular) {x : Binary64} (hx : v.number? = some x) :
    x.isNaN = false := by
  cases v with
  | pinch n =>
    obtain rfl := Option.some.inj hx
    exact Binary64.isNaN_ofInt n
  | skim y =>
    obtain rfl := Option.some.inj hx
    exact regular_skim.1 h
  | pasta s => cases hx
  | bool b => cases hx
  | recipe items => cases hx

end Value

/-! ### Words -/

namespace Word

/-- A literal has a regular value. -/
def Regular : Word → Prop
  | .literal v => v.toValue.Regular
  | _ => True

/-- All literals among words have regular values. -/
def AllRegular (ws : List Word) : Prop := ∀ w ∈ ws, w.Regular

@[simp] theorem allRegular_nil : AllRegular [] := nofun

@[simp] theorem allRegular_cons {w : Word} {ws : List Word} :
    AllRegular (w :: ws) ↔ w.Regular ∧ AllRegular ws :=
  List.forall_mem_cons

@[simp] theorem allRegular_append {ws vs : List Word} :
    AllRegular (ws ++ vs) ↔ AllRegular ws ∧ AllRegular vs :=
  List.forall_mem_append

@[simp] theorem allRegular_flatMap {α : Type} {as : List α} {words : α → List Word} :
    AllRegular (as.flatMap words) ↔ ∀ a ∈ as, AllRegular (words a) := by
  simp only [AllRegular, List.mem_flatMap, forall_exists_index, and_imp]
  exact ⟨fun h a ha w hw => h w a ha hw, fun h w a ha hw => h a ha w hw⟩

theorem AllRegular.of_subset {ws vs : List Word} (h : AllRegular vs) (hsub : ws ⊆ vs) :
    AllRegular ws :=
  fun w hw => h w (hsub hw)

end Word

/-! ### Functions and programs -/

/-- The literals of a function have regular values, and it has a result exactly if it has a type. -/
structure Function.Regular (f : Function) : Prop where
  words : Word.AllRegular f.words
  result : f.returns.isSome = f.result.isSome

/-- The literals of a program have regular values, and its functions have results exactly if they
have types. -/
structure Program.Regular (p : Program) : Prop where
  words : Word.AllRegular p.words
  results : ∀ f ∈ p.functions, f.returns.isSome = f.result.isSome

theorem Program.Regular.function {p : Program} (h : p.Regular) {f : Function}
    (hf : f ∈ p.functions) : f.Regular := by
  have hwords := h.words
  simp only [Program.words, Word.allRegular_append, Word.allRegular_flatMap] at hwords
  exact ⟨hwords.2.1 f hf, h.results f hf⟩

/-- The literal that a token of a text spells has a regular value. -/
theorem Token.regular_of_literal? {t : Token} {v : Literal} (h : t.literal? = some v)
    (hform : t.kind.HasForm t.lexeme) : v.toValue.Regular := by
  obtain ⟨lexeme, kind, line⟩ := t
  cases kind with
  | pinchLiteral =>
    obtain ⟨n, -, rfl⟩ := Option.map_eq_some_iff.1 h
    exact Value.regular_pinch n
  | skimLiteral =>
    obtain ⟨x, hx, rfl⟩ := Option.map_eq_some_iff.1 h
    exact Value.regular_skim.2 (hform.isNaN hx)
  | pastaLiteral =>
    obtain rfl := Option.some.inj h
    exact Value.regular_pasta _
  | yum =>
    obtain rfl := Option.some.inj h
    exact Value.regular_bool true
  | bleh =>
    obtain rfl := Option.some.inj h
    exact Value.regular_bool false
  | _ => cases h

theorem Token.exists_of_mem_word {t : Token} {v : Literal} (h : some (.literal v) ∈ t.word) :
    t.literal? = some v := by
  obtain ⟨lexeme, kind, line⟩ := t
  cases kind <;> simp_all [Token.word, eq_comm]

/-- A literal among the words of tokens is spelled by one of them. -/
theorem Token.exists_of_mem_words {ts : List Token} {v : Literal}
    (h : some (.literal v) ∈ Token.words ts) : ∃ t ∈ ts, t.literal? = some v := by
  induction ts using Token.words.induct with
  | case1 lexeme line type name left dimension rest ih =>
    rw [Token.words] at h
    obtain ⟨t, ht, hv⟩ := ih (by simpa using h)
    exact ⟨t, by simp [ht], hv⟩
  | case2 t rest hne ih =>
    rw [Token.words.eq_2 _ _ hne, List.mem_append] at h
    rcases h with h | h
    · exact ⟨t, List.mem_cons_self, Token.exists_of_mem_word h⟩
    · obtain ⟨t', ht', hv⟩ := ih h
      exact ⟨t', List.mem_cons_of_mem _ ht', hv⟩
  | case3 => cases h

theorem Rowed.exists_written {α : Type} {item : α → List Token → Prop} {as : List α}
    {ts : List Token} (h : Rowed item as ts) : ∀ a ∈ as, ∃ us, item a us := by
  induction h with
  | nil => exact nofun
  | cons first _ ih => exact List.forall_mem_cons.2 ⟨⟨_, first⟩, ih⟩

/-- **A program that is written with the tokens of a text is regular.** -/
theorem Program.Written.regular {p : Program} {ts : List Token} (h : p.Written ts)
    (hts : ∀ t ∈ ts, t.kind.HasForm t.lexeme) : p.Regular := by
  constructor
  · intro w hw
    cases w with
    | literal v =>
      have hmem : some (.literal v) ∈ Token.words ts := by
        rw [h.words_eq]
        exact List.mem_map_of_mem hw
      obtain ⟨t, ht, hv⟩ := Token.exists_of_mem_words hmem
      exact Token.regular_of_literal? hv (hts t ht)
    | name name => trivial
    | dimension lexeme => trivial
  · cases h with
    | mk _ _ functions =>
      intro f hf
      obtain ⟨us, hus⟩ := functions.exists_written f hf
      obtain ⟨⟩ := hus
      assumption

end Bistro
