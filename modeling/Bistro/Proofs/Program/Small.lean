import Bistro.Limits
import Bistro.Proofs.Program.Regular

/-!
# Small integers

The scanner takes no integer with more than nine digits.  So the integers that a program which comes
from a source text is written with are small, and products of two of them still fit a word.

## Main definitions

* `Number.Small` — an integer with at most nine digits.
* `Value.integers`, `Value.Small` — the integers in a value, all of them small.
* `Word.Small` — a word that is no literal, or one with a small value.

## Main results

* `Number.small_iff` — the small integers are those that are permitted unless others are chosen.
* `Program.Written.small` — **the literals of a program that is written with the tokens of a text
  are small.**
-/

namespace Bistro

/-! ### Integers -/

namespace Number

/-- An integer has at most nine digits. -/
def Small (n : Int) : Prop := -999999999 ≤ n ∧ n ≤ 999999999

instance (n : Int) : Decidable (Small n) := inferInstanceAs (Decidable (_ ∧ _))

theorem small_iff {n : Int} : Small n ↔ Limits.standard.integerRange.contains n = true := by
  rw [IntegerRange.contains, Bool.and_eq_true, decide_eq_true_eq, decide_eq_true_eq]
  exact Iff.rfl

theorem small_of_natAbs_lt {n : Int} (h : n.natAbs < 10 ^ 9) : Small n := by
  unfold Small
  omega

theorem Small.natAbs_le {n : Int} (h : Small n) : n.natAbs ≤ 999999999 := by
  unfold Small at h
  omega

/-- A sign and at most nine digits spell a small integer. -/
theorem small_of_readInteger? {sign digits : List Char} {n : Int} (hsign : IsSign sign)
    (hne : digits ≠ []) (h : ∀ c ∈ digits, c.isDigit = true) (hlength : digits.length ≤ 9)
    (hn : readInteger? (String.ofList (sign ++ digits)) = some n) : Small n := by
  have hvalue : digitsValue digits < 10 ^ 9 :=
    Nat.lt_of_lt_of_le (digitsValue_lt h) (Nat.pow_le_pow_right (by decide) hlength)
  have hread := readDigits?_eq hne h
  obtain ⟨c, cs, rfl⟩ := List.exists_cons_of_ne_nil hne
  obtain ⟨negative, hsplit⟩ := exists_splitSign hsign (h c List.mem_cons_self) cs
  unfold readInteger? at hn
  rw [String.toList_ofList, hsplit] at hn
  simp only [hread, Option.bind_eq_bind, Option.bind_some, checked] at hn
  obtain rfl := Option.some.inj (Option.ite_none_right_eq_some.1 hn).2
  apply small_of_natAbs_lt
  split <;> omega

end Number

/-! ### Values -/

namespace Value

mutual
/-- The integers in a value: the one that it is, or those in its elements. -/
def integers : Value → List Int
  | .pinch n => [n]
  | .recipe items => integersAll items
  | .skim _ | .pasta _ | .bool _ => []

/-- The integers in a row of values. -/
def integersAll : List Value → List Int
  | [] => []
  | v :: rest => v.integers ++ integersAll rest
end

/-- All integers in a value are small. -/
def Small (v : Value) : Prop := ∀ n ∈ v.integers, Number.Small n

theorem mem_integersAll {n : Int} {vs : List Value} :
    n ∈ integersAll vs ↔ ∃ v ∈ vs, n ∈ v.integers := by
  induction vs with
  | nil => simp [integersAll]
  | cons v vs ih => simp [integersAll, ih]

theorem small_pinch {n : Int} : (Value.pinch n).Small ↔ Number.Small n := by
  simp [Small, integers]

theorem small_skim (x : Binary64) : (Value.skim x).Small := by simp [Small, integers]

theorem small_pasta (s : String) : (Value.pasta s).Small := by simp [Small, integers]

theorem small_bool (b : Bool) : (Value.bool b).Small := by simp [Small, integers]

theorem small_recipe {items : List Value} : (Value.recipe items).Small ↔ ∀ v ∈ items, v.Small := by
  simp only [Small, integers, mem_integersAll]
  exact ⟨fun h v hv n hn => h n ⟨v, hv, hn⟩, fun h n ⟨v, hv, hn⟩ => h v hv n hn⟩

/-- The value that elements of an array have at first is small. -/
theorem small_default (type : ValueType) : (Value.default type).Small := by
  cases type with
  | pinch => exact small_pinch.2 (by decide)
  | skim => exact small_skim _
  | pasta => exact small_pasta ""
  | bool => exact small_bool false
  | recipe => exact small_recipe.2 nofun

end Value

/-! ### Words -/

/-- A literal has a small value. -/
def Word.Small : Word → Prop
  | .literal v => v.toValue.Small
  | _ => True

/-- The literal that a token of a text spells has a small value. -/
theorem Token.small_of_literal? {t : Token} {v : Literal} (h : t.literal? = some v)
    (hform : t.kind.HasForm t.lexeme) : v.toValue.Small := by
  obtain ⟨lexeme, kind, line⟩ := t
  cases kind with
  | pinchLiteral =>
    obtain ⟨n, hn, rfl⟩ := Option.map_eq_some_iff.1 h
    obtain ⟨sign, digits, hsign, hne, hdigits, hlength, rfl⟩ := hform
    exact Value.small_pinch.2 (Number.small_of_readInteger? hsign hne hdigits hlength hn)
  | skimLiteral =>
    obtain ⟨x, -, rfl⟩ := Option.map_eq_some_iff.1 h
    exact Value.small_skim x
  | pastaLiteral =>
    obtain rfl := Option.some.inj h
    exact Value.small_pasta _
  | yum =>
    obtain rfl := Option.some.inj h
    exact Value.small_bool true
  | bleh =>
    obtain rfl := Option.some.inj h
    exact Value.small_bool false
  | _ => cases h

/-- The words of a function are among those of the program. -/
theorem Program.words_function (p : Program) {f : Function} (hf : f ∈ p.functions) :
    f.words ⊆ p.words := by
  intro w hw
  simp only [Program.words, List.mem_append, List.mem_flatMap]
  exact .inr (.inl ⟨f, hf, hw⟩)

/-- **The literals of a program that is written with the tokens of a text are small.** -/
theorem Program.Written.small {p : Program} {ts : List Token} (h : p.Written ts)
    (hts : ∀ t ∈ ts, t.kind.HasForm t.lexeme) : ∀ w ∈ p.words, w.Small := by
  intro w hw
  cases w with
  | literal v =>
    have hmem : some (.literal v) ∈ Token.words ts := by
      rw [h.words_eq]
      exact List.mem_map_of_mem hw
    obtain ⟨t, ht, hv⟩ := Token.exists_of_mem_words hmem
    exact Token.small_of_literal? hv (hts t ht)
  | name name => trivial
  | dimension lexeme => trivial

end Bistro
