import Bistro.Exec.Store
import Bistro.Program.OfTree
import Bistro.Proofs.Token.Spelling
import Mathlib.Data.Nat.Digits.Defs

/-!
# Literals mean what they spell

A text is written as a literal in quotes, with escapes for the characters that would end or spoil
it, and an integer in decimal notation with a tilde for its minus sign.  The scanner makes one token
of either, and the value of the token is the text or the integer that was written.  An integer that
was printed is read as the same integer again.

## Main definitions

* `Literal.quote`, `Literal.decimal` — how texts and integers are written.
* `Literal.quoted` — the lexeme of a text literal.

## Main results

* `Scan.ofSource_quote`, `Scan.ofSource_decimal` — written literals are scanned to one token.
* `ParseTree.literal_quoted`, `ParseTree.literal_repr` — the tokens have the values.
* `Number.readInteger?_repr` — an integer is read from its decimal notation.
* `Exec.readInput?_render` — a printed integer is read as input.
-/

namespace Bistro

/-! ### Writing literals -/

namespace Literal

/-- A text as it is written in a program: in quotes, with quotes, backslashes, line feeds and tabs
escaped. -/
def quote (s : String) : String :=
  String.ofList ('"' :: s.toList.flatMap Token.Kind.escape ++ ['"'])

/-- The lexeme of a text literal: the text in quotes, without escapes. -/
def quoted (s : String) : String := "\"" ++ s ++ "\""

/-- An integer as it is written in a program: in decimal notation, with a tilde for the minus
sign. -/
def decimal (n : Int) : String := if n < 0 then "~" ++ n.natAbs.repr else n.natAbs.repr

theorem toList_quoted (s : String) : (quoted s).toList = '"' :: s.toList ++ ['"'] := by
  simp [quoted]

end Literal

/-- One well-formed token is scanned from its spelling. -/
theorem Scan.ofSource_spell {kind : Token.Kind} {lexeme : String}
    (h : kind.WellFormed lexeme.toList) :
    ofSource (String.ofList (kind.spell lexeme.toList)) = ⟨[⟨lexeme, kind, 1⟩], []⟩ := by
  have hrow : Spelling.IsRow [⟨[], kind, lexeme⟩] := by
    refine ⟨rfl, nofun, ?_⟩
    simpa using h
  rw [ofSource_ofList]
  simpa [Spelling.text, Spelling.written, Spelling.tokens] using ofText_row hrow

/-! ### Texts -/

theorem Token.Kind.wellFormed_quoted {s : String} (h : s.length ≤ Segment.maxTextLength) :
    Token.Kind.pastaLiteral.WellFormed (Literal.quoted s).toList := by
  rw [Literal.toList_quoted]
  exact .pastaLiteral h

/-- A written text is scanned to one token. -/
theorem Scan.ofSource_quote {s : String} (h : s.length ≤ Segment.maxTextLength) :
    ofSource (Literal.quote s) = ⟨[⟨Literal.quoted s, .pastaLiteral, 1⟩], []⟩ := by
  have hspell : Token.Kind.pastaLiteral.spell (Literal.quoted s).toList =
      '"' :: s.toList.flatMap Token.Kind.escape ++ ['"'] := by
    simp [Literal.toList_quoted, Token.Kind.spell]
  rw [Literal.quote, ← hspell]
  exact ofSource_spell (Token.Kind.wellFormed_quoted h)

/-- The quotes around a text are taken off, and only these: the text may have quotes at its ends. -/
theorem ParseTree.unquote_quoted (s : String) : unquote (Literal.quoted s) = s := by
  unfold unquote
  rw [Literal.toList_quoted]
  simp

/-- The token of a written text has the text as its value. -/
theorem ParseTree.literal_quoted (s : String) (line : Nat) :
    (leaf .pastaLiteral (Literal.quoted s) line).literal = .ok (.pasta s) := by
  have hlexeme : (leaf .pastaLiteral (Literal.quoted s) line).lexeme = Literal.quoted s := rfl
  rw [literal, hlexeme, unquote_quoted]
  rfl

/-! ### Integers -/

namespace Number

/-- The minus sign of an integer. -/
def minus (n : Int) : List Char := if n < 0 then ['-'] else []

theorem isSign_minus (n : Int) : IsSign (minus n) := by
  unfold minus IsSign
  split <;> simp

/-- An integer is printed with its sign before the digits of its magnitude. -/
theorem toList_repr (n : Int) : n.repr.toList = minus n ++ Nat.toDigits 10 n.natAbs := by
  cases n with
  | ofNat k => simp [Int.repr, minus]
  | negSucc k => simp [Int.repr, minus]

theorem isDigit_toDigits (k : Nat) : ∀ c ∈ Nat.toDigits 10 k, c.isDigit = true :=
  fun _ hc => Nat.isDigit_of_mem_toDigits (by decide) (by decide) hc

theorem exists_toDigits (k : Nat) :
    ∃ c cs, Nat.toDigits 10 k = c :: cs ∧ c.isDigit = true := by
  obtain ⟨c, cs, heq⟩ := List.exists_cons_of_ne_nil (Nat.toDigits_ne_nil (n := k) (b := 10))
  have hc := isDigit_toDigits k c
  rw [heq] at hc
  exact ⟨c, cs, heq, hc List.mem_cons_self⟩

theorem isDigits_toDigits {k : Nat} (h : k ≤ 999999999) :
    Token.Kind.IsDigits (Nat.toDigits 10 k) where
  ne_nil := Nat.toDigits_ne_nil
  length_le := by
    have hlt : k < 10 ^ 9 := by omega
    exact (Nat.length_toDigits_le_iff (by decide) (by decide)).2 hlt
  digits := isDigit_toDigits k

theorem digitsValue_toDigits (k : Nat) : digitsValue (Nat.toDigits 10 k) = k := by
  rw [digitsValue, ← Nat.ofDigitChars_eq_foldl, Nat.ofDigitChars_ten_toDigits]

theorem readDigits?_toDigits (k : Nat) : readDigits? (Nat.toDigits 10 k) = some k := by
  rw [readDigits?_eq Nat.toDigits_ne_nil (isDigit_toDigits k), digitsValue_toDigits]

/-- The sign of a printed integer is told apart from its digits. -/
theorem splitSign_minus (n : Int) :
    splitSign (minus n ++ Nat.toDigits 10 n.natAbs) =
      (decide (n < 0), Nat.toDigits 10 n.natAbs) := by
  by_cases hn : n < 0
  · simp [minus, hn, splitSign]
  · obtain ⟨c, cs, heq, hc⟩ := exists_toDigits n.natAbs
    have hminus : minus n = [] := if_neg hn
    rw [hminus, heq, List.nil_append, splitSign_of_isDigit hc]
    simp [hn]

/-- An integer that fits a word is read from its decimal notation. -/
theorem readInteger?_repr {n : Int} (h : fits n = true) : readInteger? n.repr = some n := by
  have hvalue : (if decide (n < 0) = true then -(n.natAbs : Int) else (n.natAbs : Int)) = n := by
    by_cases hn : n < 0
    · rw [if_pos (decide_eq_true hn)]
      omega
    · rw [if_neg (by simpa using hn)]
      omega
  unfold readInteger?
  rw [toList_repr, splitSign_minus]
  simp only [readDigits?_toDigits, Option.bind_eq_bind, Option.bind_some, hvalue, checked, h,
    if_true]

theorem fits_of_le {n : Int} (h : n.natAbs ≤ 999999999) : fits n = true :=
  fits_of_natAbs_lt (by omega)

end Number

theorem Token.Kind.wellFormed_repr {n : Int} (h : n.natAbs ≤ 999999999) :
    Token.Kind.pinchLiteral.WellFormed n.repr.toList := by
  rw [Number.toList_repr]
  exact .pinchLiteral (Number.isSign_minus n) (Number.isDigits_toDigits h)

/-- The tilde of a written integer stands for its minus sign. -/
theorem Literal.toList_decimal (n : Int) : (decimal n).toList =
    Token.Kind.spellSign (Number.minus n ++ Nat.toDigits 10 n.natAbs) := by
  by_cases hn : n < 0
  · simp [decimal, Number.minus, hn, Token.Kind.spellSign]
  · obtain ⟨c, cs, heq, hc⟩ := Number.exists_toDigits n.natAbs
    have hdash : c ≠ '-' := by
      rintro rfl
      cases hc
    simp [decimal, Number.minus, hn, heq, Token.Kind.spellSign, hdash]

/-- A written integer is scanned to one token, whose sign is a minus. -/
theorem Scan.ofSource_decimal {n : Int} (h : n.natAbs ≤ 999999999) :
    ofSource (Literal.decimal n) = ⟨[⟨n.repr, .pinchLiteral, 1⟩], []⟩ := by
  have hspell : Literal.decimal n =
      String.ofList (Token.Kind.pinchLiteral.spell n.repr.toList) := by
    apply String.toList_injective
    rw [Literal.toList_decimal, String.toList_ofList, Number.toList_repr]
    rfl
  rw [hspell]
  exact ofSource_spell (Token.Kind.wellFormed_repr h)

/-- The token of a written integer has the integer as its value. -/
theorem ParseTree.literal_repr {n : Int} (h : Number.fits n = true) (line : Nat) :
    (leaf .pinchLiteral n.repr line).literal = .ok (.pinch n) := by
  have hlexeme : (leaf .pinchLiteral n.repr line).lexeme = n.repr := rfl
  rw [literal]
  dsimp only [leaf]
  rw [integer, lexeme]
  dsimp only [Option.getD]
  rw [Number.readInteger?_repr h]
  rfl

/-! ### Printed integers as input -/

namespace Text

theorem isBlank_of_isDigit {c : Char} (h : c.isDigit = true) : isBlank c = false := by
  simp only [Char.isDigit, Bool.and_eq_true, decide_eq_true_eq] at h
  have hlow : 48 ≤ c.toNat := h.1
  have hhigh : c.toNat ≤ 57 := h.2
  simp only [isBlank, blankRanges, List.any_cons, List.any_nil, Bool.or_false, Bool.or_eq_false_iff,
    Bool.and_eq_false_iff, decide_eq_false_iff_not]
  omega

/-- A text without white space is not trimmed. -/
theorem trimChars_eq_self {cs : List Char} (h : ∀ c ∈ cs, isBlank c = false) :
    trimChars cs = cs := by
  have hdrop : ∀ ds : List Char, (∀ c ∈ ds, isBlank c = false) → ds.dropWhile isBlank = ds := by
    intro ds hds
    cases ds with
    | nil => rfl
    | cons c ds => exact List.dropWhile_cons_of_neg (by simp [hds c List.mem_cons_self])
  rw [trimChars, hdrop cs h, hdrop cs.reverse (by simpa using h), List.reverse_reverse]

/-- A printed integer has no white space. -/
theorem trim_repr (n : Int) : trim n.repr = n.repr := by
  have hblank : ∀ c ∈ n.repr.toList, isBlank c = false := by
    intro c hc
    rw [Number.toList_repr] at hc
    rcases List.mem_append.1 hc with hc | hc
    · unfold Number.minus at hc
      split at hc
      · obtain rfl := List.mem_singleton.1 hc
        decide
      · cases hc
    · exact isBlank_of_isDigit (Number.isDigit_toDigits n.natAbs c hc)
  rw [trim, trimChars_eq_self hblank, String.ofList_toList]

end Text

/-- The default range is that of the integers of nine digits. -/
theorem IntegerRange.contains_standard {n : Int} (h : n.natAbs ≤ 999999999) :
    Limits.standard.integerRange.contains n = true := by
  rw [contains, Bool.and_eq_true, decide_eq_true_eq, decide_eq_true_eq]
  change -999999999 ≤ n ∧ n ≤ 999999999
  omega

/-- A printed integer is read as input, and is the same integer again. -/
theorem Exec.readInput?_render {n : Int} (h : n.natAbs ≤ 999999999) :
    readInput? .pinch (Value.pinch n).render Limits.standard.integerRange = some (.pinch n) := by
  rw [readInput?, Value.render, Text.trim_repr, Number.readInteger?_repr (Number.fits_of_le h),
    Option.filter_some, if_pos (IntegerRange.contains_standard h), Option.map_some]

end Bistro
