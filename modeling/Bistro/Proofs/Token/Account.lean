import Bistro.Proofs.Token.Spelling
import Mathlib.Data.List.Induction

/-!
# The scanner accounts for every character

The lexical rules of the language, stated without the scanner: what white space and comments are,
how a token may be spelled, and which stretches of a text are malformed.  Each rule tells where its
stretch ends, so most of them look at the text behind it.  A text is accounted for when it can be
cut, from its beginning to its end, into stretches that follow the rules; the tokens and the errors
are then those of the stretches, in their order, and a stretch is placed by the text before it
alone.

## Main definitions

* `Segment.Skips` — white space and comments.
* `Segment.Spells` — the stretches that spell a token.
* `Segment.Malformed` — the stretches that are none of these, with what is wrong with them.
* `Position.behind` — the place behind a text.
* `Accounts` — a text cut into such stretches.

## Main results

* `Segment.holds_reach` — the segment that begins at a character follows the rules.
* `Scan.accounts_for_text` — **the scanner accounts for every character.**
-/

namespace Bistro

/-! ### The lexical rules -/

namespace Segment

open Token.Kind (WellFormed IsDigits keyword? keywords marks spell spellSign)

/-- A text does not begin with a character of a class. -/
def Stops (p : Char → Bool) (rest : List Char) : Prop := ∀ c ∈ rest.head?, p c = false

/-- The end of the text or of its line. -/
def EndsLine (rest : List Char) : Prop := ∀ c ∈ rest.head?, c = '\n'

/-- The body of a text literal as it is written, and the text that it spells.  An escape is a
backslash with any character behind it. -/
inductive Escaped : List Char → List Char → Prop
  | nil : Escaped [] []
  | plain {c : Char} {raw body : List Char} (hquote : c ≠ '"') (hslash : c ≠ '\\')
      (hline : c ≠ '\n') (h : Escaped raw body) : Escaped (c :: raw) (c :: body)
  | pair (c : Char) {raw body : List Char} (h : Escaped raw body) :
      Escaped ('\\' :: c :: raw) (unescape c :: body)

/-- White space and comments, and what is behind them. -/
inductive Skips : List Char → List Char → Prop
  | blank {word rest : List Char} (hword : ∀ c ∈ word, isBlank c = true)
      (hrest : Stops isBlank rest) : Skips word rest
  | lineComment {body rest : List Char} (hbody : '\n' ∉ body) (hrest : EndsLine rest) :
      Skips ('/' :: '/' :: body) rest
  | blockComment {body : List Char} (hbody : ¬ ['-', '/'] <:+: body) (rest : List Char) :
      Skips ('/' :: '-' :: body ++ ['-', '/']) rest

/-- The spelling of a token: its kind, its lexeme, how it is written, and what is behind it. -/
inductive Spells : Token.Kind → List Char → List Char → List Char → Prop
  | word {kind : Token.Kind} {lexeme rest : List Char} (hkind : kind ∈ keywords ∨ kind = .ident)
      (h : kind.WellFormed lexeme) (hrest : Stops isNameChar rest) : Spells kind lexeme lexeme rest
  | number {kind : Token.Kind} {lexeme rest : List Char}
      (hkind : kind = .pinchLiteral ∨ kind = .skimLiteral) (h : kind.WellFormed lexeme)
      (hrest : Stops isWordChar rest) : Spells kind lexeme (spellSign lexeme) rest
  | text {raw body : List Char} (h : Escaped raw body) (hlength : body.length ≤ maxTextLength)
      (rest : List Char) : Spells .pastaLiteral ('"' :: body ++ ['"']) ('"' :: raw ++ ['"']) rest
  /-- A mark is read with the character behind it where the two form a longer one. -/
  | mark {kind : Token.Kind} {rest : List Char} (hkind : kind ∈ marks)
      (hlonger : ∀ d ∈ rest.head?, ∀ longer ∈ marks,
        longer.spelling.toList ≠ kind.spelling.toList ++ [d])
      (hcomment : kind = .slash → ∀ d ∈ rest.head?, d ≠ '/' ∧ d ≠ '-') :
      Spells kind kind.spelling.toList kind.spelling.toList rest

/-- A malformed number without its sign.  Where the digits are too many or missing, what is behind
them is left to be read on its own; otherwise the whole word goes with the number. -/
inductive MalformedNumber : Fault → List Char → List Char → Prop
  | pinchTooLong {digits rest : List Char} (hdigits : ∀ c ∈ digits, c.isDigit = true)
      (hlength : maxDigits < digits.length) (hrest : Stops Char.isDigit rest) :
      MalformedNumber .pinchTooLong digits rest
  | pinchSuffix {digits rest : List Char} {c : Char} {cs : List Char} (hdigits : IsDigits digits)
      (hc : isLetter c = true) (hcs : ∀ d ∈ cs, isWordChar d = true)
      (hrest : Stops isWordChar rest) : MalformedNumber (.pinchSuffix c) (digits ++ c :: cs) rest
  | missingFraction {whole rest : List Char} (hwhole : IsDigits whole)
      (hrest : Stops Char.isDigit rest) : MalformedNumber .missingFraction (whole ++ ['.']) rest
  | skimTooLong {whole digits rest : List Char} (hwhole : IsDigits whole)
      (hdigits : ∀ c ∈ digits, c.isDigit = true) (hlength : maxDigits < digits.length)
      (hrest : Stops Char.isDigit rest) :
      MalformedNumber .skimTooLong (whole ++ '.' :: digits) rest
  | secondPoint {whole digits rest cs : List Char} (hwhole : IsDigits whole)
      (hdigits : IsDigits digits) (hcs : ∀ d ∈ cs, isWordChar d = true)
      (hrest : Stops isWordChar rest) :
      MalformedNumber .secondPoint (whole ++ '.' :: (digits ++ '.' :: cs)) rest
  | skimSuffix {whole digits rest : List Char} {c : Char} {cs : List Char}
      (hwhole : IsDigits whole) (hdigits : IsDigits digits) (hc : isLetter c = true)
      (hcs : ∀ d ∈ cs, isWordChar d = true) (hrest : Stops isWordChar rest) :
      MalformedNumber (.skimSuffix c) (whole ++ '.' :: (digits ++ c :: cs)) rest

/-- A malformed stretch: what is wrong with it, its text, and what is behind it. -/
inductive Malformed : Fault → List Char → List Char → Prop
  | invalidCharacter {c : Char} (hblank : isBlank c = false) (hdigit : c.isDigit = false)
      (hlower : c.isLower = false) (hquote : c ≠ '"') (htilde : c ≠ '~')
      (hmark : ∀ kind ∈ marks, kind.spelling.toList.head? ≠ some c) (rest : List Char) :
      Malformed (.invalidCharacter c) [c] rest
  | loneAmpersand {rest : List Char} (hrest : rest.head? ≠ some '&') :
      Malformed .loneAmpersand ['&'] rest
  | loneQuestionMark {rest : List Char} (hrest : rest.head? ≠ some '?') :
      Malformed .loneQuestionMark ['?'] rest
  | loneTilde {rest : List Char} (hrest : Stops Char.isDigit rest) : Malformed .loneTilde ['~'] rest
  | unterminatedText {raw body rest : List Char} (h : Escaped raw body) (hrest : EndsLine rest) :
      Malformed .unterminatedText ('"' :: raw) rest
  /-- The text ends behind a backslash. -/
  | unterminatedEscape {raw body : List Char} (h : Escaped raw body) :
      Malformed .unterminatedText ('"' :: raw ++ ['\\']) []
  | textTooLong {raw body : List Char} (h : Escaped raw body)
      (hlength : maxTextLength < body.length) (rest : List Char) :
      Malformed .textTooLong ('"' :: raw ++ ['"']) rest
  | unterminatedComment {body : List Char} (hbody : ¬ ['-', '/'] <:+: body) :
      Malformed .unterminatedComment ('/' :: '-' :: body) []
  | number {fault : Fault} {sign word rest : List Char} (hsign : Number.IsSign sign)
      (h : MalformedNumber fault word rest) : Malformed fault (spellSign sign ++ word) rest
  | nameTooLong {c : Char} {cs rest : List Char} (hc : c.isLower = true)
      (hcs : ∀ d ∈ cs, isNameChar d = true) (hlength : maxNameLength < (c :: cs).length)
      (hkeyword : keyword? (String.ofList (c :: cs)) = none) (hrest : Stops isNameChar rest) :
      Malformed .nameTooLong (c :: cs) rest

end Segment

/-- The place behind a text: one line for each line feed in it, and one column for each character
behind the last of them. -/
def Position.behind (before : List Char) : Position :=
  ⟨1 + before.count '\n', 1 + (before.reverse.takeWhile (· ≠ '\n')).length⟩

/-- The text behind `before`, cut into stretches that follow the lexical rules, with the tokens and
the errors of the stretches. -/
inductive Accounts : List Char → List Char → List Token → List LexicalError → Prop
  | nil (before : List Char) : Accounts before [] [] []
  | skip {before text rest : List Char} {tokens : List Token} {errors : List LexicalError}
      (hne : text ≠ []) (htext : Segment.Skips text rest)
      (hrest : Accounts (before ++ text) rest tokens errors) :
      Accounts before (text ++ rest) tokens errors
  | token {before text rest : List Char} {tokens : List Token} {errors : List LexicalError}
      {kind : Token.Kind} {lexeme : String} (hne : text ≠ [])
      (htext : Segment.Spells kind lexeme.toList text rest)
      (hrest : Accounts (before ++ text) rest tokens errors) :
      Accounts before (text ++ rest) (⟨lexeme, kind, 1 + before.count '\n'⟩ :: tokens) errors
  | fault {before text rest : List Char} {tokens : List Token} {errors : List LexicalError}
      {fault : Segment.Fault} (hne : text ≠ []) (htext : Segment.Malformed fault text rest)
      (hrest : Accounts (before ++ text) rest tokens errors) :
      Accounts before (text ++ rest) tokens (⟨fault, Position.behind before⟩ :: errors)

/-! ### One segment follows the rules -/

namespace Segment

open Token.Kind (WellFormed IsDigits keyword? keywords marks spell spellSign)

/-- A stretch follows the rule of what it is said to be. -/
def Content.Holds (text rest : List Char) : Content → Prop
  | .blank => Skips text rest
  | .comment => Skips text rest
  | .token kind lexeme => Spells kind lexeme.toList text rest
  | .fault what => Malformed what text rest

/-- What is read of `cs` behind `before` is a stretch that follows the rules. -/
def Covers (before cs : List Char) (read : Content × Nat) : Prop :=
  read.1.Holds (before ++ cs.take read.2) (cs.drop read.2)

/-- A reading that ends where the first part of a text does. -/
theorem covers_append {before rest cs text : List Char} {content : Content} {n : Nat}
    (word : List Char) (h : content.Holds text rest) (htext : text = before ++ word)
    (hcs : cs = word ++ rest) (hn : n = word.length) : Covers before cs (content, n) := by
  subst htext hcs hn
  simpa [Covers] using h

/-- Of what is read, the first part may as well have been read before. -/
theorem covers_append_iff {before word cs : List Char} {content : Content} {n : Nat} :
    Covers before (word ++ cs) (content, word.length + n) ↔
      Covers (before ++ word) cs (content, n) := by
  simp only [Covers, List.take_length_add_append, List.drop_length_add_append, List.append_assoc]

/-- A text begins with a run of characters of a class that is as long as it can be. -/
theorem exists_run (p : Char → Bool) (cs : List Char) :
    ∃ word rest, cs = word ++ rest ∧ (∀ c ∈ word, p c = true) ∧ Stops p rest := by
  refine ⟨cs.takeWhile p, cs.dropWhile p, (List.takeWhile_append_dropWhile).symm,
    fun c hc => List.mem_takeWhile_imp hc, ?_⟩
  intro c hc
  have hhead := List.head?_dropWhile_not p cs
  rw [hc] at hhead
  exact hhead

theorem Stops.mono {p q : Char → Bool} (hpq : ∀ c, p c = true → q c = true) {rest : List Char}
    (h : Stops q rest) : Stops p rest := by
  intro c hc
  have hq := h c hc
  by_contra hp
  rw [Bool.not_eq_false] at hp
  rw [hpq c hp] at hq
  cases hq

/-! #### White space and comments -/

theorem covers_blank {c : Char} (hc : isBlank c = true) (cs : List Char) :
    Covers [c] cs (.blank, run isBlank cs) := by
  obtain ⟨word, rest, rfl, hword, hrest⟩ := exists_run isBlank cs
  rw [run_append hword hrest]
  have hall : ∀ d ∈ c :: word, isBlank d = true := List.forall_mem_cons.2 ⟨hc, hword⟩
  have hskips : Skips (c :: word) rest := .blank hall hrest
  exact covers_append _ hskips rfl rfl rfl

theorem covers_lineComment (cs : List Char) :
    Covers ['/'] ('/' :: cs) (.comment, run (· ≠ '\n') ('/' :: cs)) := by
  obtain ⟨word, rest, rfl, hword, hrest⟩ := exists_run (· ≠ '\n') cs
  have hall : ∀ c ∈ '/' :: word, decide (c ≠ '\n') = true :=
    List.forall_mem_cons.2 ⟨by decide, hword⟩
  have hbody : '\n' ∉ word := fun hmem => by simpa using hword '\n' hmem
  have hends : EndsLine rest := fun c hc => by simpa using hrest c hc
  have hskips : Skips ('/' :: '/' :: word) rest := .lineComment hbody hends
  rw [← List.cons_append, run_append hall hrest]
  exact covers_append _ hskips rfl rfl rfl

/-- There is no closing of a comment across the first character of a text and the next, unless the
text begins with one. -/
theorem not_isInfix_cons {c : Char} {cs : List Char} (h : ¬ ['-', '/'] <:+: cs)
    (hhead : ∀ rest, c = '-' → cs = '/' :: rest → False) : ¬ ['-', '/'] <:+: c :: cs := by
  intro hinfix
  rcases List.infix_cons_iff.1 hinfix with hprefix | hinner
  · obtain ⟨rest, hrest⟩ := hprefix
    obtain ⟨rfl, hcs⟩ := List.cons.inj hrest
    exact hhead rest rfl hcs.symm
  · exact h hinner

/-- A block comment ends at the first closing behind its opening; without one it does not end. -/
theorem commentEnd_cases (cs : List Char) :
    (∃ body rest, cs = body ++ '-' :: '/' :: rest ∧ ¬ ['-', '/'] <:+: body ∧
      commentEnd cs = some (body.length + 2)) ∨
    (¬ ['-', '/'] <:+: cs ∧ commentEnd cs = none) := by
  induction cs using commentEnd.induct with
  | case1 => exact .inr ⟨by decide, rfl⟩
  | case2 rest => exact .inl ⟨[], rest, rfl, by decide, rfl⟩
  | case3 c cs hopen ih =>
    have hend : commentEnd (c :: cs) = (commentEnd cs).map (· + 1) := by
      rw [commentEnd]
      exact hopen
    rcases ih with ⟨body, rest, rfl, hbody, hsome⟩ | ⟨hbody, hnone⟩
    · refine .inl ⟨c :: body, rest, rfl, not_isInfix_cons hbody ?_, ?_⟩
      · rintro tail hc rfl
        exact hopen _ hc rfl
      · rw [hend, hsome]
        rfl
    · refine .inr ⟨not_isInfix_cons hbody hopen, ?_⟩
      rw [hend, hnone]
      rfl

theorem covers_blockComment (cs : List Char) :
    Covers ['/'] ('-' :: cs) (match commentEnd cs with
      | some n => (.comment, n + 1)
      | none => (.fault .unterminatedComment, ('-' :: cs).length)) := by
  rcases commentEnd_cases cs with ⟨body, rest, rfl, hbody, hsome⟩ | ⟨hbody, hnone⟩
  · rw [hsome]
    have hskips : Skips ('/' :: '-' :: body ++ ['-', '/']) rest := .blockComment hbody rest
    exact covers_append ('-' :: body ++ ['-', '/']) hskips rfl (by simp) (by simp)
  · rw [hnone]
    have hmalformed : Malformed .unterminatedComment ('/' :: '-' :: cs) [] :=
      .unterminatedComment hbody
    exact covers_append _ hmalformed rfl (List.append_nil _).symm rfl

/-! #### Text literals -/

/-- How the reading of a text literal ends: at its closing quote, with its line, or in the middle
of an escape. -/
inductive Closes (raw : List Char) : Bool → List Char → List Char → Prop
  | quote (rest : List Char) : Closes raw true (raw ++ ['"']) rest
  | line {rest : List Char} (hrest : EndsLine rest) : Closes raw false raw rest
  | escape : Closes raw false (raw ++ ['\\']) []

theorem Closes.prepend {raw : List Char} {closed : Bool} {word rest : List Char}
    (h : Closes raw closed word rest) (before : List Char) :
    Closes (before ++ raw) closed (before ++ word) rest := by
  cases h with
  | quote =>
    rw [← List.append_assoc]
    exact .quote rest
  | line hrest => exact .line hrest
  | escape =>
    rw [← List.append_assoc]
    exact .escape

theorem Closes.eq_of_closed {raw word rest : List Char} (h : Closes raw true word rest) :
    word = raw ++ ['"'] := by
  cases h
  rfl

/-- What is read of a text literal spells the body that is kept. -/
theorem exists_escaped (cs : List Char) : ∃ raw, Escaped raw (quoted cs).1 ∧
    Closes raw (quoted cs).2.1 (cs.take (quoted cs).2.2) (cs.drop (quoted cs).2.2) := by
  fun_induction quoted cs with
  | case1 => exact ⟨[], .nil, .line (by simp [EndsLine])⟩
  | case2 rest => exact ⟨[], .nil, .quote rest⟩
  | case3 rest => exact ⟨[], .nil, .line (by simp [EndsLine])⟩
  | case4 => exact ⟨[], .nil, .escape⟩
  | case5 c rest body closed n hread ih =>
    rw [hread] at ih
    obtain ⟨raw, hraw, hcloses⟩ := ih
    exact ⟨'\\' :: c :: raw, .pair c hraw, hcloses.prepend ['\\', c]⟩
  | case6 c rest hquote hline hend hslash body closed n hread ih =>
    rw [hread] at ih
    obtain ⟨raw, hraw, hcloses⟩ := ih
    have hplain : c ≠ '\\' := by
      rintro rfl
      cases rest with
      | nil => exact hend rfl rfl
      | cons d rest => exact hslash d rest rfl rfl
    exact ⟨c :: raw, .plain hquote hplain hline hraw, hcloses.prepend [c]⟩

theorem covers_textLiteral (cs : List Char) : Covers ['"'] cs (textLiteral cs) := by
  obtain ⟨raw, hraw, hcloses⟩ := exists_escaped cs
  unfold textLiteral
  generalize quoted cs = read at *
  obtain ⟨body, closed, n⟩ := read
  dsimp only at *
  cases closed with
  | false =>
    change Malformed .unterminatedText ('"' :: cs.take n) (cs.drop n)
    generalize cs.take n = word, cs.drop n = rest at hcloses ⊢
    cases hcloses with
    | line hrest => exact .unterminatedText hraw hrest
    | escape => exact .unterminatedEscape hraw
  | true =>
    have hword := hcloses.eq_of_closed
    rw [if_neg (by decide)]
    split
    · next hlength =>
      change Malformed .textTooLong ('"' :: cs.take n) (cs.drop n)
      rw [hword]
      exact .textTooLong hraw hlength _
    · next hlength =>
      change Spells .pastaLiteral (String.ofList ('"' :: body ++ ['"'])).toList ('"' :: cs.take n)
        (cs.drop n)
      rw [hword, String.toList_ofList]
      exact .text hraw (Nat.not_lt.1 hlength) _

/-! #### Numbers -/

/-- What is behind the digits of a number ends the word of the number, unless it is a point or a
letter. -/
theorem stops_isWordChar {c : Char} {behind : List Char} (hrest : Stops Char.isDigit (c :: behind))
    (hpoint : c ≠ '.') (hletter : isLetter c = false) : Stops isWordChar (c :: behind) := by
  intro d hd
  obtain rfl := Option.some.inj hd
  have hdigit := hrest c rfl
  rw [isLetter, Bool.or_eq_false_iff] at hletter
  simp [isWordChar, isNameChar, Char.isAlphanum, hdigit, hpoint, hletter]

/-- A letter or a point behind the digits of a number spoils the whole word that it begins. -/
theorem covers_spoiled {before digits behind : List Char} {c : Char} {what : Fault}
    (hc : isWordChar c = true)
    (h : ∀ cs rest, (∀ d ∈ cs, isWordChar d = true) → Stops isWordChar rest →
      Malformed what (before ++ (digits ++ c :: cs)) rest) :
    Covers before (digits ++ c :: behind)
      (.fault what, digits.length + run isWordChar (c :: behind)) := by
  obtain ⟨cs, rest, rfl, hcs, hrest⟩ := exists_run isWordChar behind
  have hall : ∀ d ∈ c :: cs, isWordChar d = true := List.forall_mem_cons.2 ⟨hc, hcs⟩
  have hrun : run isWordChar (c :: (cs ++ rest)) = (c :: cs).length := run_append hall hrest
  rw [hrun]
  exact covers_append (digits ++ c :: cs) (h cs rest hcs hrest) rfl (by simp) (by simp)

theorem isWordChar_of_isLetter {c : Char} (h : isLetter c = true) : isWordChar c = true := by
  rw [isLetter, Bool.or_eq_true] at h
  rcases h with h | h <;> simp [isWordChar, isNameChar, Char.isAlphanum, h]

/-- The sign of a number is spelled in front of its digits. -/
theorem spellSign_append {sign : List Char} (hsign : Number.IsSign sign) {digits : List Char}
    (hdigits : IsDigits digits) (behind : List Char) :
    spellSign (sign ++ digits ++ behind) = spellSign sign ++ digits ++ behind := by
  obtain ⟨c, cs, rfl, hc⟩ := IsDigits.exists_cons hdigits
  rcases hsign with rfl | rfl
  · have hne : c ≠ '-' := by
      rintro rfl
      cases hc
    simp [spellSign, hne]
  · rfl

theorem spells_skimLiteral {sign whole digits rest : List Char} (hsign : Number.IsSign sign)
    (hwhole : IsDigits whole) (hdigits : IsDigits digits) (hrest : Stops isWordChar rest) :
    Spells .skimLiteral (sign ++ whole ++ '.' :: digits)
      (spellSign sign ++ whole ++ '.' :: digits) rest := by
  rw [← spellSign_append hsign hwhole]
  exact .number (.inr rfl) (.skimLiteral hsign hwhole hdigits) hrest

theorem spells_pinchLiteral {sign digits rest : List Char} (hsign : Number.IsSign sign)
    (hdigits : IsDigits digits) (hrest : Stops isWordChar rest) :
    Spells .pinchLiteral (sign ++ digits) (spellSign sign ++ digits) rest := by
  have hspell := spellSign_append hsign hdigits []
  rw [List.append_nil, List.append_nil] at hspell
  rw [← hspell]
  exact .number (.inl rfl) (.pinchLiteral hsign hdigits) hrest

/-- The digits behind the point, and with them the end of the number. -/
theorem covers_fraction {sign whole : List Char} (hsign : Number.IsSign sign)
    (hwhole : IsDigits whole) (cs : List Char) :
    Covers (spellSign sign ++ (whole ++ ['.'])) cs (fraction (sign ++ whole ++ ['.']) cs) := by
  obtain ⟨digits, rest, rfl, hdigits, hrest⟩ := exists_run Char.isDigit cs
  unfold fraction
  simp only [run_append hdigits hrest, List.take_left, List.drop_left]
  split
  · next hnone =>
    obtain rfl := List.length_eq_zero_iff.1 hnone
    have hnumber : MalformedNumber .missingFraction (whole ++ ['.']) rest :=
      .missingFraction hwhole hrest
    exact covers_append _ (Malformed.number hsign hnumber) (by simp) rfl rfl
  next hsome =>
  split
  · next hlength =>
    have hnumber : MalformedNumber .skimTooLong (whole ++ '.' :: digits) rest :=
      .skimTooLong hwhole hdigits hlength hrest
    exact covers_append _ (Malformed.number hsign hnumber) (by simp) rfl rfl
  next hlength =>
  have hfraction : IsDigits digits :=
    ⟨fun h => hsome (List.length_eq_zero_iff.2 h), Nat.not_lt.1 hlength, hdigits⟩
  have hskim (hends : Stops isWordChar rest) :
      Covers (spellSign sign ++ (whole ++ ['.'])) (digits ++ rest) (.token .skimLiteral
        (String.ofList (sign ++ whole ++ ['.'] ++ digits)), digits.length) := by
    have hlexeme : (String.ofList (sign ++ whole ++ ['.'] ++ digits)).toList =
        sign ++ whole ++ '.' :: digits := by simp
    have hspells := spells_skimLiteral hsign hwhole hfraction hends
    rw [← hlexeme] at hspells
    exact covers_append _ hspells (by simp) rfl rfl
  split
  · exact hskim (by simp [Stops])
  next c behind =>
  split
  · next hpoint =>
    subst hpoint
    refine covers_spoiled (c := '.') rfl fun cs rest hcs hends => ?_
    have hnumber : MalformedNumber .secondPoint (whole ++ '.' :: (digits ++ '.' :: cs)) rest :=
      .secondPoint hwhole hfraction hcs hends
    simpa using Malformed.number hsign hnumber
  next hpoint =>
  split
  · next hletter =>
    refine covers_spoiled (isWordChar_of_isLetter hletter) fun cs rest hcs hends => ?_
    have hnumber : MalformedNumber (.skimSuffix c) (whole ++ '.' :: (digits ++ c :: cs)) rest :=
      .skimSuffix hwhole hfraction hletter hcs hends
    simpa using Malformed.number hsign hnumber
  · next hletter =>
    exact hskim (stops_isWordChar hrest hpoint (Bool.eq_false_iff.2 hletter))

/-- The digits before the point, and what is behind them. -/
theorem covers_number {sign : List Char} (hsign : Number.IsSign sign) {c : Char}
    (hc : c.isDigit = true) (cs : List Char) :
    Covers (spellSign sign) (c :: cs) (number sign (c :: cs)) := by
  obtain ⟨digits, rest, rfl, hdigits, hrest⟩ := exists_run Char.isDigit cs
  have hall : ∀ d ∈ c :: digits, d.isDigit = true := List.forall_mem_cons.2 ⟨hc, hdigits⟩
  rw [← List.cons_append]
  have hne : c :: digits ≠ [] := List.cons_ne_nil c digits
  generalize c :: digits = digits at *
  unfold number
  simp only [run_append hall hrest, List.take_left, List.drop_left]
  split
  · next hlength =>
    have hnumber : MalformedNumber .pinchTooLong digits rest := .pinchTooLong hall hlength hrest
    exact covers_append _ (Malformed.number hsign hnumber) rfl rfl rfl
  next hlength =>
  have hwhole : IsDigits digits := ⟨hne, Nat.not_lt.1 hlength, hall⟩
  have hpinch (hends : Stops isWordChar rest) : Covers (spellSign sign) (digits ++ rest)
      (.token .pinchLiteral (String.ofList (sign ++ digits)), digits.length) := by
    have hspells := spells_pinchLiteral hsign hwhole hends
    rw [← String.toList_ofList (l := sign ++ digits)] at hspells
    exact covers_append _ hspells rfl rfl rfl
  split
  · exact hpinch (by simp [Stops])
  next c behind =>
  split
  · next hpoint =>
    subst hpoint
    have hfraction := covers_fraction hsign hwhole behind
    rw [← covers_append_iff] at hfraction
    simpa using hfraction
  next hpoint =>
  split
  · next hletter =>
    refine covers_spoiled (isWordChar_of_isLetter hletter) fun cs rest hcs hends => ?_
    exact Malformed.number hsign (.pinchSuffix hwhole hletter hcs hends)
  · next hletter =>
    exact hpinch (stops_isWordChar hrest hpoint (Bool.eq_false_iff.2 hletter))

theorem number_pos (sign : List Char) {c : Char} (hc : c.isDigit = true) (cs : List Char) :
    0 < (number sign (c :: cs)).2 := by
  have hrun : 0 < run Char.isDigit (c :: cs) := by simp [run, hc]
  unfold number
  dsimp only
  split
  · exact hrun
  · split
    · exact hrun
    · split
      · dsimp only
        omega
      · split
        · exact Nat.add_pos_left hrun _
        · exact hrun

/-- The first digit of a number without a sign is read before the others. -/
theorem covers_unsigned {c : Char} (hc : c.isDigit = true) (cs : List Char) :
    Covers [c] cs ((number [] (c :: cs)).1, (number [] (c :: cs)).2 - 1) := by
  have hcovers := covers_number (.inl rfl) hc cs
  have hpos := number_pos [] hc cs
  generalize number [] (c :: cs) = read at *
  obtain ⟨content, n⟩ := read
  obtain ⟨m, rfl⟩ := Nat.exists_eq_add_of_lt hpos
  dsimp only at *
  rw [Nat.zero_add, Nat.add_comm] at hcovers
  have hsplit : Covers [] ([c] ++ cs) (content, [c].length + m) := hcovers
  rw [Nat.add_sub_cancel, Nat.zero_add]
  exact covers_append_iff.1 hsplit

/-! #### Names and keywords -/

theorem not_mem_varied : ∀ kind ∈ keywords ++ marks, kind ∉ Token.Kind.varied := by decide

theorem covers_name {c : Char} (hc : c.isLower = true) (cs : List Char) :
    Covers [c] cs (name c cs) := by
  obtain ⟨word, rest, rfl, hword, hrest⟩ := exists_run isNameChar cs
  have hlexeme : (String.ofList (c :: word)).toList = c :: word := String.toList_ofList
  unfold name
  simp only [run_append hword hrest, List.take_left]
  split
  · next kind hkind =>
    have hmem : kind ∈ keywords := List.mem_of_find?_eq_some hkind
    have hspelling : kind.spelling = String.ofList (c :: word) := by
      simpa using List.find?_some hkind
    have hvaried : kind ∉ Token.Kind.varied := not_mem_varied kind (List.mem_append_left _ hmem)
    have hspells : Spells kind (String.ofList (c :: word)).toList (c :: word) rest := by
      rw [hlexeme]
      refine .word (.inl hmem) ?_ hrest
      rw [← hlexeme, ← hspelling]
      exact .fixed hvaried
    exact covers_append _ hspells rfl rfl rfl
  next hkeyword =>
  split
  · next hlength =>
    exact covers_append _ (Malformed.nameTooLong hc hword hlength hkeyword hrest) rfl rfl rfl
  · next hlength =>
    have hspells : Spells .ident (String.ofList (c :: word)).toList (c :: word) rest := by
      rw [hlexeme]
      exact .word (.inr rfl) (.ident hc hword (Nat.not_lt.1 hlength) hkeyword) hrest
    exact covers_append _ hspells rfl rfl rfl

/-! #### Operators and punctuation -/

theorem spelling_of_doubleMark {c d : Char} {kind : Token.Kind} (h : doubleMark? c d = some kind) :
    kind ∈ marks ∧ kind.spelling.toList = [c, d] := by
  unfold doubleMark? at h
  split at h <;> cases h <;> decide

theorem spelling_of_singleMark {c : Char} {kind : Token.Kind} (h : singleMark c = .ok kind) :
    kind ∈ marks ∧ kind.spelling.toList = [c] := by
  unfold singleMark at h
  split at h <;> cases h <;> decide

/-- Marks have one or two characters, and those of two are found. -/
theorem doubleMark_of_spelling {kind : Token.Kind} (hkind : kind ∈ marks) :
    kind.spelling.toList.length ≤ 2 ∧
      ∀ c d, kind.spelling.toList = [c, d] → doubleMark? c d = some kind := by
  cases kind
  all_goals try exact absurd hkind (by decide)
  all_goals
    refine ⟨by decide, fun c d hspelling => ?_⟩
    cases hspelling <;> rfl

theorem singleMark_head : ∀ kind ∈ marks, ∀ c ∈ kind.spelling.toList.head?,
    singleMark c ≠ .error (.invalidCharacter c) := by
  intro kind hkind
  cases kind
  all_goals try exact absurd hkind (by decide)
  all_goals
    intro c hc
    cases hc
    intro h
    cases h

/-- A character that is no mark is half of one, or no mark begins with it. -/
theorem singleMark_error {c : Char} {what : Fault} (h : singleMark c = .error what) :
    (c = '&' ∧ what = .loneAmpersand) ∨ (c = '?' ∧ what = .loneQuestionMark) ∨
      (what = .invalidCharacter c ∧ ∀ kind ∈ marks, kind.spelling.toList.head? ≠ some c) := by
  have hwhat : (c = '&' ∧ what = .loneAmpersand) ∨ (c = '?' ∧ what = .loneQuestionMark) ∨
      what = .invalidCharacter c := by
    unfold singleMark at h
    split at h <;> cases h <;> simp
  rcases hwhat with hwhat | hwhat | rfl
  · exact .inl hwhat
  · exact .inr (.inl hwhat)
  · exact .inr (.inr ⟨rfl, fun kind hkind hhead => singleMark_head kind hkind c hhead h⟩)

/-- No mark is longer than one of two characters. -/
theorem spells_doubleMark {c d : Char} {kind : Token.Kind} (h : doubleMark? c d = some kind)
    (rest : List Char) : Spells kind kind.spelling.toList kind.spelling.toList rest := by
  obtain ⟨hmem, hspelling⟩ := spelling_of_doubleMark h
  refine .mark hmem ?_ ?_
  · intro e _ longer hlonger heq
    have hlength := (doubleMark_of_spelling hlonger).1
    rw [heq, hspelling] at hlength
    simp at hlength
  · rintro rfl
    cases hspelling

/-- A mark of one character is read where none of two is. -/
theorem spells_singleMark {c : Char} {cs : List Char} {kind : Token.Kind}
    (h : singleMark c = .ok kind) (hnone : cs.head?.bind (doubleMark? c) = none)
    (hcomment : c = '/' → ∀ d ∈ cs.head?, d ≠ '/' ∧ d ≠ '-') :
    Spells kind kind.spelling.toList kind.spelling.toList cs := by
  obtain ⟨hmem, hspelling⟩ := spelling_of_singleMark h
  refine .mark hmem ?_ ?_
  · intro d hd longer hlonger heq
    rw [hspelling] at heq
    have hdouble := (doubleMark_of_spelling hlonger).2 c d heq
    rw [hd, Option.bind_some, hdouble] at hnone
    cases hnone
  · rintro rfl
    cases hspelling
    exact hcomment rfl

theorem covers_mark {c : Char} {cs : List Char} (hblank : isBlank c = false)
    (hcomment : c = '/' → ∀ d ∈ cs.head?, d ≠ '/' ∧ d ≠ '-') (hquote : c ≠ '"') (htilde : c ≠ '~')
    (hdigit : c.isDigit = false) (hlower : c.isLower = false) : Covers [c] cs (mark c cs) := by
  unfold mark
  split
  · next kind hkind =>
    obtain ⟨d, hhead, hdouble⟩ := Option.bind_eq_some_iff.1 hkind
    obtain ⟨rest, rfl⟩ := List.head?_eq_some_iff.1 hhead
    have hspelling := (spelling_of_doubleMark hdouble).2
    exact covers_append [d] (spells_doubleMark hdouble rest) hspelling rfl rfl
  next hnone =>
  split
  · next kind hkind =>
    have hspelling := (spelling_of_singleMark hkind).2
    exact covers_append [] (spells_singleMark hkind hnone hcomment) hspelling rfl rfl
  · next what hwhat =>
    have halone {d : Char} (hdouble : (doubleMark? c d).isSome) : cs.head? ≠ some d := by
      intro hhead
      rw [hhead, Option.bind_some] at hnone
      rw [hnone] at hdouble
      cases hdouble
    have hmalformed : Malformed what [c] cs := by
      rcases singleMark_error hwhat with ⟨rfl, rfl⟩ | ⟨rfl, rfl⟩ | ⟨rfl, hmarks⟩
      · exact .loneAmpersand (halone rfl)
      · exact .loneQuestionMark (halone rfl)
      · exact .invalidCharacter hblank hdigit hlower hquote htilde hmarks cs
    exact covers_append [] hmalformed rfl rfl rfl

/-! #### All segments -/

/-- The segment that begins at a character follows the lexical rules. -/
theorem holds_reach (c : Char) (cs : List Char) : Covers [c] cs (reach c cs) := by
  unfold reach
  split
  · next hblank => exact covers_blank hblank cs
  next hblank =>
  split
  · next hcomment =>
    obtain ⟨rfl, hhead⟩ := hcomment
    obtain ⟨rest, rfl⟩ := List.head?_eq_some_iff.1 hhead
    exact covers_lineComment rest
  next hline =>
  split
  · next hcomment =>
    obtain ⟨rfl, hhead⟩ := hcomment
    obtain ⟨rest, rfl⟩ := List.head?_eq_some_iff.1 hhead
    exact covers_blockComment rest
  next hblock =>
  split
  · next hquote =>
    subst hquote
    exact covers_textLiteral cs
  next hquote =>
  split
  · next htilde =>
    subst htilde
    split
    · next hdigit =>
      cases cs with
      | nil => cases hdigit
      | cons d cs => exact covers_number (.inr rfl) hdigit cs
    · next hdigit =>
      have hstops : Stops Char.isDigit cs := by
        intro d hd
        rw [hd, Option.any_some] at hdigit
        exact Bool.eq_false_iff.2 hdigit
      exact covers_append [] (Malformed.loneTilde hstops) rfl rfl rfl
  next htilde =>
  split
  · next hdigit => exact covers_unsigned hdigit cs
  next hdigit =>
  split
  · next hlower => exact covers_name hlower cs
  next hlower =>
  rw [Bool.not_eq_true] at hblank hdigit hlower
  refine covers_mark hblank ?_ hquote htilde hdigit hlower
  rintro rfl d hd
  constructor
  · rintro rfl
    exact hline ⟨rfl, hd⟩
  · rintro rfl
    exact hblock ⟨rfl, hd⟩

end Segment

/-! ### Places -/

theorem Position.advance_start (before : List Char) :
    Position.start.advance before = Position.behind before := by
  induction before using List.reverseRecOn with
  | nil => rfl
  | append_singleton before c ih =>
    rw [Position.advance_append, ih]
    by_cases hline : c = '\n'
    · subst hline
      simp [Position.advance, Position.next, Position.behind, Nat.add_assoc]
    · simp [Position.advance, Position.next, Position.behind, hline, Nat.add_comm 1]

/-! ### The whole text -/

namespace Scan

open Segment (split_cons)

/-- A token that is spelled is well formed. -/
theorem wellFormed_of_spells {kind : Token.Kind} {lexeme text rest : List Char}
    (h : Segment.Spells kind lexeme text rest) : kind.WellFormed lexeme := by
  cases h with
  | word _ hlexeme _ => exact hlexeme
  | number _ hlexeme _ => exact hlexeme
  | text _ hlength _ => exact .pastaLiteral hlength
  | mark hkind _ _ => exact .fixed (Segment.not_mem_varied kind (List.mem_append_right _ hkind))

theorem wellFormed_of_accounts {before text : List Char} {tokens : List Token}
    {errors : List LexicalError} (h : Accounts before text tokens errors) :
    ∀ t ∈ tokens, t.kind.WellFormed t.lexeme.toList := by
  induction h with
  | nil => simp
  | skip _ _ _ ih => exact ih
  | token _ htext _ ih => exact List.forall_mem_cons.2 ⟨wellFormed_of_spells htext, ih⟩
  | fault _ _ _ ih => exact ih

/-- What scanning a text gives is what its first segment gives, and what the rest gives. -/
theorem ofText_cons (p : Position) (c : Char) (cs : List Char) :
    ofText p (c :: cs) =
      let text := c :: cs.take (Segment.reach c cs).2
      let rest := ofText (p.advance text) (cs.drop (Segment.reach c cs).2)
      match (Segment.reach c cs).1 with
      | .blank => rest
      | .comment => rest
      | .token kind lexeme => ⟨⟨lexeme, kind, p.line⟩ :: rest.tokens, rest.errors⟩
      | .fault what => ⟨rest.tokens, ⟨what, p⟩ :: rest.errors⟩ := by
  rw [ofText, split_cons]
  cases (Segment.reach c cs).1 <;> rfl

/-- What is scanned behind `before` accounts for it: one segment by the rule it follows, the others
by induction on the segments. -/
theorem accounts_ofText (before text : List Char) :
    Accounts before text (ofText (Position.start.advance before) text).tokens
      (ofText (Position.start.advance before) text).errors := by
  induction text using Segment.split.induct generalizing before with
  | case1 =>
    rw [ofText_nil]
    exact .nil before
  | case2 c cs ih =>
    have hholds := Segment.holds_reach c cs
    have hrest := ih (before ++ c :: cs.take (Segment.reach c cs).2)
    have hplace := Position.advance_start before
    rw [Position.advance_append] at hrest
    rw [ofText_cons]
    generalize Segment.reach c cs = read at *
    obtain ⟨content, n⟩ := read
    have hne : c :: cs.take n ≠ [] := List.cons_ne_nil _ _
    have htext : c :: cs = (c :: cs.take n) ++ cs.drop n := by simp
    rw [htext]
    cases content with
    | blank => exact .skip hne hholds hrest
    | comment => exact .skip hne hholds hrest
    | token kind lexeme =>
      have hline := Position.line_advance Position.start before
      dsimp only
      rw [hline]
      exact .token hne hholds hrest
    | fault what =>
      have hfault := Accounts.fault hne hholds hrest
      rw [← hplace] at hfault
      exact hfault

/-- **The scanner accounts for every character.**  A source text is cut into stretches, none of
them empty, each of which is white space or a comment, the spelling of one token, or malformed with
one error, and the tokens and the errors are those of the stretches in their order.  The line of a
token is one more than the line feeds before it, an error stands where its stretch begins, and every
token is well formed. -/
theorem accounts_for_text (source : String) :
    Accounts [] source.toList (ofSource source).tokens (ofSource source).errors ∧
      ∀ t ∈ (ofSource source).tokens, t.kind.WellFormed t.lexeme.toList := by
  have haccounts := accounts_ofText [] source.toList
  exact ⟨haccounts, wellFormed_of_accounts haccounts⟩

end Scan

end Bistro
