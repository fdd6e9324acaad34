import Bistro.Proofs.Token.Literal

/-!
# Scanning undoes spelling

A row of well-formed tokens is spelled with a separator between each two of them: a character of
white space, and behind it any mix of white space and comments.  The scanner gives the same row
back, and each token has the line it was spelled on.

The separator begins with white space because of the tokens before it: white space ends a name, a
number and a mark, whatever else may follow.

## Main definitions

* `Token.Kind.WellFormed` — the lexemes that tokens of a kind have.
* `Token.Kind.spell` — how a lexeme is spelled.
* `Segment.Filler`, `Segment.Separator` — what may stand between two tokens.
* `Spelling` — a token and what is before it; `Spelling.text` is the text of a row.

## Main results

* `Segment.reach_spell` — the scanner reads one spelled token.
* `Scan.ofText_filler` — the scanner passes over a filler.
* `Scan.ofSource_text` — **scanning undoes spelling.**
-/

namespace Bistro

/-! ### Spelling -/

namespace Token.Kind

/-- The digits of a number on one side of its point. -/
structure IsDigits (cs : List Char) : Prop where
  ne_nil : cs ≠ []
  length_le : cs.length ≤ Segment.maxDigits
  digits : ∀ c ∈ cs, c.isDigit = true

/-- The lexemes of tokens. -/
inductive WellFormed : Token.Kind → List Char → Prop
  /-- A keyword, an operator or a punctuation mark. -/
  | fixed {kind : Token.Kind} (h : kind ∉ varied) : WellFormed kind kind.spelling.toList
  | ident {c : Char} {cs : List Char} (hc : c.isLower = true)
      (hcs : ∀ d ∈ cs, Segment.isNameChar d = true)
      (hlength : (c :: cs).length ≤ Segment.maxNameLength)
      (hkeyword : keyword? (String.ofList (c :: cs)) = none) : WellFormed ident (c :: cs)
  | pinchLiteral {sign digits : List Char} (hsign : Number.IsSign sign)
      (hdigits : IsDigits digits) : WellFormed pinchLiteral (sign ++ digits)
  | skimLiteral {sign whole fraction : List Char} (hsign : Number.IsSign sign)
      (hwhole : IsDigits whole) (hfraction : IsDigits fraction) :
      WellFormed skimLiteral (sign ++ whole ++ '.' :: fraction)
  | pastaLiteral {body : List Char} (hlength : body.length ≤ Segment.maxTextLength) :
      WellFormed pastaLiteral ('"' :: body ++ ['"'])

/-- How a character of a text literal is spelled. -/
def escape : Char → List Char
  | '"' => ['\\', '"']
  | '\\' => ['\\', '\\']
  | '\n' => ['\\', 'n']
  | '\t' => ['\\', 't']
  | c => [c]

/-- How the sign of a number is spelled. -/
def spellSign : List Char → List Char
  | '-' :: cs => '~' :: cs
  | cs => cs

/-- How a lexeme is spelled. -/
def spell : Token.Kind → List Char → List Char
  | pinchLiteral, lexeme | skimLiteral, lexeme => spellSign lexeme
  -- the quotes are kept, and what is between them is escaped
  | pastaLiteral, lexeme => '"' :: lexeme.tail.dropLast.flatMap escape ++ ['"']
  | _, lexeme => lexeme

end Token.Kind

namespace Segment

/-- Any mix of white space, comments that end with their line, and closed block comments. -/
inductive Filler : List Char → Prop
  | nil : Filler []
  | blank {c : Char} {cs : List Char} (hc : isBlank c = true) (h : Filler cs) : Filler (c :: cs)
  | lineComment {body cs : List Char} (hbody : '\n' ∉ body) (h : Filler cs) :
      Filler ('/' :: '/' :: body ++ '\n' :: cs)
  | blockComment {body cs : List Char} (hbody : ¬ ['-', '/'] <:+: body) (h : Filler cs) :
      Filler ('/' :: '-' :: body ++ '-' :: '/' :: cs)

/-- What stands between two tokens. -/
inductive Separator : List Char → Prop
  | mk {c : Char} {cs : List Char} (hc : isBlank c = true) (h : Filler cs) : Separator (c :: cs)

end Segment

/-- A token to be spelled, and what is before it. -/
structure Spelling where
  gap : List Char
  kind : Token.Kind
  lexeme : String
  deriving DecidableEq, Repr, Inhabited

namespace Spelling

/-- The text of a token and of what is before it. -/
def written (s : Spelling) : List Char := s.gap ++ s.kind.spell s.lexeme.toList

/-- The text of a row of tokens. -/
def text (row : List Spelling) : List Char := row.flatMap written

/-- A row of well-formed tokens with a separator between each two of them. -/
def IsRow : List Spelling → Prop
  | [] => True
  | first :: rest => first.gap = [] ∧ (∀ s ∈ rest, Segment.Separator s.gap) ∧
    ∀ s ∈ first :: rest, s.kind.WellFormed s.lexeme.toList

/-- The tokens of a row that is spelled behind `before`: the line of a token is one more than the
line feeds before its spelling. -/
def tokens (before : List Char) : List Spelling → List Token
  | [] => []
  | s :: rest =>
    ⟨s.lexeme, s.kind, 1 + (before ++ s.gap).count '\n'⟩ :: tokens (before ++ s.written) rest

end Spelling

/-! ### Reading one token -/

namespace Segment

open Token.Kind (WellFormed IsDigits escape spell spellSign)

/-- A text is empty or begins with white space. -/
def Ends (rest : List Char) : Prop := ∀ c ∈ rest.head?, isBlank c = true

theorem eq_of_isBlank {c : Char} (h : isBlank c = true) :
    c = ' ' ∨ c = '\t' ∨ c = '\r' ∨ c = '\n' := by
  simpa [isBlank, or_assoc] using h

/-- White space is in no class of characters that all of its members are outside of. -/
theorem eq_false_of_isBlank {p : Char → Bool} (hp : [' ', '\t', '\r', '\n'].all (!p ·) = true)
    {c : Char} (h : isBlank c = true) : p c = false := by
  have hmem : c ∈ [' ', '\t', '\r', '\n'] := by simpa using eq_of_isBlank h
  simpa using List.all_eq_true.1 hp c hmem

theorem run_append {p : Char → Bool} {cs rest : List Char} (hcs : ∀ c ∈ cs, p c = true)
    (hrest : ∀ c ∈ rest.head?, p c = false) : run p (cs ++ rest) = cs.length := by
  have htake : rest.takeWhile p = [] := by
    cases rest with
    | nil => rfl
    | cons c rest => exact List.takeWhile_cons_of_neg (by simpa using hrest c rfl)
  rw [run, List.takeWhile_append_of_pos hcs, htake, List.append_nil]

/-- A class without white space ends where the text behind a token begins. -/
theorem run_append_of_ends {p : Char → Bool} (hp : [' ', '\t', '\r', '\n'].all (!p ·) = true)
    {cs rest : List Char} (hcs : ∀ c ∈ cs, p c = true) (hrest : Ends rest) :
    run p (cs ++ rest) = cs.length :=
  run_append hcs fun c hc => eq_false_of_isBlank hp (hrest c hc)

/-- A text is read as one token, whatever follows it behind white space. -/
def ReadsAs (kind : Token.Kind) (lexeme text : List Char) : Prop :=
  ∃ c cs, text = c :: cs ∧ ∀ rest, Ends rest →
    reach c (cs ++ rest) = (.token kind (String.ofList lexeme), cs.length)

/-! #### Names, keywords and marks -/

theorem reach_of_isLower {c : Char} (hc : c.isLower = true) (cs : List Char) :
    reach c cs = name c cs := by
  have hne : ∀ d : Char, d.isLower = false → c ≠ d := by
    rintro d hd rfl
    rw [hc] at hd
    cases hd
  have hblank : isBlank c = false := by
    simp [isBlank, hne ' ' rfl, hne '\t' rfl, hne '\r' rfl, hne '\n' rfl]
  have hdigit : c.isDigit = false := by
    by_contra hdigit
    rw [Bool.not_eq_false] at hdigit
    have hle : c.val ≤ 57 := of_decide_eq_true (Bool.and_eq_true_iff.1 hdigit).2
    have hge : 97 ≤ c.val := of_decide_eq_true (Bool.and_eq_true_iff.1 hc).1
    exact absurd (UInt32.le_trans hge hle) (by decide)
  simp [reach, hblank, hdigit, hc, hne '/' rfl, hne '"' rfl, hne '~' rfl]

theorem name_append {c : Char} {cs rest : List Char}
    (hcs : ∀ d ∈ cs, isNameChar d = true) (hrest : Ends rest) :
    name c (cs ++ rest) = match Token.Kind.keyword? (String.ofList (c :: cs)) with
      | some kind => (.token kind (String.ofList (c :: cs)), cs.length)
      | none =>
        if maxNameLength < (c :: cs).length then (.fault .nameTooLong, cs.length)
        else (.token .ident (String.ofList (c :: cs)), cs.length) := by
  have hrun := run_append_of_ends (p := isNameChar) (by decide) hcs hrest
  unfold name
  rewrite [hrun]
  dsimp only
  rewrite [List.take_left]
  rfl

/-- A keyword is written like a name. -/
def isKeywordSpelling (kind : Token.Kind) : List Char → Bool
  | [] => false
  | c :: cs => c.isLower && cs.all isNameChar &&
    Token.Kind.keyword? (String.ofList (c :: cs)) = some kind

theorem isKeywordSpelling_spelling :
    ∀ kind ∈ Token.Kind.keywords, isKeywordSpelling kind kind.spelling.toList = true := by
  decide +kernel

theorem readsAs_keyword {kind : Token.Kind} (hkind : kind ∈ Token.Kind.keywords) :
    ReadsAs kind kind.spelling.toList kind.spelling.toList := by
  have hword := isKeywordSpelling_spelling kind hkind
  cases htext : kind.spelling.toList with
  | nil =>
    rw [htext] at hword
    cases hword
  | cons c cs =>
    rw [htext] at hword
    simp only [isKeywordSpelling, Bool.and_eq_true, List.all_eq_true, decide_eq_true_eq] at hword
    obtain ⟨⟨hc, hcs⟩, hkeyword⟩ := hword
    refine ⟨c, cs, rfl, fun rest hrest => ?_⟩
    rw [reach_of_isLower hc, name_append hcs hrest, hkeyword]

theorem readsAs_ident {c : Char} {cs : List Char} (hc : c.isLower = true)
    (hcs : ∀ d ∈ cs, isNameChar d = true) (hlength : (c :: cs).length ≤ maxNameLength)
    (hkeyword : Token.Kind.keyword? (String.ofList (c :: cs)) = none) :
    ReadsAs .ident (c :: cs) (c :: cs) := by
  refine ⟨c, cs, rfl, fun rest hrest => ?_⟩
  rw [reach_of_isLower hc, name_append hcs hrest, hkeyword]
  exact if_neg (Nat.not_lt.2 hlength)

theorem Separator.filler {gap : List Char} (h : Separator gap) : Filler gap := by
  obtain ⟨hc, hfiller⟩ := h
  exact .blank hc hfiller

theorem Separator.ends {gap : List Char} (h : Separator gap) (rest : List Char) :
    Ends (gap ++ rest) := by
  obtain ⟨hc, hfiller⟩ := h
  intro d hd
  obtain rfl := Option.some.inj hd
  exact hc

theorem Ends.cases {rest : List Char} (h : Ends rest) : rest = [] ∨ ∃ tail,
    rest = ' ' :: tail ∨ rest = '\t' :: tail ∨ rest = '\r' :: tail ∨ rest = '\n' :: tail := by
  cases rest with
  | nil => exact .inl rfl
  | cons c tail => exact .inr ⟨tail, by simpa using eq_of_isBlank (h c rfl)⟩

/-- Only the next character behind a mark matters, and white space forms no mark. -/
theorem readsAs_mark {kind : Token.Kind} (hkind : kind ∈ Token.Kind.marks) :
    ReadsAs kind kind.spelling.toList kind.spelling.toList := by
  cases kind
  all_goals try exact absurd hkind (by decide)
  all_goals
    refine ⟨_, _, rfl, fun rest hrest => ?_⟩
    obtain rfl | ⟨tail, rfl | rfl | rfl | rfl⟩ := hrest.cases <;> rfl

/-! #### Numbers -/

theorem reach_of_isDigit {c : Char} (hc : c.isDigit = true) (cs : List Char) :
    reach c cs = ((number [] (c :: cs)).1, (number [] (c :: cs)).2 - 1) := by
  have hne : ∀ d : Char, d.isDigit = false → c ≠ d := by
    rintro d hd rfl
    rw [hc] at hd
    cases hd
  have hblank : isBlank c = false := by
    simp [isBlank, hne ' ' rfl, hne '\t' rfl, hne '\r' rfl, hne '\n' rfl]
  simp [reach, hblank, hc, hne '/' rfl, hne '"' rfl, hne '~' rfl]

/-- What is behind the digits of a number neither continues nor spoils it. -/
theorem number_append {sign digits rest : List Char} (hdigits : IsDigits digits)
    (hrest : Ends rest) : number sign (digits ++ rest) =
      (.token .pinchLiteral (String.ofList (sign ++ digits)), digits.length) := by
  have hrun := run_append_of_ends (p := Char.isDigit) (by decide) hdigits.digits hrest
  unfold number
  simp only [hrun, List.drop_left, List.take_left, Nat.not_lt.2 hdigits.length_le, if_false]
  obtain rfl | ⟨tail, rfl | rfl | rfl | rfl⟩ := hrest.cases <;> rfl

theorem fraction_append (lexeme : List Char) {digits rest : List Char} (hdigits : IsDigits digits)
    (hrest : Ends rest) : fraction lexeme (digits ++ rest) =
      (.token .skimLiteral (String.ofList (lexeme ++ digits)), digits.length) := by
  have hrun := run_append_of_ends (p := Char.isDigit) (by decide) hdigits.digits hrest
  have hne : digits.length ≠ 0 := fun h => hdigits.ne_nil (List.length_eq_zero_iff.1 h)
  unfold fraction
  simp only [hrun, List.drop_left, List.take_left, Nat.not_lt.2 hdigits.length_le, hne, if_false]
  obtain rfl | ⟨tail, rfl | rfl | rfl | rfl⟩ := hrest.cases <;> rfl

theorem number_append_fraction (sign : List Char) {whole digits rest : List Char}
    (hwhole : IsDigits whole) (hdigits : IsDigits digits) (hrest : Ends rest) :
    number sign (whole ++ '.' :: (digits ++ rest)) =
      (.token .skimLiteral (String.ofList (sign ++ whole ++ '.' :: digits)),
        (whole ++ '.' :: digits).length) := by
  have hrun : run Char.isDigit (whole ++ '.' :: (digits ++ rest)) = whole.length := by
    refine run_append hwhole.digits fun c hc => ?_
    obtain rfl : '.' = c := Option.some.inj hc
    rfl
  have hfraction := fraction_append (sign ++ whole ++ ['.']) hdigits hrest
  unfold number
  simp only [hrun, List.drop_left, List.take_left, Nat.not_lt.2 hwhole.length_le, if_false, if_true,
    hfraction]
  simp [Nat.add_assoc, Nat.add_comm 1]

/-- A number is read alike with its sign and without, as the digits behind it are. -/
theorem readsAs_number {kind : Token.Kind} {sign : List Char} (hsign : Number.IsSign sign)
    {c : Char} {cs : List Char} (hc : c.isDigit = true)
    (h : ∀ rest, Ends rest → number sign (c :: cs ++ rest) =
      (.token kind (String.ofList (sign ++ c :: cs)), (c :: cs).length)) :
    ReadsAs kind (sign ++ c :: cs) (spellSign (sign ++ c :: cs)) := by
  rcases hsign with rfl | rfl
  · have hspell : spellSign (c :: cs) = c :: cs := by
      unfold spellSign
      split
      · next heq =>
        obtain ⟨rfl, -⟩ := List.cons.inj heq
        cases hc
      · rfl
    refine ⟨c, cs, hspell, fun rest hrest => ?_⟩
    rw [reach_of_isDigit hc, ← List.cons_append, h rest hrest]
    rfl
  · refine ⟨'~', c :: cs, rfl, fun rest hrest => ?_⟩
    have htilde : reach '~' (c :: cs ++ rest) = number ['-'] (c :: cs ++ rest) := by
      simp [reach, isBlank, hc]
    rw [htilde, h rest hrest]

theorem IsDigits.exists_cons {digits : List Char} (h : IsDigits digits) :
    ∃ c cs, digits = c :: cs ∧ c.isDigit = true := by
  obtain ⟨c, cs, rfl⟩ := List.exists_cons_of_ne_nil h.ne_nil
  exact ⟨c, cs, rfl, h.digits c List.mem_cons_self⟩

theorem readsAs_pinchLiteral {sign digits : List Char} (hsign : Number.IsSign sign)
    (hdigits : IsDigits digits) :
    ReadsAs .pinchLiteral (sign ++ digits) (spellSign (sign ++ digits)) := by
  obtain ⟨c, cs, rfl, hc⟩ := IsDigits.exists_cons hdigits
  exact readsAs_number hsign hc fun rest hrest => number_append hdigits hrest

theorem readsAs_skimLiteral {sign whole digits : List Char} (hsign : Number.IsSign sign)
    (hwhole : IsDigits whole) (hdigits : IsDigits digits) :
    ReadsAs .skimLiteral (sign ++ whole ++ '.' :: digits)
      (spellSign (sign ++ whole ++ '.' :: digits)) := by
  obtain ⟨c, cs, rfl, hc⟩ := IsDigits.exists_cons hwhole
  rw [List.append_assoc]
  refine readsAs_number hsign hc fun rest hrest => ?_
  simpa using number_append_fraction sign hwhole hdigits hrest

/-! #### Texts -/

/-- Reading a text undoes its escapes. -/
theorem quoted_escape (body rest : List Char) : quoted (body.flatMap escape ++ '"' :: rest) =
    (body, true, (body.flatMap escape).length + 1) := by
  induction body with
  | nil => rfl
  | cons c body ih =>
    rw [List.flatMap_cons, List.append_assoc]
    by_cases hquote : c = '"'
    · subst hquote
      simp [escape, quoted, ih, unescape]
    by_cases hslash : c = '\\'
    · subst hslash
      simp [escape, quoted, ih, unescape]
    by_cases hline : c = '\n'
    · subst hline
      simp [escape, quoted, ih, unescape]
    by_cases htab : c = '\t'
    · subst htab
      simp [escape, quoted, ih, unescape]
    simp [escape, quoted, ih, hslash]

theorem readsAs_pastaLiteral {body : List Char} (hlength : body.length ≤ maxTextLength) :
    ReadsAs .pastaLiteral ('"' :: body ++ ['"']) ('"' :: body.flatMap escape ++ ['"']) := by
  refine ⟨'"', body.flatMap escape ++ ['"'], rfl, fun rest _ => ?_⟩
  have hliteral : reach '"' (body.flatMap escape ++ ['"'] ++ rest) =
      textLiteral (body.flatMap escape ++ '"' :: rest) := by
    simp [reach, isBlank]
  rw [hliteral, textLiteral, quoted_escape]
  simp [Nat.not_lt.2 hlength]

/-! #### All tokens -/

/-- A well-formed token is read from its spelling. -/
theorem reach_spell {kind : Token.Kind} {lexeme : List Char} (h : kind.WellFormed lexeme) :
    ReadsAs kind lexeme (kind.spell lexeme) := by
  cases h with
  | fixed hvaried =>
    have hspell : kind.spell kind.spelling.toList = kind.spelling.toList := by
      cases kind <;> first | rfl | exact absurd hvaried (by decide)
    rw [hspell]
    have hall := Token.Kind.mem_all kind
    simp only [Token.Kind.all, List.mem_append, hvaried, or_false] at hall
    rcases hall with hkeyword | hmark
    · exact readsAs_keyword hkeyword
    · exact readsAs_mark hmark
  | ident hc hcs hlength hkeyword => exact readsAs_ident hc hcs hlength hkeyword
  | pinchLiteral hsign hdigits => exact readsAs_pinchLiteral hsign hdigits
  | skimLiteral hsign hwhole hfraction => exact readsAs_skimLiteral hsign hwhole hfraction
  | pastaLiteral hlength => simpa [spell] using readsAs_pastaLiteral hlength

end Segment

/-! ### Lines -/

theorem Position.line_advance (p : Position) (text : List Char) :
    (p.advance text).line = p.line + text.count '\n' := by
  induction text generalizing p with
  | nil => rfl
  | cons c text ih =>
    rw [Position.advance, List.foldl_cons, ← Position.advance, ih, Position.next, List.count_cons]
    split
    · next h => simp [h]; omega
    · next h => simp [h]

theorem Position.advance_append (p : Position) (text more : List Char) :
    p.advance (text ++ more) = (p.advance text).advance more :=
  List.foldl_append

/-! ### Scanning from a place -/

namespace Scan

open Segment (Filler Separator Ends split_cons)

/-- Scans a text that begins at a place. -/
def ofText (p : Position) (text : List Char) : Scan :=
  let placed := Segment.locate p (Segment.split text)
  ⟨placed.filterMap Segment.token?, placed.filterMap Segment.error?⟩

theorem ofText_nil (p : Position) : ofText p [] = ⟨[], []⟩ := by
  simp [ofText, Segment.locate]

/-- What is neither a token nor malformed is passed over. -/
theorem ofText_of_reach {p : Position} {c : Char} {cs : List Char} {n : Nat}
    (h : Segment.reach c cs = (.blank, n) ∨ Segment.reach c cs = (.comment, n)) :
    ofText p (c :: cs) = ofText (p.advance (c :: cs.take n)) (cs.drop n) := by
  rcases h with h | h
  · rw [ofText, split_cons, h]
    rfl
  · rw [ofText, split_cons, h]
    rfl

theorem ofText_append_of_reach {p : Position} {c : Char} {cs rest : List Char}
    (h : Segment.reach c (cs ++ rest) = (.comment, cs.length)) :
    ofText p (c :: cs ++ rest) = ofText (p.advance (c :: cs)) rest := by
  rw [List.cons_append, ofText_of_reach (.inr h), List.take_left, List.drop_left]

/-- White space is passed over a run at a time, but the run may be cut anywhere. -/
theorem ofText_blank (p : Position) {c : Char} (hc : Segment.isBlank c = true) (cs : List Char) :
    ofText p (c :: cs) = ofText (p.advance [c]) cs := by
  have hreach : ∀ {d : Char}, Segment.isBlank d = true → ∀ cs : List Char,
      Segment.reach d cs = (.blank, Segment.run Segment.isBlank cs) := by
    intro d hd cs
    rw [Segment.reach, if_pos hd]
  rw [ofText_of_reach (.inl (hreach hc cs))]
  cases cs with
  | nil => rfl
  | cons d cs =>
    by_cases hd : Segment.isBlank d = true
    · have hrun : Segment.run Segment.isBlank (d :: cs) = Segment.run Segment.isBlank cs + 1 := by
        simp [Segment.run, hd]
      rw [ofText_of_reach (.inl (hreach hd cs)), hrun]
      rfl
    · have hrun : Segment.run Segment.isBlank (d :: cs) = 0 := by
        simp [Segment.run, hd]
      rw [hrun]
      rfl

/-! #### Comments -/

theorem reach_lineComment {body : List Char} (hbody : '\n' ∉ body) (rest : List Char) :
    Segment.reach '/' ('/' :: body ++ '\n' :: rest) = (.comment, ('/' :: body).length) := by
  have hrun : Segment.run (· ≠ '\n') ('/' :: body ++ '\n' :: rest) = ('/' :: body).length := by
    apply Segment.run_append
    · intro c hc
      rw [decide_eq_true_eq]
      rintro rfl
      rcases List.mem_cons.1 hc with hc | hc
      · exact absurd hc (by decide)
      · exact hbody hc
    · intro c hc
      obtain rfl : '\n' = c := Option.some.inj hc
      rfl
  rw [Segment.reach, if_neg (by decide), if_pos ⟨rfl, rfl⟩, hrun]

theorem commentEnd_append {body : List Char} (hbody : ¬ ['-', '/'] <:+: body) (rest : List Char) :
    Segment.commentEnd (body ++ '-' :: '/' :: rest) = some (body.length + 2) := by
  induction body with
  | nil => rfl
  | cons c body ih =>
    have hinner := ih fun h => hbody (h.trans (List.suffix_cons c body).isInfix)
    -- the comment is not closed between `c` and the next character
    have hopen : ∀ tail, c :: (body ++ '-' :: '/' :: rest) ≠ '-' :: '/' :: tail := by
      intro tail heq
      obtain ⟨rfl, hnext⟩ := List.cons.inj heq
      cases body with
      | nil => exact absurd (List.cons.inj hnext).1 (by decide)
      | cons d body =>
        obtain ⟨rfl, -⟩ := List.cons.inj hnext
        exact hbody ⟨[], body, rfl⟩
    rw [List.cons_append, Segment.commentEnd, hinner]
    · rfl
    · intro tail hc htail
      exact hopen tail (by rw [hc, htail])

theorem reach_blockComment {body : List Char} (hbody : ¬ ['-', '/'] <:+: body) (rest : List Char) :
    Segment.reach '/' ('-' :: body ++ ['-', '/'] ++ rest) =
      (.comment, ('-' :: body ++ ['-', '/']).length) := by
  have hend := commentEnd_append hbody rest
  simp [Segment.reach, Segment.isBlank, hend]

/-! #### Rows -/

/-- What stands between tokens is passed over. -/
theorem ofText_filler {filler : List Char} (h : Filler filler) (p : Position) (rest : List Char) :
    ofText p (filler ++ rest) = ofText (p.advance filler) rest := by
  induction h generalizing p with
  | nil => rfl
  | blank hc _ ih =>
    rw [List.cons_append, ofText_blank p hc, ih]
    rfl
  | @lineComment body cs hbody _ ih =>
    have hcomment := ofText_append_of_reach (p := p) (reach_lineComment hbody (cs ++ rest))
    have hassoc : ('/' :: '/' :: body ++ '\n' :: cs) ++ rest =
        ('/' :: '/' :: body) ++ '\n' :: (cs ++ rest) := by simp
    rw [hassoc, hcomment, ofText_blank _ rfl, ih, Position.advance_append]
    rfl
  | @blockComment body cs hbody _ ih =>
    have hcomment := ofText_append_of_reach (p := p) (reach_blockComment hbody (cs ++ rest))
    have hassoc : ('/' :: '-' :: body ++ '-' :: '/' :: cs) ++ rest =
        ('/' :: ('-' :: body ++ ['-', '/'])) ++ (cs ++ rest) := by simp
    have hassoc' : '/' :: '-' :: body ++ '-' :: '/' :: cs =
        ('/' :: ('-' :: body ++ ['-', '/'])) ++ cs := by simp
    rw [hassoc, hcomment, ih, hassoc', Position.advance_append]

/-- A well-formed token is read, and scanning goes on behind it. -/
theorem ofText_spell {kind : Token.Kind} {lexeme : List Char} (h : kind.WellFormed lexeme)
    (p : Position) {rest : List Char} (hrest : Ends rest) :
    ofText p (kind.spell lexeme ++ rest) =
      ⟨⟨String.ofList lexeme, kind, p.line⟩ :: (ofText (p.advance (kind.spell lexeme)) rest).tokens,
        (ofText (p.advance (kind.spell lexeme)) rest).errors⟩ := by
  obtain ⟨c, cs, hspell, hreach⟩ := Segment.reach_spell h
  rw [hspell, List.cons_append, ofText, split_cons, hreach rest hrest]
  simp only [List.take_left, List.drop_left]
  rfl

/-- One word of a row, with what is before it. -/
theorem ofText_written {s : Spelling} (hgap : Filler s.gap)
    (hword : s.kind.WellFormed s.lexeme.toList) (before : List Char) {rest : List Char}
    (hrest : Ends rest) {tokens : List Token}
    (h : ofText (Position.start.advance (before ++ s.written)) rest = ⟨tokens, []⟩) :
    ofText (Position.start.advance before) (s.written ++ rest) =
      ⟨⟨s.lexeme, s.kind, 1 + (before ++ s.gap).count '\n'⟩ :: tokens, []⟩ := by
  rw [Spelling.written, ← List.append_assoc, Position.advance_append] at h
  have hline : (Position.start.advance (before ++ s.gap)).line =
      1 + (before ++ s.gap).count '\n' := Position.line_advance _ _
  rw [Spelling.written, List.append_assoc, ofText_filler hgap, ← Position.advance_append,
    ofText_spell hword _ hrest, h, hline, String.ofList_toList]

/-- What is behind a word is nothing or the separator of the next. -/
theorem ends_text {row : List Spelling} (hgaps : ∀ s ∈ row, Separator s.gap) :
    Ends (Spelling.text row) := by
  cases row with
  | nil => simp [Spelling.text, Ends]
  | cons next row =>
    rw [Spelling.text, List.flatMap_cons, Spelling.written, List.append_assoc]
    exact (hgaps next List.mem_cons_self).ends _

/-- The words behind the first, each with the separator before it. -/
theorem ofText_text {row : List Spelling} (hgaps : ∀ s ∈ row, Separator s.gap)
    (hwords : ∀ s ∈ row, s.kind.WellFormed s.lexeme.toList) (before : List Char) :
    ofText (Position.start.advance before) (Spelling.text row) =
      ⟨Spelling.tokens before row, []⟩ := by
  induction row generalizing before with
  | nil => exact ofText_nil _
  | cons s row ih =>
    rw [List.forall_mem_cons] at hgaps hwords
    exact ofText_written hgaps.1.filler hwords.1 before (ends_text hgaps.2)
      (ih hgaps.2 hwords.2 _)

/-- A row of words, the first of them without a separator. -/
theorem ofText_row {row : List Spelling} (h : Spelling.IsRow row) :
    ofText Position.start (Spelling.text row) = ⟨Spelling.tokens [] row, []⟩ := by
  cases row with
  | nil => exact ofText_nil _
  | cons first row =>
    obtain ⟨hfirst, hgaps, hwords⟩ := h
    rw [List.forall_mem_cons] at hwords
    have hgap : Filler first.gap := hfirst ▸ Filler.nil
    exact ofText_written hgap hwords.1 [] (ends_text hgaps) (ofText_text hgaps hwords.2 _)

theorem ofSource_ofList (text : List Char) :
    ofSource (String.ofList text) = ofText Position.start text := by
  rw [ofSource, String.toList_ofList, ofText]

/-- **Scanning undoes spelling.**  A row of well-formed tokens, spelled with any separators between
them, is scanned without an error and gives the same tokens, each with the line it was spelled
on. -/
theorem ofSource_text (row : List Spelling) (h : Spelling.IsRow row) :
    ofSource (String.ofList (Spelling.text row)) = ⟨Spelling.tokens [] row, []⟩ := by
  rw [ofSource_ofList]
  exact ofText_row h

/-- Two words with a comment and a line feed between them; the sign and the text are escaped. -/
theorem ofSource_text_comment :
    ofSource (String.ofList (Spelling.text
      [⟨[], .pinchLiteral, "-7"⟩, ⟨" //;\n".toList, .pastaLiteral, "\"a\"b\""⟩])) =
        ⟨[⟨"-7", .pinchLiteral, 1⟩, ⟨"\"a\"b\"", .pastaLiteral, 2⟩], []⟩ := by
  have hcomment : Filler "//;\n".toList := by
    have hbody : '\n' ∉ [';'] := by decide
    exact .lineComment hbody .nil
  have hnumber : Token.Kind.WellFormed .pinchLiteral (['-'] ++ ['7']) :=
    .pinchLiteral (.inr rfl) ⟨by decide, by decide, List.forall_mem_singleton.2 rfl⟩
  have htext : Token.Kind.WellFormed .pastaLiteral ('"' :: ['a', '"', 'b'] ++ ['"']) :=
    .pastaLiteral (by decide)
  refine ofSource_text _ ⟨rfl, ?_, ?_⟩
  · rintro s hs
    obtain rfl := List.mem_singleton.1 hs
    exact .mk rfl hcomment
  · rintro s (_ | ⟨_, _ | ⟨_, ⟨⟩⟩⟩)
    · exact hnumber
    · exact htext

end Scan

end Bistro
