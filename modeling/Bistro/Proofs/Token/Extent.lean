import Bistro.Proofs.Token.Account

/-!
# How far literals reach

A segment of a text is what is read at its place, and where it ends is decided by the characters
behind that place alone.  A text literal ends with its closing quote and may not go on behind the
end of its line, but a backslash escapes any character behind it, so also a quote or a line feed.  A
number ends with the word that it begins, unless its digits are too many on one side of the point or
missing behind it: then the rest of the word is read on its own.

## Main definitions

* `Segment.escapes`, `Segment.Bare` — what a backslash escapes, and what stands in a text without
  being escaped.
* `Segment.Content.IsNumber` — what is read of a number, well formed or not.
* `Segment.Fault.leavesRest` — the faults behind which the rest of a word is read on its own.

## Main results

* `Segment.exists_reach` — a segment is what is read at its place.
* `Segment.unterminated_iff` — which text literals are not closed.
* `Scan.text_literals_end_with_line` — **a text literal ends with its line, escaped line feeds
  apart.**
* `Scan.numeric_word_read_once` — **a word that begins with a digit is read once**, unless it is
  one of those whose rest is left.
-/

namespace Bistro

namespace Segment

open Token.Kind (IsDigits spellSign)

/-! ### The place of a segment -/

/-- A segment is what is read at its place, and the others are those of the text behind it. -/
theorem exists_reach {text : List Char} {before after : List Segment} {s : Segment}
    (h : split text = before ++ s :: after) :
    ∃ c cs, (s :: after).flatMap Segment.text = c :: cs ∧
      s = ⟨(reach c cs).1, c :: cs.take (reach c cs).2⟩ ∧
      after = split (cs.drop (reach c cs).2) := by
  induction text using split.induct generalizing before with
  | case1 => simp at h
  | case2 c cs ih =>
    rw [split_cons] at h
    cases before with
    | nil =>
      obtain ⟨rfl, rfl⟩ := List.cons.inj h
      exact ⟨c, cs, by simp [flatMap_text_split], rfl, rfl⟩
    | cons first before => exact ih (List.cons.inj h).2

/-! ### Escapes in a text literal -/

/-- Whether the character behind a text is escaped: the text ends with a backslash that is not
escaped itself. -/
def escapes (text : List Char) : Bool :=
  text.foldl (fun escaped c => !escaped && c = '\\') false

/-- A character stands in a text where it is not escaped. -/
def Bare (c : Char) (text : List Char) : Prop :=
  ∃ front back, text = front ++ c :: back ∧ escapes front = false

theorem escapes_cons {c : Char} (hc : c ≠ '\\') (text : List Char) :
    escapes (c :: text) = escapes text := by
  simp [escapes, hc]

theorem escapes_pair (c : Char) (text : List Char) :
    escapes ('\\' :: c :: text) = escapes text := by
  simp [escapes]

/-- What is escaped has a backslash before it. -/
theorem exists_of_escapes {text : List Char} (h : escapes text = true) :
    ∃ front, text = front ++ ['\\'] := by
  induction text using List.reverseRecOn with
  | nil => cases h
  | append_singleton front c _ =>
    rw [escapes, List.foldl_append, List.foldl_cons, List.foldl_nil, Bool.and_eq_true,
      decide_eq_true_eq] at h
    exact ⟨front, by rw [h.2]⟩

/-- The escapes in a body that is written out are complete. -/
theorem Escaped.escapes_eq_false {raw body : List Char} (h : Escaped raw body) :
    escapes raw = false := by
  induction h with
  | nil => rfl
  | plain _ hslash _ _ ih => rwa [escapes_cons hslash]
  | pair c _ ih => rwa [escapes_pair]

/-- In a body that is written out, quotes and line feeds are escaped. -/
theorem Escaped.not_bare {raw body : List Char} (h : Escaped raw body) {c : Char}
    (hc : c = '"' ∨ c = '\n') : ¬ Bare c raw := by
  rintro ⟨front, back, heq, hfront⟩
  induction h generalizing front with
  | nil => simp at heq
  | @plain d raw body hquote hslash hline _ ih =>
    cases front with
    | nil =>
      obtain ⟨rfl, -⟩ := List.cons.inj heq
      exact hc.elim hquote hline
    | cons e front =>
      obtain ⟨rfl, hrest⟩ := List.cons.inj heq
      rw [escapes_cons hslash] at hfront
      exact ih front hrest hfront
  | @pair d raw body _ ih =>
    match front with
    | [] =>
      obtain ⟨rfl, -⟩ := List.cons.inj heq
      exact absurd hc (by decide)
    | [e] =>
      -- the character itself would be the escaped one
      rw [← (List.cons.inj heq).1] at hfront
      cases hfront
    | e :: f :: front =>
      obtain ⟨hslash, hpair⟩ := List.cons.inj heq
      rw [← hslash, escapes_pair] at hfront
      exact ih front (List.cons.inj hpair).2 hfront

/-- A character that is not escaped does not stand in a text without such a character, so it stands
behind it. -/
theorem exists_behind {c : Char} {front tail before after : List Char}
    (heq : front ++ tail = before ++ c :: after) (hfront : ¬ Bare c front)
    (hbefore : escapes before = false) :
    ∃ more, before = front ++ more ∧ tail = more ++ c :: after := by
  rcases List.append_eq_append_iff.1 heq with ⟨more, rfl, htail⟩ | ⟨more, rfl, hafter⟩
  · exact ⟨more, rfl, htail⟩
  · cases more with
    | nil => exact ⟨[], by simp, hafter.symm⟩
    | cons d more =>
      obtain ⟨rfl, -⟩ := List.cons.inj hafter
      exact absurd ⟨before, more, rfl, hbefore⟩ hfront

/-! ### The end of a text literal -/

theorem textLiteral_eq_iff (cs : List Char) :
    (textLiteral cs).1 = .fault .unterminatedText ↔ (quoted cs).2.1 = false := by
  unfold textLiteral
  generalize quoted cs = read
  obtain ⟨body, closed, n⟩ := read
  cases closed with
  | false => simp
  | true =>
    dsimp only
    rw [if_neg (by decide)]
    split <;> simp

/-- A text literal is not closed if there is a line feed before each quote, escaped ones apart. -/
theorem unterminated_iff (cs : List Char) :
    (textLiteral cs).1 = .fault .unterminatedText ↔
      ∀ raw rest, cs = raw ++ '"' :: rest → escapes raw = false → Bare '\n' raw := by
  rw [textLiteral_eq_iff]
  obtain ⟨raw, hraw, hcloses⟩ := exists_escaped cs
  have hfront := hraw.escapes_eq_false
  have hquote := hraw.not_bare (.inl rfl)
  have htext := (List.take_append_drop (quoted cs).2.2 cs).symm
  generalize (quoted cs).2.1 = closed, cs.take (quoted cs).2.2 = word,
    cs.drop (quoted cs).2.2 = rest at hcloses htext ⊢
  subst htext
  cases hcloses with
  | quote =>
    refine iff_of_false (by decide) fun hall => ?_
    exact hraw.not_bare (.inr rfl) (hall raw rest (by simp) hfront)
  | line hrest =>
    refine iff_of_true rfl fun before after heq hbefore => ?_
    obtain ⟨more, rfl, hrest'⟩ := exists_behind heq hquote hbefore
    subst hrest'
    cases more with
    | nil => exact absurd (hrest '"' rfl) (by decide)
    | cons c more =>
      obtain rfl := hrest c rfl
      exact ⟨raw, more, rfl, hfront⟩
  | escape =>
    refine iff_of_true rfl fun before after heq hbefore => ?_
    rw [List.append_assoc] at heq
    obtain ⟨more, -, hslash⟩ := exists_behind heq hquote hbefore
    cases more with
    | nil => cases hslash
    | cons c more => simp at hslash

/-- How a text literal is written: its body, with all escapes complete, between two quotes. -/
theorem Spells.exists_escaped {lexeme text rest : List Char}
    (h : Spells .pastaLiteral lexeme text rest) :
    ∃ raw body, text = '"' :: raw ++ ['"'] ∧ Escaped raw body := by
  cases h with
  | word hkind _ _ => exact absurd hkind (by decide)
  | number hkind _ _ => exact absurd hkind (by decide)
  | text hraw _ _ => exact ⟨_, _, rfl, hraw⟩
  | mark hkind _ _ => exact absurd hkind (by decide)

/-- The segment that spells a token. -/
theorem exists_of_mem_tokens {source : String} {t : Token}
    (h : t ∈ (Scan.ofSource source).tokens) :
    ∃ before text after, split source.toList =
      before ++ ⟨.token t.kind t.lexeme, text⟩ :: after := by
  obtain ⟨⟨p, content, text⟩, hs, htoken⟩ := List.mem_filterMap.1 h
  obtain ⟨before, after, hsplit⟩ := List.append_of_mem (mem_of_mem_locate hs)
  cases content with
  | token kind lexeme =>
    obtain rfl := Option.some.inj htoken
    exact ⟨before, text, after, hsplit⟩
  | blank => cases htoken
  | comment => cases htoken
  | fault fault => cases htoken

/-! ### The end of a number -/

/-- What is wrong with a malformed number. -/
def Fault.isNumeric : Fault → Bool
  | .pinchTooLong | .pinchSuffix _ | .missingFraction | .skimTooLong | .secondPoint
  | .skimSuffix _ => true
  | _ => false

/-- Behind some faults of a number the rest of its word is read on its own. -/
def Fault.leavesRest : Fault → Bool
  | .pinchTooLong | .missingFraction | .skimTooLong => true
  | _ => false

/-- What is read is the token of a number, or one error about a number. -/
def Content.IsNumber : Content → Prop
  | .token kind _ => kind = .pinchLiteral ∨ kind = .skimLiteral
  | .fault what => what.isNumeric = true
  | _ => False

theorem isNumber_fraction (lexeme cs : List Char) : (fraction lexeme cs).1.IsNumber := by
  unfold fraction
  dsimp only
  split
  · rfl
  split
  · rfl
  split
  · exact .inr rfl
  split
  · rfl
  split
  · rfl
  · exact .inr rfl

theorem isNumber_number (sign cs : List Char) : (number sign cs).1.IsNumber := by
  unfold number
  dsimp only
  split
  · rfl
  split
  · exact .inl rfl
  split
  · exact isNumber_fraction _ _
  split
  · rfl
  · exact .inl rfl

/-- A text begins with a digit. -/
def StartsNumber (text : List Char) : Prop := ∃ c ∈ text.head?, c.isDigit = true

theorem isWordChar_of_isDigit {c : Char} (h : c.isDigit = true) : isWordChar c = true := by
  simp [isWordChar, isNameChar, Char.isAlphanum, h]

theorem forall_isWordChar {digits : List Char} (h : ∀ c ∈ digits, c.isDigit = true) :
    ∀ c ∈ digits, isWordChar c = true :=
  fun c hc => isWordChar_of_isDigit (h c hc)

theorem startsNumber_append {digits : List Char} (h : IsDigits digits) (rest : List Char) :
    StartsNumber (digits ++ rest) := by
  obtain ⟨c, cs, rfl, hc⟩ := IsDigits.exists_cons h
  exact ⟨c, rfl, hc⟩

/-- The sign of a number is told apart from its digits. -/
theorem eq_of_spellSign_append {sign sign' text text' : List Char} (hsign : Number.IsSign sign)
    (hsign' : Number.IsSign sign') (htext : StartsNumber text) (htext' : StartsNumber text')
    (h : spellSign sign ++ text = spellSign sign' ++ text') : text = text' := by
  obtain ⟨c, hc, hdigit⟩ := htext
  obtain ⟨c', hc', hdigit'⟩ := htext'
  rcases hsign with rfl | rfl <;> rcases hsign' with rfl | rfl
  · exact h
  · obtain rfl : text = '~' :: text' := h
    obtain rfl := Option.some.inj hc
    cases hdigit
  · obtain rfl : '~' :: text = text' := h
    obtain rfl := Option.some.inj hc'
    cases hdigit'
  · exact (List.cons.inj h).2

/-- A number is spelled with its sign and a word. -/
theorem exists_word {kind : Token.Kind} {lexeme : List Char}
    (hkind : kind = .pinchLiteral ∨ kind = .skimLiteral) (h : kind.WellFormed lexeme) :
    ∃ sign word, Number.IsSign sign ∧ StartsNumber word ∧ (∀ c ∈ word, isWordChar c = true) ∧
      spellSign lexeme = spellSign sign ++ word := by
  cases h with
  | fixed hvaried => exact absurd (by rcases hkind with rfl | rfl <;> decide) hvaried
  | ident => simp at hkind
  | @pinchLiteral sign digits hsign hdigits =>
    refine ⟨sign, digits, hsign, ?_, forall_isWordChar hdigits.digits, ?_⟩
    · simpa using startsNumber_append hdigits []
    · simpa using spellSign_append hsign hdigits []
  | @skimLiteral sign whole fraction hsign hwhole hfraction =>
    refine ⟨sign, whole ++ '.' :: fraction, hsign, startsNumber_append hwhole _, ?_, ?_⟩
    · rw [List.forall_mem_append, List.forall_mem_cons]
      exact ⟨forall_isWordChar hwhole.digits, rfl, forall_isWordChar hfraction.digits⟩
    · simpa using spellSign_append hsign hwhole ('.' :: fraction)
  | pastaLiteral => simp at hkind

theorem MalformedNumber.startsNumber {fault : Fault} {word rest : List Char}
    (h : MalformedNumber fault word rest) : StartsNumber word := by
  cases h with
  | pinchTooLong hdigits hlength _ =>
    cases word with
    | nil => simp at hlength
    | cons c cs => exact ⟨c, rfl, hdigits c List.mem_cons_self⟩
  | pinchSuffix hdigits _ _ _ => exact startsNumber_append hdigits _
  | missingFraction hwhole _ => exact startsNumber_append hwhole _
  | skimTooLong hwhole _ _ _ => exact startsNumber_append hwhole _
  | secondPoint hwhole _ _ _ => exact startsNumber_append hwhole _
  | skimSuffix hwhole _ _ _ _ => exact startsNumber_append hwhole _

/-- What is read of a malformed number are characters of its word. -/
theorem MalformedNumber.forall_isWordChar {fault : Fault} {word rest : List Char}
    (h : MalformedNumber fault word rest) : ∀ c ∈ word, isWordChar c = true := by
  have hpoint : isWordChar '.' = true := rfl
  cases h with
  | pinchTooLong hdigits _ _ => exact Segment.forall_isWordChar hdigits
  | pinchSuffix hdigits hc hcs _ =>
    simpa [or_imp, forall_and] using
      ⟨Segment.forall_isWordChar hdigits.digits, isWordChar_of_isLetter hc, hcs⟩
  | missingFraction hwhole _ =>
    simpa [or_imp, forall_and] using ⟨Segment.forall_isWordChar hwhole.digits, hpoint⟩
  | skimTooLong hwhole hdigits _ _ =>
    simpa [or_imp, forall_and] using
      ⟨Segment.forall_isWordChar hwhole.digits, hpoint, Segment.forall_isWordChar hdigits⟩
  | secondPoint hwhole hdigits hcs _ =>
    simpa [or_imp, forall_and] using ⟨Segment.forall_isWordChar hwhole.digits, hpoint,
      Segment.forall_isWordChar hdigits.digits, hpoint, hcs⟩
  | skimSuffix hwhole hdigits hc hcs _ =>
    simpa [or_imp, forall_and] using ⟨Segment.forall_isWordChar hwhole.digits, hpoint,
      Segment.forall_isWordChar hdigits.digits, isWordChar_of_isLetter hc, hcs⟩

/-- A malformed number ends with its word, unless the fault leaves the rest. -/
theorem MalformedNumber.stops {fault : Fault} {word rest : List Char}
    (h : MalformedNumber fault word rest) (hfault : fault.leavesRest = false) :
    Stops isWordChar rest := by
  cases h with
  | pinchSuffix _ _ _ hrest => exact hrest
  | secondPoint _ _ _ hrest => exact hrest
  | skimSuffix _ _ _ _ hrest => exact hrest
  | pinchTooLong => cases hfault
  | missingFraction => cases hfault
  | skimTooLong => cases hfault

theorem Malformed.number_of_isNumeric {fault : Fault} {text rest : List Char}
    (h : Malformed fault text rest) (hfault : fault.isNumeric = true) :
    ∃ sign word, Number.IsSign sign ∧ text = spellSign sign ++ word ∧
      MalformedNumber fault word rest := by
  cases h with
  | number hsign hword => exact ⟨_, _, hsign, rfl, hword⟩
  | _ => cases hfault

theorem Spells.number_of_kind {kind : Token.Kind} {lexeme text rest : List Char}
    (h : Spells kind lexeme text rest) (hkind : kind = .pinchLiteral ∨ kind = .skimLiteral) :
    kind.WellFormed lexeme ∧ text = spellSign lexeme ∧ Stops isWordChar rest := by
  cases h with
  | word hword => exact absurd hword (by rcases hkind with rfl | rfl <;> decide)
  | number _ hlexeme hrest => exact ⟨hlexeme, rfl, hrest⟩
  | text => simp at hkind
  | mark hmark => exact absurd hmark (by rcases hkind with rfl | rfl <;> decide)

/-- What is read of a number are characters of its word, and it is all of them, unless the fault
leaves the rest. -/
theorem holds_number {sign word rest : List Char} {content : Content} (hsign : Number.IsSign sign)
    (hword : StartsNumber word) (hcontent : content.IsNumber)
    (h : content.Holds (spellSign sign ++ word) rest) :
    (∀ c ∈ word, isWordChar c = true) ∧ (Stops isWordChar rest ∨ ∃ fault,
      content = .fault fault ∧ fault.leavesRest = true ∧ MalformedNumber fault word rest) := by
  cases content with
  | blank => cases hcontent
  | comment => cases hcontent
  | token kind lexeme =>
    obtain ⟨hlexeme, htext, hrest⟩ := Spells.number_of_kind h hcontent
    obtain ⟨sign', word', hsign', hword', hall, heq⟩ := exists_word hcontent hlexeme
    obtain rfl := eq_of_spellSign_append hsign hsign' hword hword' (htext.trans heq)
    exact ⟨hall, .inl hrest⟩
  | fault what =>
    obtain ⟨sign', word', hsign', heq, hmalformed⟩ := Malformed.number_of_isNumeric h hcontent
    obtain rfl := eq_of_spellSign_append hsign hsign' hword hmalformed.startsNumber heq
    refine ⟨hmalformed.forall_isWordChar, ?_⟩
    cases hfault : what.leavesRest with
    | false => exact .inl (hmalformed.stops hfault)
    | true => exact .inr ⟨what, rfl, hfault, hmalformed⟩

/-- A number whose rest is left is read no further than its fault. -/
theorem number_of_leavesRest {fault : Fault} {word rest : List Char}
    (h : MalformedNumber fault word rest) (hfault : fault.leavesRest = true) (sign : List Char) :
    number sign (word ++ rest) = (.fault fault, word.length) := by
  have hstops (rest : List Char) : Stops Char.isDigit ('.' :: rest) := by
    intro c hc
    obtain rfl := Option.some.inj hc
    rfl
  cases h with
  | pinchTooLong hdigits hlength hrest =>
    unfold number
    simp only [run_append hdigits hrest, if_pos hlength]
  | @missingFraction whole rest hwhole hrest =>
    have hrun : run Char.isDigit rest = 0 := @run_append _ [] _ (by simp) hrest
    unfold number fraction
    simp [run_append hwhole.digits (hstops rest), Nat.not_lt.2 hwhole.length_le, hrun]
  | @skimTooLong whole digits rest hwhole hdigits hlength hrest =>
    have hpos : digits ≠ [] := by
      rintro rfl
      simp at hlength
    unfold number fraction
    simp [run_append hwhole.digits (hstops _), run_append hdigits hrest,
      Nat.not_lt.2 hwhole.length_le, hlength, hpos]
    omega
  | pinchSuffix => cases hfault
  | secondPoint => cases hfault
  | skimSuffix => cases hfault

/-- The segment at the place of a number. -/
theorem eq_number {text : List Char} {before after : List Segment} {s : Segment}
    (h : split text = before ++ s :: after) {sign : List Char} (hsign : Number.IsSign sign)
    {cs : List Char} (hcs : StartsNumber cs)
    (hplace : (s :: after).flatMap Segment.text = spellSign sign ++ cs) :
    s = ⟨(number sign cs).1, spellSign sign ++ cs.take (number sign cs).2⟩ ∧
      after = split (cs.drop (number sign cs).2) := by
  obtain ⟨d, ds, hplace', hs, hafter⟩ := exists_reach h
  have hread := hplace'.symm.trans hplace
  obtain ⟨c, hc, hdigit⟩ := hcs
  obtain ⟨cs, rfl⟩ := List.head?_eq_some_iff.1 hc
  rcases hsign with rfl | rfl
  · obtain ⟨rfl, rfl⟩ := List.cons.inj hread
    rw [reach_of_isDigit hdigit] at hs hafter
    obtain ⟨n, hn⟩ := Nat.exists_eq_succ_of_ne_zero (number_pos [] hdigit ds).ne'
    rw [hn] at hs hafter ⊢
    exact ⟨hs, hafter⟩
  · have htilde : d :: ds = '~' :: c :: cs := hread
    obtain ⟨rfl, rfl⟩ := List.cons.inj htilde
    have hreach : reach '~' (c :: cs) = number ['-'] (c :: cs) := by
      simp [reach, isBlank, hdigit]
    rw [hreach] at hs hafter
    exact ⟨hs, hafter⟩

theorem Stops.append {p : Char → Bool} {tail rest : List Char} (htail : Stops p tail)
    (hrest : Stops p rest) : Stops p (tail ++ rest) := by
  cases tail with
  | nil => exact hrest
  | cons c tail => exact htail

/-- Characters of a class at the beginning of a text are part of the run that it begins with. -/
theorem exists_tail {p : Char → Bool} {read word rest rest' : List Char}
    (h : word ++ rest = read ++ rest') (hread : ∀ c ∈ read, p c = true) (hrest : Stops p rest) :
    ∃ tail, word = read ++ tail ∧ rest' = tail ++ rest := by
  rcases List.append_eq_append_iff.1 h with ⟨more, rfl, rfl⟩ | ⟨tail, rfl, rfl⟩
  · cases more with
    | nil => exact ⟨[], by simp, rfl⟩
    | cons c more =>
      have hc := hrest c rfl
      rw [hread c (by simp)] at hc
      cases hc
  · exact ⟨tail, rfl, rfl⟩

/-- Where the rest of a word is left, nothing but its first character matters. -/
theorem MalformedNumber.of_leavesRest {fault : Fault} {word rest : List Char}
    (h : MalformedNumber fault word rest) (hfault : fault.leavesRest = true) :
    Stops Char.isDigit rest ∧
      ∀ rest', Stops Char.isDigit rest' → MalformedNumber fault word rest' := by
  cases h with
  | pinchTooLong hdigits hlength hrest => exact ⟨hrest, fun _ => .pinchTooLong hdigits hlength⟩
  | missingFraction hwhole hrest => exact ⟨hrest, fun _ => .missingFraction hwhole⟩
  | skimTooLong hwhole hdigits hlength hrest =>
    exact ⟨hrest, fun _ => .skimTooLong hwhole hdigits hlength⟩
  | pinchSuffix => cases hfault
  | secondPoint => cases hfault
  | skimSuffix => cases hfault

/-- A word that begins with a digit is read from its beginning, to its end or up to a fault that
leaves the rest of it. -/
theorem number_word {sign word rest : List Char} (hsign : Number.IsSign sign)
    (hdigit : StartsNumber word) (hword : ∀ c ∈ word, isWordChar c = true)
    (hrest : Stops isWordChar rest) : ∃ read tail, word = read ++ tail ∧
      (word ++ rest).take (number sign (word ++ rest)).2 = read ∧
      (word ++ rest).drop (number sign (word ++ rest)).2 = tail ++ rest ∧
      (tail = [] ∨ ∃ fault : Fault, fault.leavesRest = true ∧ MalformedNumber fault read tail) := by
  have hnumber := isNumber_number sign (word ++ rest)
  obtain ⟨c, hc, hdigit⟩ := hdigit
  obtain ⟨cs, rfl⟩ := List.head?_eq_some_iff.1 hc
  have hholds := covers_number hsign hdigit (cs ++ rest)
  obtain ⟨n, hn⟩ := Nat.exists_eq_succ_of_ne_zero (number_pos sign hdigit (cs ++ rest)).ne'
  rw [← List.cons_append] at hholds hn
  have hstarts : StartsNumber ((c :: cs ++ rest).take (number sign (c :: cs ++ rest)).2) := by
    rw [hn]
    exact ⟨c, rfl, hdigit⟩
  obtain ⟨hread, hends⟩ := holds_number hsign hstarts hnumber hholds
  have hcut := (List.take_append_drop (number sign (c :: cs ++ rest)).2 (c :: cs ++ rest)).symm
  obtain ⟨tail, heq, hdrop⟩ := exists_tail hcut hread hrest
  refine ⟨_, tail, heq, rfl, hdrop, ?_⟩
  rw [hdrop] at hends
  rcases hends with hstops | ⟨fault, -, hfault, hmalformed⟩
  · -- a tail would begin with a character of the word
    cases tail with
    | nil => exact .inl rfl
    | cons d tail =>
      have hd := hstops d rfl
      rw [hword d (by rw [heq]; simp)] at hd
      cases hd
  · obtain ⟨hstops, hany⟩ := hmalformed.of_leavesRest hfault
    cases tail with
    | nil => exact .inl rfl
    | cons d tail => exact .inr ⟨fault, hfault, hany _ hstops⟩

end Segment

namespace Scan

open Token.Kind (spellSign)

open Segment (escapes Bare Stops MalformedNumber StartsNumber)

/-- **A text literal ends with its line, escaped line feeds apart.**  Every line feed between the
quotes of a text literal is escaped, and so is every quote; without a backslash right before a line
feed there is none.  A line feed that is not escaped, before the closing quote, makes the literal an
unterminated one; conversely, an unterminated literal has such a line feed before each quote that
would close it. -/
theorem text_literals_end_with_line (source : String) :
    (∀ t ∈ (ofSource source).tokens, t.kind = .pastaLiteral → ∃ before raw after,
      Segment.split source.toList =
          before ++ ⟨.token .pastaLiteral t.lexeme, '"' :: raw ++ ['"']⟩ :: after ∧
        escapes raw = false ∧ ¬ Bare '"' raw ∧ ¬ Bare '\n' raw ∧
        (¬ ['\\', '\n'] <:+: raw → '\n' ∉ raw)) ∧
    ∀ before s after behind, Segment.split source.toList = before ++ s :: after →
      (s :: after).flatMap Segment.text = '"' :: behind →
      (∀ raw rest, behind = raw ++ '\n' :: rest → escapes raw = false → ¬ Bare '"' raw →
        s.content = .fault .unterminatedText) ∧
      (s.content = .fault .unterminatedText →
        ∀ raw rest, behind = raw ++ '"' :: rest → escapes raw = false → Bare '\n' raw) := by
  constructor
  · rintro ⟨lexeme, kind, line⟩ ht rfl
    obtain ⟨before, text, after, hsplit⟩ := Segment.exists_of_mem_tokens ht
    obtain ⟨c, cs, -, hs, -⟩ := Segment.exists_reach hsplit
    have hholds := Segment.holds_reach c cs
    obtain ⟨hcontent, rfl⟩ := Segment.mk.inj hs
    rw [Segment.Covers, ← hcontent] at hholds
    obtain ⟨raw, body, htext, hraw⟩ := Segment.Spells.exists_escaped hholds
    rw [List.singleton_append] at htext
    rw [htext] at hsplit
    have hfeed := hraw.not_bare (.inr rfl)
    refine ⟨before, raw, after, hsplit, hraw.escapes_eq_false, hraw.not_bare (.inl rfl), hfeed, ?_⟩
    rintro hnone hmem
    obtain ⟨front, back, rfl⟩ := List.append_of_mem hmem
    have hfront : escapes front = true := by
      by_contra hfront
      exact hfeed ⟨front, back, rfl, Bool.eq_false_iff.2 hfront⟩
    obtain ⟨front, rfl⟩ := Segment.exists_of_escapes hfront
    exact hnone ⟨front, back, by simp⟩
  · intro before s after behind hsplit hplace
    obtain ⟨c, cs, hplace', hs, -⟩ := Segment.exists_reach hsplit
    obtain ⟨rfl, rfl⟩ := List.cons.inj (hplace'.symm.trans hplace)
    have hcontent : s.content = (Segment.textLiteral cs).1 := by
      rw [hs]
      rfl
    rw [hcontent, Segment.unterminated_iff]
    refine ⟨fun raw rest heq hraw hquote raw' rest' heq' hraw' => ?_, id⟩
    obtain ⟨more, rfl, hmore⟩ := Segment.exists_behind (heq.symm.trans heq') hquote hraw'
    cases more with
    | nil => cases hmore
    | cons c more =>
      obtain ⟨rfl, -⟩ := List.cons.inj hmore
      exact ⟨raw, more, rfl, hraw⟩

/-- A backslash keeps a text literal open at the end of its line, and the line feed becomes part of
the text. -/
theorem escaped_feed_kept : ∃ t ∈ (ofSource "\"\\\n\"").tokens, t.kind = .pastaLiteral ∧
    Segment.split "\"\\\n\"".toList =
      [⟨.token .pastaLiteral t.lexeme, '"' :: ['\\', '\n'] ++ ['"']⟩] ∧
    (ofSource "\"\\\n\"").errors = [] := by
  have hsplit : Segment.split "\"\\\n\"".toList =
      [⟨.token .pastaLiteral "\"\n\"", ['"', '\\', '\n', '"']⟩] := by
    decide +kernel
  rw [ofSource, hsplit]
  exact ⟨_, List.mem_cons_self, rfl, rfl, rfl⟩

/-- **A word that begins with a digit is read once**, unless it is one of those whose rest is left.
At the place of such a word, with a tilde before it or without, stands the token of a number or one
error about a number, and it takes up the word from its beginning to its end.  The others are the
words that go on behind too many digits on one side of the point, or behind a point without a digit:
there the error takes up no more than these digits and the point, and what follows is read on its
own. -/
theorem numeric_word_read_once (source : String) {before after : List Segment} {s : Segment}
    (hs : Segment.split source.toList = before ++ s :: after) {tilde word rest : List Char}
    (htilde : tilde = [] ∨ tilde = ['~'])
    (hplace : (s :: after).flatMap Segment.text = tilde ++ (word ++ rest))
    (hdigit : StartsNumber word)
    (hword : ∀ c ∈ word, Segment.isWordChar c = true) (hrest : Stops Segment.isWordChar rest) :
    s.content.IsNumber ∧
      ((∀ fault read tail, word = read ++ tail → tail ≠ [] → fault.leavesRest = true →
          ¬ MalformedNumber fault read tail) →
        s.text = tilde ++ word ∧ after = Segment.split rest) ∧
      (∀ fault read tail, word = read ++ tail → fault.leavesRest = true →
          MalformedNumber fault read tail →
        s = ⟨.fault fault, tilde ++ read⟩ ∧ after = Segment.split (tail ++ rest)) := by
  obtain ⟨sign, hsign, rfl⟩ : ∃ sign, Number.IsSign sign ∧ spellSign sign = tilde := by
    rcases htilde with rfl | rfl
    · exact ⟨[], .inl rfl, rfl⟩
    · exact ⟨['-'], .inr rfl, rfl⟩
  have hstarts : StartsNumber (word ++ rest) := by
    obtain ⟨c, hc, hdigit⟩ := hdigit
    exact ⟨c, by simp [List.head?_append, Option.mem_def.1 hc], hdigit⟩
  obtain ⟨rfl, rfl⟩ := Segment.eq_number hs hsign hstarts hplace
  refine ⟨Segment.isNumber_number _ _, fun hleft => ?_, ?_⟩
  · obtain ⟨read, tail, heq, htake, hdrop, htail⟩ := Segment.number_word hsign hdigit hword hrest
    have hnone : tail = [] := by
      rcases htail with htail | ⟨fault, hfault, hmalformed⟩
      · exact htail
      · by_contra hne
        exact hleft fault read tail heq hne hfault hmalformed
    subst hnone
    rw [htake, hdrop, heq, List.append_nil]
    exact ⟨rfl, rfl⟩
  · rintro fault read tail rfl hfault hmalformed
    obtain ⟨htail, hany⟩ := hmalformed.of_leavesRest hfault
    have hstops : Stops Char.isDigit rest :=
      hrest.mono fun c hc => Segment.isWordChar_of_isDigit hc
    have hread := Segment.number_of_leavesRest (hany _ (htail.append hstops)) hfault sign
    rw [List.append_assoc, hread, List.take_left, List.drop_left]
    exact ⟨rfl, rfl⟩

/-- A letter spoils a number, and its word is reported once, the tilde with it. -/
theorem numeric_word_read_once_spoiled :
    Segment.split "x ~7up;".toList =
      [⟨.token .ident "x", ['x']⟩, ⟨.blank, [' ']⟩] ++
        ⟨.fault (.pinchSuffix 'u'), ['~', '7', 'u', 'p']⟩ :: [⟨.token .semicolon ";", [';']⟩] ∧
    (⟨.fault (.pinchSuffix 'u'), ['~', '7', 'u', 'p']⟩ : Segment).text =
      ['~'] ++ ['7', 'u', 'p'] ∧
    [⟨.token .semicolon ";", [';']⟩] = Segment.split [';'] := by
  have hs : Segment.split "x ~7up;".toList =
      [⟨.token .ident "x", ['x']⟩, ⟨.blank, [' ']⟩] ++
        ⟨.fault (.pinchSuffix 'u'), ['~', '7', 'u', 'p']⟩ ::
          [⟨.token .semicolon ";", [';']⟩] := by
    decide +kernel
  have hstarts : StartsNumber ['7', 'u', 'p'] := ⟨'7', rfl, rfl⟩
  have hrest : Stops Segment.isWordChar [';'] := by
    rintro c ⟨⟩
    rfl
  have hword : ∀ c ∈ ['7', 'u', 'p'], Segment.isWordChar c = true := List.all_eq_true.1 rfl
  have hread := (numeric_word_read_once "x ~7up;" hs (.inr rfl) rfl hstarts hword hrest).2.1
  refine ⟨hs, hread ?_⟩
  -- the word is short and has no point
  rintro fault read tail heq - hfault hmalformed
  have hlength := congrArg List.length heq
  have hpoint : '.' ∉ read ++ tail := by
    rw [← heq]
    decide
  cases hmalformed with
  | pinchTooLong _ hlong _ =>
    simp [Segment.maxDigits] at hlength hlong
    omega
  | missingFraction => simp at hpoint
  | skimTooLong => simp at hpoint
  | pinchSuffix => cases hfault
  | secondPoint => cases hfault
  | skimSuffix => cases hfault

/-- Behind too many digits the rest of a word is read on its own: one word gives two errors and a
token. -/
theorem numeric_rest_read_again :
    (∀ c ∈ "1234567890.5".toList, Segment.isWordChar c = true) ∧
      ofSource "1234567890.5" = ⟨[⟨"5", .pinchLiteral, 1⟩],
        [⟨.pinchTooLong, ⟨1, 1⟩⟩, ⟨.invalidCharacter '.', ⟨1, 11⟩⟩]⟩ := by
  refine ⟨List.all_eq_true.1 rfl, ?_⟩
  decide +kernel

end Scan

end Bistro
