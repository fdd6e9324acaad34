import Bistro.Proofs.Number.Order
import Bistro.Token.Scan
import Mathlib.Algebra.Group.Nat.Defs
import Mathlib.Data.List.TakeWhile

/-!
# Literals can be read

The scanner gives a number a sign, at most nine digits before its point and at most nine behind it.
That is little enough for an integer to fit a word, and it is a form in which fractional numbers are
read.  So every literal among the tokens of a source text spells a value, and a fractional one never
that of no number.

## Main definitions

* `Token.Kind.HasForm` — a word has the form of a literal of a kind.
* `Token.Kind.Reads` — a word can be read as a literal of a kind.

## Main results

* `Number.exists_readInteger?`, `Decimal.exists_read?` — what integers and fractional numbers may
  look like.
* `Segment.hasForm_reach` — the token that begins at a character has the form of its kind.
* `Scan.hasForm_tokens`, `Scan.reads_tokens` — **every token of a source text has the form of its
  kind and can be read.**
* `Token.Kind.HasForm.isNaN` — a fractional number of that form is a number.
-/

namespace Bistro

/-! ### Integers -/

namespace Number

theorem digit_le {c : Char} (h : c.isDigit = true) : c.toNat - '0'.toNat ≤ 9 := by
  simp only [Char.isDigit, Bool.and_eq_true, decide_eq_true_eq] at h
  have hle : c.toNat ≤ '9'.toNat := h.2
  have hnine : '9'.toNat = '0'.toNat + 9 := rfl
  omega

theorem foldl_digits_lt {digits : List Char} (h : ∀ c ∈ digits, c.isDigit = true) (value : Nat) :
    digits.foldl (fun value c => 10 * value + (c.toNat - '0'.toNat)) value <
      (value + 1) * 10 ^ digits.length := by
  induction digits generalizing value with
  | nil => simp
  | cons c digits ih =>
    rw [List.forall_mem_cons] at h
    have hdigit := digit_le h.1
    calc digits.foldl _ (10 * value + (c.toNat - '0'.toNat))
      _ < (10 * value + (c.toNat - '0'.toNat) + 1) * 10 ^ digits.length := ih h.2 _
      _ ≤ (value + 1) * 10 * 10 ^ digits.length := Nat.mul_le_mul_right _ (by omega)
      _ = (value + 1) * 10 ^ (c :: digits).length := by
        rw [List.length_cons, Nat.pow_succ', Nat.mul_assoc]

/-- The number that digits spell is below the power of ten of their count. -/
theorem digitsValue_lt {digits : List Char} (h : ∀ c ∈ digits, c.isDigit = true) :
    digitsValue digits < 10 ^ digits.length := by
  simpa [digitsValue] using foldl_digits_lt h 0

theorem readDigits?_eq {digits : List Char} (hne : digits ≠ [])
    (h : ∀ c ∈ digits, c.isDigit = true) : readDigits? digits = some (digitsValue digits) := by
  unfold readDigits?
  rw [if_pos]
  simp [hne, List.all_eq_true.2 h]

/-- What the scanner puts before the digits of a number. -/
def IsSign (sign : List Char) : Prop := sign = [] ∨ sign = ['-']

/-- A row of characters that begins with a digit has no sign. -/
theorem splitSign_of_isDigit {c : Char} (hc : c.isDigit = true) (cs : List Char) :
    splitSign (c :: cs) = (false, c :: cs) := by
  unfold splitSign
  split
  · next heq =>
    obtain ⟨rfl, -⟩ := List.cons.inj heq
    exact absurd hc (by decide)
  · next heq =>
    obtain ⟨rfl, -⟩ := List.cons.inj heq
    exact absurd hc (by decide)
  · rfl

theorem exists_splitSign {sign : List Char} {c : Char} (hsign : IsSign sign)
    (hc : c.isDigit = true) (cs : List Char) :
    ∃ negative, splitSign (sign ++ c :: cs) = (negative, c :: cs) := by
  rcases hsign with rfl | rfl
  · exact ⟨false, splitSign_of_isDigit hc cs⟩
  · exact ⟨true, rfl⟩

theorem fits_of_natAbs_lt {n : Int} (h : n.natAbs < 10 ^ 9) : fits n = true := by
  unfold fits minInteger maxInteger
  rw [Bool.and_eq_true, decide_eq_true_eq, decide_eq_true_eq]
  omega

/-- A sign and a few digits spell an integer. -/
theorem exists_readInteger? {sign digits : List Char} (hsign : IsSign sign) (hne : digits ≠ [])
    (h : ∀ c ∈ digits, c.isDigit = true) (hlength : digits.length ≤ 9) :
    (readInteger? (String.ofList (sign ++ digits))).isSome := by
  -- nine digits are far from the ends of the range
  have hvalue : digitsValue digits < 10 ^ 9 :=
    Nat.lt_of_lt_of_le (digitsValue_lt h) (Nat.pow_le_pow_right (by decide) hlength)
  have hread := readDigits?_eq hne h
  obtain ⟨c, cs, rfl⟩ := List.exists_cons_of_ne_nil hne
  obtain ⟨negative, hsplit⟩ := exists_splitSign hsign (h c List.mem_cons_self) cs
  unfold readInteger?
  rw [String.toList_ofList, hsplit]
  simp only [hread, Option.bind_eq_bind, Option.bind_some, checked]
  rw [if_pos]
  · rfl
  · apply fits_of_natAbs_lt
    split <;> omega

end Number

/-! ### Fractional numbers -/

namespace Decimal

theorem takeWhile_digits {digits : List Char} (h : ∀ c ∈ digits, c.isDigit = true)
    (behind : List Char) :
    (digits ++ '.' :: behind).takeWhile Char.isDigit = digits ∧
      (digits ++ '.' :: behind).dropWhile Char.isDigit = '.' :: behind := by
  rw [List.takeWhile_append_of_pos h, List.dropWhile_append_of_pos h]
  simp [show ('.' : Char).isDigit = false from rfl]

/-- A sign, digits, a point and digits spell a fractional number. -/
theorem exists_read? {sign whole fraction : List Char} (hsign : Number.IsSign sign)
    (hne : whole ≠ []) (hwhole : ∀ c ∈ whole, c.isDigit = true)
    (hfraction : ∀ c ∈ fraction, c.isDigit = true) :
    (read? (String.ofList (sign ++ whole ++ '.' :: fraction))).isSome := by
  have hmagnitude : (readMagnitude? (whole ++ '.' :: fraction)).isSome := by
    unfold readMagnitude?
    obtain ⟨htake, hdrop⟩ := takeWhile_digits hwhole fraction
    have hrest : fraction.dropWhile Char.isDigit = [] := List.dropWhile_eq_nil_iff.2 hfraction
    -- the words for infinity and for no number would be read as well
    dsimp only
    split
    · rfl
    · split
      · rfl
      · simp [htake, hdrop, hrest, hne, readExponent?]
  obtain ⟨c, cs, rfl⟩ := List.exists_cons_of_ne_nil hne
  obtain ⟨negative, hsplit⟩ := Number.exists_splitSign hsign (hwhole c List.mem_cons_self)
    (cs ++ '.' :: fraction)
  unfold read?
  rw [String.toList_ofList, List.append_assoc, List.cons_append, hsplit]
  rw [List.cons_append] at hmagnitude
  simpa using hmagnitude

end Decimal

/-! ### Words -/

/-- A word can be read as a literal of its kind; what is no number always can. -/
def Token.Kind.Reads (lexeme : String) : Token.Kind → Prop
  | .pinchLiteral => (Number.readInteger? lexeme).isSome
  | .skimLiteral => (Decimal.read? lexeme).isSome
  | _ => True

/-- A word has the form of a literal of its kind; what is no number has any form. -/
def Token.Kind.HasForm (lexeme : String) : Token.Kind → Prop
  | .pinchLiteral => ∃ sign digits, Number.IsSign sign ∧ digits ≠ [] ∧
      (∀ c ∈ digits, c.isDigit = true) ∧ digits.length ≤ 9 ∧
      lexeme = String.ofList (sign ++ digits)
  | .skimLiteral => ∃ sign whole fraction, Number.IsSign sign ∧ whole ≠ [] ∧
      (∀ c ∈ whole, c.isDigit = true) ∧ (∀ c ∈ fraction, c.isDigit = true) ∧
      lexeme = String.ofList (sign ++ whole ++ '.' :: fraction)
  | _ => True

theorem Token.Kind.hasForm_of_ne {kind : Token.Kind} (hpinch : kind ≠ .pinchLiteral)
    (hskim : kind ≠ .skimLiteral) (lexeme : String) : kind.HasForm lexeme := by
  cases kind <;> trivial

theorem Token.Kind.HasForm.reads {kind : Token.Kind} {lexeme : String} (h : kind.HasForm lexeme) :
    kind.Reads lexeme := by
  cases kind with
  | pinchLiteral =>
    obtain ⟨sign, digits, hsign, hne, hdigits, hlength, rfl⟩ := h
    exact Number.exists_readInteger? hsign hne hdigits hlength
  | skimLiteral =>
    obtain ⟨sign, whole, fraction, hsign, hne, hwhole, hfraction, rfl⟩ := h
    exact Decimal.exists_read? hsign hne hwhole hfraction
  | _ => trivial

theorem Decimal.toLower_ne_of_isDigit {c : Char} (h : c.isDigit = true) : c.toLower ≠ 'n' := by
  have hle : c.val ≤ '9'.val := of_decide_eq_true (Bool.and_eq_true_iff.1 h).2
  -- a digit is no capital letter
  have hlower : c.toLower = c := by
    unfold Char.toLower
    rw [dif_neg]
    exact fun hupper => absurd (UInt32.le_trans hupper.1 hle) (by decide)
  rintro hn
  rw [hlower] at hn
  subst hn
  cases h

/-- A fractional number of the form is a number. -/
theorem Token.Kind.HasForm.isNaN {lexeme : String} {x : Binary64}
    (h : Token.Kind.skimLiteral.HasForm lexeme) (hx : Decimal.read? lexeme = some x) :
    x.isNaN = false := by
  obtain ⟨sign, whole, fraction, hsign, hne, hwhole, -, rfl⟩ := h
  obtain ⟨c, cs, rfl⟩ := List.exists_cons_of_ne_nil hne
  have hdigit := hwhole c List.mem_cons_self
  obtain ⟨negative, hsplit⟩ := Number.exists_splitSign hsign hdigit (cs ++ '.' :: fraction)
  apply Decimal.isNaN_of_read? hx
  rw [String.toList_ofList, List.append_assoc, List.cons_append, hsplit, List.map_cons]
  -- the first character is a digit
  intro hword
  exact Decimal.toLower_ne_of_isDigit hdigit (List.cons.inj hword).1

namespace Segment

/-- The token that a segment spells, if it does, has the form of its kind. -/
def Content.HasForm : Content → Prop
  | .token kind lexeme => kind.HasForm lexeme
  | _ => True

theorem take_run (p : Char → Bool) (cs : List Char) : cs.take (run p cs) = cs.takeWhile p := by
  rw [run]
  exact (List.prefix_iff_eq_take.1 (List.takeWhile_prefix p)).symm

theorem all_take_run (p : Char → Bool) (cs : List Char) : ∀ c ∈ cs.take (run p cs), p c = true := by
  intro c hc
  rw [take_run] at hc
  exact List.mem_takeWhile_imp hc

theorem length_take_run (p : Char → Bool) (cs : List Char) :
    (cs.take (run p cs)).length = run p cs := by
  rw [take_run, run]

theorem hasForm_fraction {sign whole : List Char} (hsign : Number.IsSign sign) (hne : whole ≠ [])
    (hwhole : ∀ c ∈ whole, c.isDigit = true) (cs : List Char) :
    (fraction (sign ++ whole ++ ['.']) cs).1.HasForm := by
  have hskim : (Content.token .skimLiteral (String.ofList (sign ++ whole ++ ['.'] ++
      cs.take (run Char.isDigit cs)))).HasForm := by
    rw [List.append_assoc _ ['.']]
    exact ⟨sign, whole, _, hsign, hne, hwhole, all_take_run _ _, rfl⟩
  unfold fraction
  dsimp only
  split
  · trivial
  split
  · trivial
  split
  · exact hskim
  · split
    · trivial
    · split
      · trivial
      · exact hskim

theorem hasForm_number {sign : List Char} (hsign : Number.IsSign sign) {c : Char}
    (hc : c.isDigit = true) (cs : List Char) : (number sign (c :: cs)).1.HasForm := by
  have hne : (c :: cs).take (run Char.isDigit (c :: cs)) ≠ [] := by
    rw [take_run, List.takeWhile_cons_of_pos hc]
    exact List.cons_ne_nil _ _
  have hdigits := all_take_run Char.isDigit (c :: cs)
  have hlength := length_take_run Char.isDigit (c :: cs)
  unfold number
  -- from here on only the digits at the beginning matter
  generalize c :: cs = cs at *
  dsimp only
  split
  · trivial
  · next hle =>
    have hpinch : (Content.token .pinchLiteral
        (String.ofList (sign ++ cs.take (run Char.isDigit cs)))).HasForm :=
      ⟨sign, _, hsign, hne, hdigits, hlength.le.trans (Nat.not_lt.1 hle), rfl⟩
    split
    · exact hpinch
    · split
      · exact hasForm_fraction hsign hne hdigits _
      · split
        · trivial
        · exact hpinch

theorem hasForm_name (c : Char) (cs : List Char) : (name c cs).1.HasForm := by
  unfold name
  dsimp only
  split
  · next kind hkind =>
    have hmem : kind ∈ Token.Kind.keywords := List.mem_of_find?_eq_some hkind
    refine Token.Kind.hasForm_of_ne ?_ ?_ _
    · rintro rfl
      exact absurd hmem (by decide)
    · rintro rfl
      exact absurd hmem (by decide)
  · split <;> trivial

theorem hasForm_doubleMark {c d : Char} {kind : Token.Kind} (h : doubleMark? c d = some kind)
    (lexeme : String) : kind.HasForm lexeme := by
  unfold doubleMark? at h
  split at h <;> cases h <;> trivial

theorem hasForm_singleMark {c : Char} {kind : Token.Kind} (h : singleMark c = .ok kind)
    (lexeme : String) : kind.HasForm lexeme := by
  unfold singleMark at h
  split at h <;> cases h <;> trivial

theorem hasForm_mark (c : Char) (cs : List Char) : (mark c cs).1.HasForm := by
  unfold mark
  split
  · next kind hkind =>
    obtain ⟨d, -, hd⟩ := Option.bind_eq_some_iff.1 hkind
    exact hasForm_doubleMark hd _
  · split
    · next hkind => exact hasForm_singleMark hkind _
    · trivial

theorem hasForm_textLiteral (cs : List Char) : (textLiteral cs).1.HasForm := by
  unfold textLiteral
  dsimp only
  split
  · trivial
  · split <;> trivial

/-- The token that begins at a character has the form of its kind. -/
theorem hasForm_reach (c : Char) (cs : List Char) : (reach c cs).1.HasForm := by
  unfold reach
  split
  · trivial
  split
  · trivial
  split
  · split <;> trivial
  split
  · exact hasForm_textLiteral cs
  split
  · split
    · next hdigit =>
      cases cs with
      | nil => cases hdigit
      | cons d cs => exact hasForm_number (.inr rfl) hdigit cs
    · trivial
  split
  · next hdigit => exact hasForm_number (.inl rfl) hdigit cs
  split
  · exact hasForm_name c cs
  · exact hasForm_mark c cs

/-- The tokens of all segments of a text have the form of their kinds. -/
theorem hasForm_split (text : List Char) : ∀ s ∈ split text, s.content.HasForm := by
  induction text using split.induct with
  | case1 => simp
  | case2 c cs ih =>
    rw [split_cons, List.forall_mem_cons]
    exact ⟨hasForm_reach c cs, ih⟩

theorem mem_of_mem_locate {p q : Position} {s : Segment} {segments : List Segment}
    (h : (q, s) ∈ locate p segments) : s ∈ segments := by
  induction segments generalizing p with
  | nil => cases h
  | cons first rest ih =>
    rw [locate] at h
    rcases List.mem_cons.1 h with heq | h
    · obtain ⟨-, rfl⟩ := Prod.mk.inj heq
      exact List.mem_cons_self
    · exact List.mem_cons_of_mem _ (ih h)

theorem hasForm_token? {p : Position} {s : Segment} {t : Token} (h : token? (p, s) = some t)
    (hs : s.content.HasForm) : t.kind.HasForm t.lexeme := by
  obtain ⟨content, text⟩ := s
  cases content with
  | token kind lexeme =>
    obtain rfl := Option.some.inj h
    exact hs
  | blank => cases h
  | comment => cases h
  | fault fault => cases h

end Segment

/-- **Every token of a source text has the form of its kind.** -/
theorem Scan.hasForm_tokens (source : String) :
    ∀ t ∈ (Scan.ofSource source).tokens, t.kind.HasForm t.lexeme := by
  intro t ht
  obtain ⟨⟨p, s⟩, hs, htoken⟩ := List.mem_filterMap.1 ht
  exact Segment.hasForm_token? htoken (Segment.hasForm_split _ s (Segment.mem_of_mem_locate hs))

/-- Every token of a source text can be read. -/
theorem Scan.reads_tokens (source : String) :
    ∀ t ∈ (Scan.ofSource source).tokens, t.kind.Reads t.lexeme :=
  fun t ht => (Scan.hasForm_tokens source t ht).reads

end Bistro
