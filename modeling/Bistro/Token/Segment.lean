import Bistro.Token

/-!
# Cutting a text into segments

A source text is a row of segments: white space, comments, the spellings of tokens, and stretches
that are none of these, each with the fault found in it.  A segment begins at its first character,
which decides what kind of segment it is, and `Segment.reach` tells how many of the characters
behind it belong to it.  Nothing is lost and nothing is read twice, because the rest of the text
begins where the segment ends.

## Main definitions

* `Segment.Fault` — what is wrong with a malformed stretch.
* `Segment.Content`, `Segment` — a stretch of text and what it is.
* `Segment.reach` — the segment that begins with a given character.
* `Segment.split` — the segments of a text.

## Main results

* `Segment.flatMap_text_split` — the segments put together are the text.
-/

namespace Bistro.Segment

/-! ### Limits on words -/

/-- Characters that a name may have. -/
def maxNameLength : Nat := 32

/-- Characters that the body of a text literal may have. -/
def maxTextLength : Nat := 256

/-- Digits that a number may have on either side of its point. -/
def maxDigits : Nat := 9

/-! ### Contents of a segment -/

/-- What is wrong with a malformed stretch of text. -/
inductive Fault
  /-- A character that begins no token. -/
  | invalidCharacter (c : Char)
  /-- A single `&`. -/
  | loneAmpersand
  /-- A single `?`. -/
  | loneQuestionMark
  /-- A `~` without a digit behind it. -/
  | loneTilde
  /-- A text literal whose line or text ends before the closing quote. -/
  | unterminatedText
  /-- A text literal whose body is too long. -/
  | textTooLong
  /-- A comment that is not closed. -/
  | unterminatedComment
  /-- Too many digits before the point. -/
  | pinchTooLong
  /-- A letter right behind an integer. -/
  | pinchSuffix (c : Char)
  /-- A point without a digit behind it. -/
  | missingFraction
  /-- Too many digits behind the point. -/
  | skimTooLong
  /-- A second point. -/
  | secondPoint
  /-- A letter right behind a fractional number. -/
  | skimSuffix (c : Char)
  /-- A name that is too long. -/
  | nameTooLong
  deriving DecidableEq, Repr, Inhabited

/-- The wording of a fault. -/
def Fault.message : Fault → String
  | invalidCharacter c => "Invalid character '" ++ String.singleton c ++ "'"
  | loneAmpersand => "Invalid character '&', expected '&&'"
  | loneQuestionMark => "Invalid character '?', expected '??'"
  | loneTilde => "Expected digit after '~'"
  | unterminatedText => "Unterminated pastaliteral"
  | textTooLong => "Pastaliteral exceeds " ++ maxTextLength.repr ++ " characters"
  | unterminatedComment => "Unterminated block comment"
  | pinchTooLong => "Pinchliteral exceeds " ++ maxDigits.repr ++ " digits"
  | pinchSuffix c => "Invalid suffix '" ++ String.singleton c ++ "' on pinchliteral"
  | missingFraction => "Expected digit after '.'"
  | skimTooLong => "Skimliteral exceeds " ++ maxDigits.repr ++ " digits"
  | secondPoint => "Expected single '.' in skimliteral"
  | skimSuffix c => "Invalid suffix '" ++ String.singleton c ++ "' on skimliteral"
  | nameTooLong => "Identifier exceeds " ++ maxNameLength.repr ++ " characters"

/-- What a segment is. -/
inductive Content
  | blank
  | comment
  /-- The spelling of a token. -/
  | token (kind : Token.Kind) (lexeme : String)
  /-- A malformed stretch. -/
  | fault (fault : Fault)
  deriving DecidableEq, Repr, Inhabited

end Bistro.Segment

namespace Bistro

/-- A stretch of text and what it is. -/
structure Segment where
  /-- What the stretch is. -/
  content : Segment.Content
  /-- Its characters. -/
  text : List Char
  deriving DecidableEq, Repr, Inhabited

namespace Segment

/-! ### Classes of characters -/

/-- White space: space, tab and the two characters that end lines. -/
def isBlank (c : Char) : Bool := c = ' ' || c = '\t' || c = '\r' || c = '\n'

/-- Letters and the low line: what may not follow a number directly. -/
def isLetter (c : Char) : Bool := c.isAlpha || c = '_'

/-- Characters of a name behind its first. -/
def isNameChar (c : Char) : Bool := c.isAlphanum || c = '_'

/-- Characters that are passed over with a malformed number. -/
def isWordChar (c : Char) : Bool := isNameChar c || c = '.'

/-- How many characters of a class a text begins with. -/
def run (p : Char → Bool) (cs : List Char) : Nat := (cs.takeWhile p).length

/-! ### Comments and text literals -/

/-- How many characters a block comment has behind its opening, up to and with its closing. -/
def commentEnd : List Char → Option Nat
  | [] => none
  | '-' :: '/' :: _ => some 2
  | _ :: rest => (commentEnd rest).map (· + 1)

/-- The character that a backslash before `c` stands for. -/
def unescape : Char → Char
  | 'n' => '\n'
  | 't' => '\t'
  | c => c

/-- The body of a text literal behind its opening quote: its characters with escapes resolved,
whether the literal is closed, and how many characters were read, the closing quote with them. -/
def quoted : List Char → List Char × Bool × Nat
  | [] => ([], false, 0)
  | '"' :: _ => ([], true, 1)
  -- a literal ends with its line, and the line feed is not part of it
  | '\n' :: _ => ([], false, 0)
  -- there is nothing left to be escaped
  | ['\\'] => ([], false, 1)
  | '\\' :: c :: rest =>
    let (body, closed, n) := quoted rest
    (unescape c :: body, closed, n + 2)
  | c :: rest =>
    let (body, closed, n) := quoted rest
    (c :: body, closed, n + 1)

/-- A text literal behind its opening quote. -/
def textLiteral (cs : List Char) : Content × Nat :=
  let (body, closed, n) := quoted cs
  if !closed then (.fault .unterminatedText, n)
  else if maxTextLength < body.length then (.fault .textTooLong, n)
  else (.token .pastaLiteral (String.ofList ('"' :: body ++ ['"'])), n)

/-! ### Numbers and names -/

/-- A number whose integer part and point have been read; `lexeme` is what was read. -/
def fraction (lexeme : List Char) (cs : List Char) : Content × Nat :=
  let n := run Char.isDigit cs
  let rest := cs.drop n
  let skim : Content := .token .skimLiteral (String.ofList (lexeme ++ cs.take n))
  if n = 0 then (.fault .missingFraction, n)
  else if maxDigits < n then (.fault .skimTooLong, n)
  else match rest with
    | [] => (skim, n)
    | c :: _ =>
      if c = '.' then (.fault .secondPoint, n + run isWordChar rest)
      else if isLetter c then (.fault (.skimSuffix c), n + run isWordChar rest)
      else (skim, n)

/-- A number that begins with the first digit of `cs`; `sign` is the sign of its lexeme. -/
def number (sign : List Char) (cs : List Char) : Content × Nat :=
  let n := run Char.isDigit cs
  let rest := cs.drop n
  let digits := sign ++ cs.take n
  let pinch : Content := .token .pinchLiteral (String.ofList digits)
  if maxDigits < n then (.fault .pinchTooLong, n)
  else match rest with
    | [] => (pinch, n)
    | c :: behind =>
      if c = '.' then
        let (content, m) := fraction (digits ++ ['.']) behind
        (content, n + 1 + m)
      else if isLetter c then (.fault (.pinchSuffix c), n + run isWordChar rest)
      else (pinch, n)

/-- A name or a keyword with the first character `c`. -/
def name (c : Char) (cs : List Char) : Content × Nat :=
  let n := run isNameChar cs
  let word := c :: cs.take n
  match Token.Kind.keyword? (String.ofList word) with
  | some kind => (.token kind (String.ofList word), n)
  | none =>
    if maxNameLength < word.length then (.fault .nameTooLong, n)
    else (.token .ident (String.ofList word), n)

/-! ### Operators and punctuation -/

/-- The operator that two characters form. -/
def doubleMark? : Char → Char → Option Token.Kind
  | '+', '+' => some .increment
  | '+', '=' => some .addAssign
  | '-', '-' => some .decrement
  | '-', '=' => some .subAssign
  | '*', '=' => some .mulAssign
  | '/', '=' => some .divAssign
  | '%', '=' => some .modAssign
  | '=', '=' => some .equal
  | '!', '=' => some .notEqual
  | '!', '!' => some .bangBang
  | '<', '=' => some .lessEqual
  | '>', '=' => some .greaterEqual
  | '&', '&' => some .both
  | '?', '?' => some .either
  | _, _ => none

/-- The operator or punctuation mark that one character is, or what is wrong with it. -/
def singleMark : Char → Except Fault Token.Kind
  | '+' => .ok .plus
  | '-' => .ok .minus
  | '*' => .ok .star
  | '/' => .ok .slash
  | '%' => .ok .percent
  | '=' => .ok .assign
  | '!' => .ok .bang
  | '<' => .ok .less
  | '>' => .ok .greater
  | '(' => .ok .leftParen
  | ')' => .ok .rightParen
  | '[' => .ok .leftBracket
  | ']' => .ok .rightBracket
  | '\x7b' => .ok .leftBrace
  | '\x7d' => .ok .rightBrace
  | ',' => .ok .comma
  | ';' => .ok .semicolon
  | ':' => .ok .colon
  | '&' => .error .loneAmpersand
  | '?' => .error .loneQuestionMark
  | c => .error (.invalidCharacter c)

/-- An operator or a punctuation mark: two characters where two form one, else one. -/
def mark (c : Char) (cs : List Char) : Content × Nat :=
  match cs.head?.bind (doubleMark? c) with
  | some kind => (.token kind kind.spelling, 1)
  | none =>
    match singleMark c with
    | .ok kind => (.token kind kind.spelling, 0)
    | .error fault => (.fault fault, 0)

/-! ### The segments of a text -/

/-- The segment that begins with `c`, and how many of the characters `cs` behind it belong to it. -/
def reach (c : Char) (cs : List Char) : Content × Nat :=
  if isBlank c then (.blank, run isBlank cs)
  else if c = '/' ∧ cs.head? = some '/' then (.comment, run (· ≠ '\n') cs)
  else if c = '/' ∧ cs.head? = some '-' then
    match commentEnd cs.tail with
    | some n => (.comment, n + 1)
    | none => (.fault .unterminatedComment, cs.length)
  else if c = '"' then textLiteral cs
  else if c = '~' then
    -- a tilde is the minus sign of a literal
    if cs.head?.any Char.isDigit then number ['-'] cs else (.fault .loneTilde, 0)
  else if c.isDigit then
    -- `c` is one of the digits, but not one of the characters behind `c`
    let (content, n) := number [] (c :: cs)
    (content, n - 1)
  else if c.isLower then name c cs
  else mark c cs

/-- The segments of a text, in order. -/
def split : List Char → List Segment
  | [] => []
  | c :: cs => ⟨(reach c cs).1, c :: cs.take (reach c cs).2⟩ :: split (cs.drop (reach c cs).2)
termination_by text => text.length
decreasing_by simp only [List.length_drop, List.length_cons]; omega

@[simp] theorem split_nil : split [] = [] := by rw [split]

theorem split_cons (c : Char) (cs : List Char) :
    split (c :: cs) =
      ⟨(reach c cs).1, c :: cs.take (reach c cs).2⟩ :: split (cs.drop (reach c cs).2) := by
  rw [split]

/-- The segments put together are the text. -/
theorem flatMap_text_split (text : List Char) : (split text).flatMap Segment.text = text := by
  induction text using split.induct with
  | case1 => simp
  | case2 c cs ih => simp [split_cons, ih]

end Segment

end Bistro
