/-!
# Integers of 64 bits

The integers of the language are those that fit a signed word of 64 bits.  They are kept as `Int`,
and an operation whose exact result does not fit has no result.

## Main definitions

* `Number.fits` — whether an integer fits a word.
* `Number.digitsValue`, `Number.readInteger?` — the integer that a text spells.
* `Number.checkedDiv`, `Number.checkedMod` — division toward zero.
-/

namespace Bistro.Number

/-- The least integer that fits a signed word of 64 bits. -/
def minInteger : Int := -9223372036854775808

/-- The greatest integer that fits a signed word of 64 bits. -/
def maxInteger : Int := 9223372036854775807

/-- Whether an integer fits a signed word of 64 bits. -/
def fits (n : Int) : Bool := minInteger ≤ n && n ≤ maxInteger

/-- An integer, if it fits. -/
def checked (n : Int) : Option Int := if fits n then some n else none

/-- The quotient toward zero, if it fits. -/
def checkedDiv (a b : Int) : Option Int := checked (a.tdiv b)

/-- The remainder of the division toward zero.  There is none where the quotient does not fit. -/
def checkedMod (a b : Int) : Option Int :=
  if a = minInteger ∧ b = -1 then none else some (a.tmod b)

/-! ### Reading -/

/-- The number that a row of digits spells. -/
def digitsValue (digits : List Char) : Nat :=
  digits.foldl (fun value c => 10 * value + (c.toNat - '0'.toNat)) 0

/-- The number that a row of characters spells, if they are digits and there is one. -/
def readDigits? (cs : List Char) : Option Nat :=
  if !cs.isEmpty && cs.all Char.isDigit then some (digitsValue cs) else none

/-- The sign that a row of characters begins with (`true` for a minus), and the rest. -/
def splitSign : List Char → Bool × List Char
  | '-' :: rest => (true, rest)
  | '+' :: rest => (false, rest)
  | cs => (false, cs)

/-- The integer that a text spells: an optional sign and at least one digit, nothing else, and small
enough. -/
def readInteger? (text : String) : Option Int := do
  let (negative, digits) := splitSign text.toList
  let magnitude ← readDigits? digits
  checked (if negative then -magnitude else magnitude)

end Bistro.Number
