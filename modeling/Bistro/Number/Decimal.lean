import Bistro.Number.Binary64
import Bistro.Number.Integer

/-!
# Decimal text of binary64 numbers

A finite number is written with the fewest digits that read back as the same number; of several such
decimals the nearest is taken, and of two equally near the greater.  Digits are always positional.
Reading rounds to the nearest number.

The decimals that read back as a number are those in an interval around it: from halfway to the
number below to halfway to the number above, with the ends if the mantissa is even.  For one digit,
two digits and so on the two neighbours of the number on the grid of such decimals are tried.

## Main definitions

* `Decimal.shortest` — the digits of a number and the power of ten they count.
* `Decimal.render` — the plain text of a number.
* `Decimal.read?` — the number that a text spells.
-/

namespace Bistro.Decimal

/-! ### Shortest digits -/

/-- A positive number in units of a quarter of its last place, with the interval of what rounds to
it. -/
structure Interval where
  /-- The lower end. -/
  low : Nat
  /-- The number. -/
  mid : Nat
  /-- The upper end. -/
  high : Nat
  /-- Whether the ends belong to the interval. -/
  closed : Bool
  /-- The exponent of two of the unit. -/
  exponent : Int
  deriving DecidableEq, Repr, Inhabited

/-- The interval around a positive finite number.  Below a power of two they are twice
as dense. -/
def Interval.around (x : Binary64) : Interval :=
  let m := x.mantissa
  let dense := x.fractionField = 0 && 1 < x.exponentField
  ⟨if dense then 4 * m - 1 else 4 * m - 2, 4 * m, 4 * m + 2, m % 2 = 0, x.exponent - 2⟩

/-- Factors that compare decimals `c * 10 ^ k` with the numbers of an interval as integers: the
first belongs to `c`, the second to the numbers. -/
def scales (k exponent : Int) : Nat × Nat :=
  (Nat.pow 10 k.toNat <<< (-exponent).toNat, Nat.pow 10 (-k).toNat <<< exponent.toNat)

/-- Whether a scaled decimal is in the interval. -/
def Interval.holds (i : Interval) (unit c : Nat) : Bool :=
  if i.closed then i.low * unit ≤ c && c ≤ i.high * unit else i.low * unit < c && c < i.high * unit

/-- The neighbour of the number on the grid `10 ^ k` that reads back as the number; of two the
nearer, and of two equally near the greater. -/
def Interval.onGrid? (i : Interval) (k : Int) : Option Nat :=
  let (tens, unit) := scales k i.exponent
  let below := i.mid * unit / tens
  let above := below + 1
  let up := above * tens - i.mid * unit ≤ i.mid * unit - below * tens
  match i.holds unit (below * tens), i.holds unit (above * tens) with
  | true, true => some (if up then above else below)
  | true, false => some below
  | false, true => some above
  | false, false => none

/-- The number of digits before the point of a number at least one; below one, the negated number of
zeros behind the point. -/
def leadingPlace (i : Interval) : Int :=
  let (one, unit) := scales 0 i.exponent
  let whole := i.mid * unit / one
  if 0 < whole then (whole.repr.length : Int)
  else
    -- the least positive number has 323 zeros behind its point
    let places := (List.range 400).find? fun j => one ≤ i.mid * unit * Nat.pow 10 (j + 1)
    Int.negOfNat (places.getD 0)

/-- Most digits that a number needs. -/
def maxDigits : Nat := 17

/-- The fewest digits that read back as a positive finite number, and the power of ten they
count. -/
def shortest (x : Binary64) : Nat × Int :=
  let i := Interval.around x
  let place := leadingPlace i
  let hit := (List.range maxDigits).findSome? fun n =>
    let k := place - (n + 1 : Nat)
    (i.onGrid? k).map (·, k)
  hit.getD (0, 0)

/-! ### Text -/

/-- A number of zeros. -/
def zeros (n : Nat) : String := String.ofList (List.replicate n '0')

/-- The decimal `digits * 10 ^ k` in positional notation. -/
def positional (digits : Nat) (k : Int) : String :=
  if 0 ≤ k then
    digits.repr ++ if digits = 0 then "" else zeros k.toNat
  else
    let places := (-k).toNat
    let (whole, fraction) := (digits / Nat.pow 10 places, digits % Nat.pow 10 places)
    let tail := fraction.repr
    -- the zeros between the point and the first digit are not digits of the number
    let padded := (zeros (places - tail.length) ++ tail).toList
    let kept := (padded.reverse.dropWhile (· = '0')).reverse
    if kept.isEmpty then whole.repr else whole.repr ++ "." ++ String.ofList kept

/-- The plain text of a number. -/
def render (x : Binary64) : String :=
  if x.isNaN then "NaN"
  else
    let sign := if x.negative then "-" else ""
    if !x.isFinite then sign ++ "inf"
    else if x.isZero then sign ++ "0"
    else
      let (digits, k) := shortest x
      sign ++ positional digits k

/-- Whether a number is an integer below a power of ten from which on no point is
written. -/
def isWhole (x : Binary64) : Bool :=
  x.isFinite &&
    if 0 ≤ x.exponent then x.mantissa <<< x.exponent.toNat < Nat.pow 10 16
    else
      x.mantissa % (1 <<< (-x.exponent).toNat) = 0 &&
        x.mantissa < Nat.pow 10 16 <<< (-x.exponent).toNat

/-- The text of a number with a digit behind the point where it is a moderate integer. -/
def renderPointed (x : Binary64) : String :=
  if isWhole x then
    let whole := x.mantissa <<< x.exponent.toNat >>> (-x.exponent).toNat
    (if x.negative then "-" else "") ++ whole.repr ++ ".0"
  else render x

/-! ### Reading -/

/-- The exponent part of a decimal: nothing, or an `e`, an optional sign and at least one digit. -/
def readExponent? : List Char → Option Int
  | [] => some 0
  | e :: rest =>
    if e = 'e' || e = 'E' then
      let (negative, digits) := Number.splitSign rest
      (Number.readDigits? digits).map fun n => if negative then -(n : Int) else n
    else none

/-- A power of ten beyond all numbers, whose inverse is nearer to zero than to any other number. -/
def farPlace : Int := 400

/-- The number nearest to `m * 10 ^ e`.  Where the first digit is too far from the point, the number
is not computed. -/
def nearest (m : Nat) (e : Int) : Binary64 :=
  let place : Int := m.repr.length + e
  if m = 0 || place < -farPlace then .zero
  else if farPlace < place then .infinity false
  else .ofQuotient false (m * Nat.pow 10 e.toNat) (Nat.pow 10 (-e).toNat)

/-- The magnitude that a row of characters spells: digits with an optional point among or beside
them and an optional exponent, or the word for infinity or for no number. -/
def readMagnitude? (cs : List Char) : Option Binary64 :=
  let word := cs.map Char.toLower
  if word = "inf".toList || word = "infinity".toList then
    some (.infinity false)
  else if word = "nan".toList then some .nan
  else
    let whole := cs.takeWhile Char.isDigit
    let rest := cs.dropWhile Char.isDigit
    let (fraction, rest) := match rest with
      | '.' :: behind => (behind.takeWhile Char.isDigit, behind.dropWhile Char.isDigit)
      | _ => ([], rest)
    if whole.isEmpty && fraction.isEmpty then none
    else (readExponent? rest).map fun e =>
      nearest (Number.digitsValue (whole ++ fraction)) (e - fraction.length)

/-- The number that a text spells: an optional sign and a magnitude. -/
def read? (text : String) : Option Binary64 :=
  let (negative, rest) := Number.splitSign text.toList
  (readMagnitude? rest).map fun x => .ofMagnitude negative x.magnitude

end Bistro.Decimal
