/-!
# Numbers of binary64

The fractional numbers of the language are those of the binary64 format.  A number is kept as its
bits, so that the bits of a number that is not one are kept as well.  Order and equality are read
off the bits.  Sums, differences, products and quotients are computed exactly, as quotients of
integers, and then rounded to the nearest number, a half going to the even mantissa.

## Main definitions

* `Binary64` — a number, as its bits.
* `Binary64.mantissa`, `Binary64.exponent` — a finite number is the product of its mantissa and two
  to the power of its exponent, up to its sign.
* `Binary64.nearestMagnitude`, `Binary64.ofQuotient` — rounding.
* `Binary64.compare?` — the order, which leaves out what is not a number.
* `Binary64.add`, `Binary64.sub`, `Binary64.mul`, `Binary64.div` — rounded arithmetic.
* `Binary64.rem` — the exact remainder of the division toward zero.
-/

namespace Bistro

/-- A number of the binary64 format, as its bits. -/
structure Binary64 where
  /-- The bits: sign, eleven bits of exponent, 52 bits of fraction. -/
  bits : UInt64
  deriving DecidableEq, Repr, Inhabited

namespace Binary64

/-! ### Fields -/

/-- Whether the sign bit is set. -/
def negative (x : Binary64) : Bool := 1 <<< 63 ≤ x.bits.toNat

/-- The bits without the sign. -/
def magnitude (x : Binary64) : Nat := x.bits.toNat % (1 <<< 63)

/-- The bits of the exponent. -/
def exponentField (x : Binary64) : Nat := x.magnitude >>> 52

/-- The bits of the fraction. -/
def fractionField (x : Binary64) : Nat := x.magnitude % (1 <<< 52)

/-- The bits of the positive infinity. -/
def infinityBits : Nat := 2047 <<< 52

/-- Whether the bits are those of no number. -/
def isNaN (x : Binary64) : Bool := infinityBits < x.magnitude

/-- Whether the number is finite. -/
def isFinite (x : Binary64) : Bool := x.magnitude < infinityBits

/-- Whether the number is a zero of either sign. -/
def isZero (x : Binary64) : Bool := x.magnitude = 0

/-- The integer mantissa of a finite number. -/
def mantissa (x : Binary64) : Nat :=
  if x.exponentField = 0 then x.fractionField else 1 <<< 52 + x.fractionField

/-- The exponent of a finite number whose mantissa is an integer. -/
def exponent (x : Binary64) : Int :=
  if x.exponentField = 0 then -1074 else (x.exponentField : Int) - 1075

/-! ### Construction -/

/-- The number with the given sign and magnitude. -/
def ofMagnitude (negative : Bool) (magnitude : Nat) : Binary64 :=
  ⟨(if negative then 1 <<< 63 + magnitude else magnitude).toUInt64⟩

/-- Zero. -/
def zero : Binary64 := ⟨0⟩

/-- The infinity with the given sign. -/
def infinity (negative : Bool) : Binary64 := ofMagnitude negative infinityBits

/-- Bits of no number. -/
def nan : Binary64 := ofMagnitude false (infinityBits + 1 <<< 51)

/-! ### Rounding -/

/-- The quotient of two numbers, rounded to the nearest integer; a half goes to the even one. -/
def roundDiv (num den : Nat) : Nat :=
  let q := num / den
  let r := num % den
  if 2 * r < den then q else if den < 2 * r then q + 1 else q + q % 2

/-- The greatest exponent whose power of two is at most the quotient of two positive numbers. -/
def floorLog (num den : Nat) : Int :=
  let t : Int := (num.log2 : Int) - den.log2
  if den <<< t.toNat ≤ num <<< (-t).toNat then t else t - 1

/-- The magnitude nearest to the quotient of two numbers, of which the second is positive.  The
mantissa is the quotient in units of its last place; if it is rounded up to the next power of two,
the sum is the magnitude with the next exponent. -/
def nearestMagnitude (num den : Nat) : Nat :=
  if num = 0 then 0
  else
    -- 53 bits of mantissa, or fewer where the last place would be below the least one
    let e := max (floorLog num den - 52) (-1074)
    let m := roundDiv (num <<< (-e).toNat) (den <<< e.toNat)
    min infinityBits ((e + 1074).toNat <<< 52 + m)

/-- The number with the given sign nearest to the quotient of two numbers. -/
def ofQuotient (negative : Bool) (num den : Nat) : Binary64 :=
  ofMagnitude negative (nearestMagnitude num den)

/-- The number with the given sign nearest to `m * 2 ^ e`. -/
def ofScaled (negative : Bool) (m : Nat) (e : Int) : Binary64 :=
  ofQuotient negative (m <<< e.toNat) (1 <<< (-e).toNat)

/-- The number nearest to an integer. -/
def ofInt (n : Int) : Binary64 := ofQuotient (n < 0) n.natAbs 1

/-! ### Order -/

/-- A number as an integer in the same order. -/
def rank (x : Binary64) : Int := if x.negative then -(x.magnitude : Int) else x.magnitude

/-- The order of two numbers; the two zeros are equal, and what is not a number has no order. -/
def compare? (x y : Binary64) : Option Ordering :=
  if x.isNaN || y.isNaN then none else some (compare x.rank y.rank)

/-- Whether two numbers are equal. -/
def equals (x y : Binary64) : Bool := x.compare? y = some .eq

/-! ### Arithmetic -/

/-- A finite number as a multiple of `2 ^ e`, where `e` is at most its exponent. -/
def scaled (x : Binary64) (e : Int) : Int :=
  let m : Int := (x.mantissa <<< (x.exponent - e).toNat : Nat)
  if x.negative then -m else m

/-- The number with the other sign. -/
def neg (x : Binary64) : Binary64 := ofMagnitude (!x.negative) x.magnitude

/-- The rounded sum.  A sum of zero is negative only if both numbers are. -/
def add (x y : Binary64) : Binary64 :=
  if x.isNaN || y.isNaN then nan
  else if !x.isFinite then if y.isFinite || x.negative = y.negative then x else nan
  else if !y.isFinite then y
  else
    -- in the smaller unit both are integers, so that the sum is rounded only once
    let e := min x.exponent y.exponent
    let sum := x.scaled e + y.scaled e
    ofScaled (if sum = 0 then x.negative && y.negative else sum < 0) sum.natAbs e

/-- The rounded difference. -/
def sub (x y : Binary64) : Binary64 := x.add y.neg

/-- The rounded product. -/
def mul (x y : Binary64) : Binary64 :=
  let negative := x.negative != y.negative
  if x.isNaN || y.isNaN then nan
  else if x.isFinite && y.isFinite then
    ofScaled negative (x.mantissa * y.mantissa) (x.exponent + y.exponent)
  else if x.isZero || y.isZero then nan
  else infinity negative

/-- The rounded quotient. -/
def div (x y : Binary64) : Binary64 :=
  let negative := x.negative != y.negative
  if x.isNaN || y.isNaN then nan
  else if !x.isFinite then if y.isFinite then infinity negative else nan
  else if !y.isFinite then ofMagnitude negative 0
  else if y.isZero then if x.isZero then nan else infinity negative
  else
    ofQuotient negative (x.mantissa <<< (x.exponent - y.exponent).toNat)
      (y.mantissa <<< (y.exponent - x.exponent).toNat)

/-- The exact remainder of the division toward zero, with the sign of the dividend.  An infinite
divisor leaves the dividend as it is. -/
def rem (x y : Binary64) : Binary64 :=
  if !x.isFinite || y.isNaN || y.isZero then nan
  else if !y.isFinite then x
  else
    -- in the smaller unit both are integers, and so is the remainder, which needs no rounding
    let e := min x.exponent y.exponent
    ofScaled x.negative ((x.scaled e).natAbs % (y.scaled e).natAbs) e

end Binary64

end Bistro
