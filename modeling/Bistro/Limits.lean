/-!
# Limits of a run

What a program may use up while it is parsed and run, and which results count as acceptable.

## Main definitions

* `IntegerRange` — the integers that input and arithmetic may give.
* `Limits` — the limits of one run; `Limits.standard` are those that hold unless others are chosen.
* `Limits.stackSize` — the stack that is set aside for a run.
-/

namespace Bistro

/-- A range of integers with both ends; it is empty if the low end is above the high one. -/
structure IntegerRange where
  low : Int
  high : Int
  deriving DecidableEq, Repr, Inhabited

/-- Whether an integer is in a range. -/
def IntegerRange.contains (r : IntegerRange) (n : Int) : Bool := r.low ≤ n && n ≤ r.high

/-- The limits of one run. -/
structure Limits where
  /-- How often a loop may run its body. -/
  maxLoopIterations : Nat
  /-- How deep calls may be nested. -/
  maxCallDepth : Nat
  /-- The results that the entry point may give. -/
  acceptedExitCodes : List Int
  /-- The integers that input and arithmetic may give. -/
  integerRange : IntegerRange
  /-- How many tokens may be passed over in search of a place to go on parsing. -/
  maxRecoveryAttempts : Nat
  /-- How many syntax errors are reported before parsing is given up. -/
  maxSyntaxErrors : Nat
  /-- The greatest length of an array. -/
  maxArrayLength : Nat
  deriving DecidableEq, Repr, Inhabited

namespace Limits

/-- The greatest magnitude of an integer literal of nine digits. -/
def integerLimit : Int := 999999999

/-- The limits that hold unless others are chosen. -/
def standard : Limits where
  maxLoopIterations := 10000
  maxCallDepth := 256
  acceptedExitCodes := [0]
  integerRange := ⟨-integerLimit, integerLimit⟩
  maxRecoveryAttempts := 5
  maxSyntaxErrors := 32
  maxArrayLength := 65536

/-- The greatest size that fits a machine word. -/
def maxSize : Nat := 18446744073709551615

/-- Bytes of stack set aside before any call. -/
def baseStack : Nat := 8 * 1024 * 1024

/-- Bytes of stack set aside for each nested call. -/
def stackPerCall : Nat := 256 * 1024

/-- Bytes of stack set aside for a run: enough for the permitted depth of calls, as far as a machine
word can tell. -/
def stackSize (limits : Limits) : Nat :=
  min maxSize (baseStack + min maxSize (limits.maxCallDepth * stackPerCall))

end Limits

end Bistro
