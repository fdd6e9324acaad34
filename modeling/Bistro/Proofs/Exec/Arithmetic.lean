import Bistro.Exec.Operators

/-!
# Integer arithmetic is exact

An operation on integers gives its exact result, or it gives none and a finding says why.  What is
exact is said without the operations that compute it: a quotient and a remainder are recognised by
the equation between them, by the size of the remainder and by its sign.

## Main definitions

* `Number.TruncatedDivision` — division toward zero.
* `BinaryOp.isArithmetic` — the operators of arithmetic.
* `BinaryOp.IsExact` — the exact result of an operation.

## Main results

* `Number.truncatedDivision_iff` — there is one quotient and one remainder.
* `Exec.integerResult_eq_some_iff`, `Exec.result_in_range_iff` — the results that fit a word, and
  those in the range.
* `Exec.integers_exact_or_reported` — **integer arithmetic is exact, or it is reported.**
-/

namespace Bistro

namespace Number

/-- Division toward zero: the remainder is smaller than the divisor, and it is zero or on the same
side of zero as the dividend. -/
structure TruncatedDivision (a b quotient remainder : Int) : Prop where
  eq : a = quotient * b + remainder
  smaller : remainder.natAbs < b.natAbs
  nonneg : 0 ≤ a → 0 ≤ remainder
  nonpos : a ≤ 0 → remainder ≤ 0

theorem TruncatedDivision.divisor_ne_zero {a b q r : Int} (h : TruncatedDivision a b q r) :
    b ≠ 0 := by
  intro hb
  have hsmaller := h.smaller
  rw [hb] at hsmaller
  exact absurd hsmaller (Nat.not_lt_zero _)

/-- There is one quotient and one remainder. -/
theorem truncatedDivision_iff {a b q r : Int} :
    TruncatedDivision a b q r ↔ b ≠ 0 ∧ q = a.tdiv b ∧ r = a.tmod b := by
  constructor
  · intro h
    have hb := h.divisor_ne_zero
    have heq : r + b * q = a := by rw [h.eq, Int.mul_comm]; omega
    have hsmaller := h.smaller
    -- the sign of the dividend decides on which side of zero the remainder is
    rcases Int.le_total 0 a with ha | ha
    · have hr := h.nonneg ha
      obtain ⟨hq, hr⟩ := (Int.tdiv_tmod_unique ha hb).2 ⟨heq, hr, by omega⟩
      exact ⟨hb, hq.symm, hr.symm⟩
    · have hr := h.nonpos ha
      obtain ⟨hq, hr⟩ := (Int.tdiv_tmod_unique' ha hb).2 ⟨heq, by omega, hr⟩
      exact ⟨hb, hq.symm, hr.symm⟩
  · rintro ⟨hb, rfl, rfl⟩
    refine ⟨(Int.tdiv_mul_add_tmod a b).symm, ?_, ?_, ?_⟩
    · rw [Int.natAbs_tmod]
      exact Nat.mod_lt _ (Int.natAbs_pos.2 hb)
    · exact Int.tmod_nonneg b
    · intro ha
      exact ((Int.tdiv_tmod_unique' ha hb).1 ⟨rfl, rfl⟩).2.2

theorem checked_eq_some_iff {n k : Int} : checked n = some k ↔ k = n ∧ fits n = true := by
  unfold checked
  split
  · next h => simp [h, eq_comm]
  · next h => simp [h]

end Number

namespace BinaryOp

/-- Whether an operator computes a number from two numbers. -/
def isArithmetic (op : BinaryOp) : Bool := op ∈ [add, sub, mul, div, mod]

/-- An integer is the exact result of an operation of arithmetic on two integers.  There is none for
a divisor of zero. -/
def IsExact (op : BinaryOp) (a b n : Int) : Prop :=
  match op with
  | add => n = a + b
  | sub => n = a - b
  | mul => n = a * b
  | div => ∃ remainder, Number.TruncatedDivision a b n remainder
  | mod => ∃ quotient, Number.TruncatedDivision a b quotient n
  | _ => False

theorem isExact_div {a b n : Int} : IsExact div a b n ↔ b ≠ 0 ∧ n = a.tdiv b := by
  simp [IsExact, Number.truncatedDivision_iff]

theorem isExact_mod {a b n : Int} : IsExact mod a b n ↔ b ≠ 0 ∧ n = a.tmod b := by
  simp [IsExact, Number.truncatedDivision_iff]

end BinaryOp

namespace Exec

open Number (fits minInteger)

/-- The operation that has no result although its exact result fits a word: the remainder of the
least integer by minus one. -/
def IsCorner (op : BinaryOp) (a b : Int) : Prop := op = .mod ∧ a = minInteger ∧ b = -1

/-- An operation has its exact result, if that fits a word and the quotient does, too. -/
theorem integerResult_eq_some_iff {op : BinaryOp} (hop : op.isArithmetic = true) {a b n : Int}
    (hb : divides op = true → b ≠ 0) :
    integerResult op a b = some n ↔
      op.IsExact a b n ∧ (op ≠ .mod → fits n = true) ∧ ¬IsCorner op a b := by
  have hchecked : ∀ k, Number.checked k = some n ↔ n = k ∧ fits n = true := by
    intro k
    rw [Number.checked_eq_some_iff]
    exact and_congr_right fun h => by rw [h]
  cases op with
  | add | sub | mul => simp [integerResult, hchecked, BinaryOp.IsExact, IsCorner]
  | div => simp [integerResult, Number.checkedDiv, hchecked, BinaryOp.isExact_div, IsCorner, hb rfl]
  | mod =>
    simp only [integerResult, Number.checkedMod, BinaryOp.isExact_mod, IsCorner, true_and, ne_eq,
      not_true_eq_false, false_implies]
    split
    · next hcorner => simp [hcorner]
    · next hcorner => simp [hcorner, hb rfl, eq_comm]
  | equal | notEqual | less | greater | lessEqual | greaterEqual | both | either => cases hop

/-- The divisor of an operation is zero. -/
def ByZero (op : BinaryOp) (b : Int) : Prop := (op = .div ∨ op = .mod) ∧ b = 0

theorem byZero_iff {op : BinaryOp} {b : Int} :
    (divides op && decide (b = 0)) = true ↔ ByZero op b := by
  simp [divides, ByZero]

/-- An integer in a range whose ends fit a word fits a word. -/
theorem fits_of_contains {range : IntegerRange} {n : Int} (hlow : fits range.low = true)
    (hhigh : fits range.high = true) (h : range.contains n = true) : fits n = true := by
  simp only [IntegerRange.contains, fits, Bool.and_eq_true, decide_eq_true_eq] at *
  omega

section
variable {limits : Limits} {op : BinaryOp} {a b : Int} {line : Nat} {m : Machine}

/-- What is in the range fits a word, so that results are words is no restriction. -/
theorem result_in_range_iff (hlow : fits limits.integerRange.low = true)
    (hhigh : fits limits.integerRange.high = true) (hop : op.isArithmetic = true)
    (hzero : ¬ByZero op b) (n : Int) :
    (integerResult op a b = some n ∧ limits.integerRange.contains n = true) ↔
      op.IsExact a b n ∧ limits.integerRange.contains n = true ∧ ¬IsCorner op a b := by
  rw [integerResult_eq_some_iff hop fun hdivides hb => hzero (byZero_iff.1 (by simp [*]))]
  constructor
  · rintro ⟨⟨hn, -, hcorner⟩, hrange⟩
    exact ⟨hn, hrange, hcorner⟩
  · rintro ⟨hn, hrange, hcorner⟩
    exact ⟨⟨hn, fun _ => fits_of_contains hlow hhigh hrange, hcorner⟩, hrange⟩

theorem run_integerArithmetic_of_byZero (h : ByZero op b) :
    (integerArithmetic limits op a b line).run m =
      (none, ((report (.divisionByZero op) line).run m).2) := by
  rw [integerArithmetic, if_pos (byZero_iff.2 h)]
  rfl

/-- If the divisor is not zero, then there is a result in the range, or an overflow is reported. -/
theorem integerArithmetic_cases (limits : Limits) (a : Int) (line : Nat) (m : Machine)
    (h : ¬ByZero op b) :
    (∃ n, integerResult op a b = some n ∧ limits.integerRange.contains n = true ∧
      (integerArithmetic limits op a b line).run m = (some (.pinch n), m)) ∨
    ((∀ n, integerResult op a b = some n → limits.integerRange.contains n = false) ∧
      ∃ f : Finding, f.kind = .arithmeticOverflow ∧
        (integerArithmetic limits op a b line).run m = (none, ((report f line).run m).2)) := by
  rw [integerArithmetic, if_neg fun hzero => h (byZero_iff.1 hzero)]
  cases hresult : integerResult op a b with
  | none => exact .inr ⟨nofun, .overflow a.repr op b.repr, rfl, rfl⟩
  | some n =>
    by_cases hrange : limits.integerRange.contains n = true
    · refine .inl ⟨n, rfl, hrange, ?_⟩
      dsimp only
      rw [if_pos hrange]
      rfl
    · refine .inr ⟨?_, .outOfRange n limits.integerRange, rfl, ?_⟩
      · intro k hk
        obtain rfl := Option.some.inj hk
        exact Bool.eq_false_iff.2 hrange
      · dsimp only
        rw [if_neg hrange]
        rfl

end

/-- **Integer arithmetic is exact, or it is reported.**  Under limits whose range of integers is one
of words, an operation of arithmetic on any two integers gives an integer and changes nothing if and
only if the divisor is not zero, the integer is the exact result, it is in the range, and it is not
the remainder of the least integer by minus one.  Otherwise the operation gives nothing, and what it
changes is that it reports a finding on its line: a division by zero where the divisor is zero, and
an overflow in all other cases. -/
theorem integers_exact_or_reported (limits : Limits)
    (hlow : fits limits.integerRange.low = true) (hhigh : fits limits.integerRange.high = true)
    (op : BinaryOp) (hop : op.isArithmetic = true) (a b : Int) (line : Nat) (m : Machine) :
    let x := (integerArithmetic limits op a b line).run m
    (∀ n, x = (some (.pinch n), m) ↔ ¬ByZero op b ∧ op.IsExact a b n ∧
      limits.integerRange.contains n = true ∧ ¬IsCorner op a b) ∧
    ((∀ n, x ≠ (some (.pinch n), m)) →
      ∃ f : Finding, x = (none, ((report f line).run m).2) ∧
        (f.kind = .divisionByZero ↔ ByZero op b) ∧
        (f.kind = .arithmeticOverflow ↔ ¬ByZero op b)) := by
  intro x
  by_cases hzero : ByZero op b
  · have hx : x = (none, ((report (.divisionByZero op) line).run m).2) :=
      run_integerArithmetic_of_byZero hzero
    refine ⟨fun n => ?_, fun _ => ⟨.divisionByZero op, hx, ?_, ?_⟩⟩
    · refine iff_of_false ?_ fun h => h.1 hzero
      rw [hx]
      exact fun h => nomatch congrArg Prod.fst h
    · exact iff_of_true rfl hzero
    · exact iff_of_false nofun (not_not_intro hzero)
  · have hexact : ∀ n, (integerResult op a b = some n ∧ limits.integerRange.contains n = true) ↔
        ¬ByZero op b ∧ op.IsExact a b n ∧ limits.integerRange.contains n = true ∧
          ¬IsCorner op a b := by
      intro n
      rw [result_in_range_iff hlow hhigh hop hzero]
      exact (and_iff_right hzero).symm
    rcases integerArithmetic_cases limits a line m hzero with
      ⟨k, hk, hrange, hrun⟩ | ⟨hnone, f, hf, hrun⟩
    · have hx : x = (some (.pinch k), m) := hrun
      refine ⟨fun n => ?_, fun hnot => absurd hx (hnot k)⟩
      rw [hx, ← hexact n]
      constructor
      · intro h
        obtain rfl : k = n := by simpa using congrArg Prod.fst h
        exact ⟨hk, hrange⟩
      · rintro ⟨hn, -⟩
        rw [Option.some.inj (hk.symm.trans hn)]
    · have hx : x = (none, ((report f line).run m).2) := hrun
      refine ⟨fun n => ?_, fun _ => ⟨f, hx, ?_, ?_⟩⟩
      · rw [hx, ← hexact n]
        refine iff_of_false (fun h => nomatch congrArg Prod.fst h) ?_
        rintro ⟨hn, hrange⟩
        rw [hnone n hn] at hrange
        cases hrange
      · rw [hf]
        exact iff_of_false nofun hzero
      · exact iff_of_true hf hzero

/-- In the full range of words the quotient of the least integer by minus one overflows, and so does
the remainder, although it would be zero; other remainders have the sign of the dividend. -/
theorem integers_exact_or_reported_corner :
    let limits : Limits := { Limits.standard with
      integerRange := ⟨Number.minInteger, Number.maxInteger⟩ }
    let m := Machine.initial (.ofAnswers [])
    let quotient := (integerArithmetic limits .div Number.minInteger (-1) 3).run m
    let remainder := (integerArithmetic limits .mod Number.minInteger (-1) 3).run m
    (integerArithmetic limits .mod (-7) 2 3).run m = (some (.pinch (-1)), m) ∧
      quotient.1 = none ∧ quotient.2.diagnostics.items.map Diagnostic.kind = [.arithmeticOverflow] ∧
      remainder.1 = none ∧
      remainder.2.diagnostics.items.map Diagnostic.kind = [.arithmeticOverflow] := by
  intro limits m quotient remainder
  have hexact := (integers_exact_or_reported limits rfl rfl .mod rfl (-7) 2 3 m).1 (-1)
  refine ⟨hexact.2 ⟨?_, ⟨-3, by decide, by decide, by decide, by decide⟩, rfl, ?_⟩, ?_, ?_, ?_, ?_⟩
  · simp [ByZero]
  · simp [IsCorner]
  all_goals rfl

end Exec

end Bistro
