import Bistro.Proofs.Number.Order
import Mathlib.Algebra.Group.Nat.Defs

/-!
# Arithmetic of moderate numbers

A quotient that is not too great is rounded to a finite number.  So the result of an operation on
two numbers is finite if both of them are moderate, unless it divides by what is close to zero.

## Main definitions

* `Binary64.Moderate` — a finite number far below the greatest one.
* `Binary64.AtLeastHalf` — a number of at least one half, up to its sign.

## Main results

* `Binary64.isFinite_ofQuotient` — rounding a moderate quotient.
* `Binary64.Moderate.isFinite_add` and the like — arithmetic.
-/

namespace Bistro.Binary64

/-! ### Rounding -/

theorem roundDiv_le {num den q : Nat} (h : num < den * q) : roundDiv num den ≤ q := by
  have hlt : num / den < q := Nat.div_lt_of_lt_mul h
  unfold roundDiv
  dsimp only
  split
  · omega
  · split <;> omega

theorem floorLog_bounds (num den : Nat) :
    (num.log2 : Int) - den.log2 - 1 ≤ floorLog num den ∧
      floorLog num den ≤ (num.log2 : Int) - den.log2 := by
  unfold floorLog
  dsimp only
  split <;> omega

theorem log_lt_of_lt_mul {num den a b c : Nat} (hnum : 2 ^ a ≤ num) (hden : den < 2 ^ b)
    (h : num < 2 ^ c * den) : a < c + b := by
  have hlt : 2 ^ a < 2 ^ (c + b) := by
    calc 2 ^ a ≤ num := hnum
      _ < 2 ^ c * den := h
      _ ≤ 2 ^ c * 2 ^ b := Nat.mul_le_mul_left _ (Nat.le_of_lt hden)
      _ = 2 ^ (c + b) := (Nat.pow_add 2 c b).symm
  exact (Nat.pow_lt_pow_iff_right (by decide)).1 hlt

/-- A moderate quotient is rounded to the bits of a finite number. -/
theorem nearestMagnitude_lt {num den : Nat} (hden : 0 < den) (h : num < 2 ^ 250 * den) :
    nearestMagnitude num den < infinityBits := by
  unfold nearestMagnitude
  split
  · decide
  · next hnum =>
    have hlog := log_lt_of_lt_mul (Nat.log2_self_le hnum) Nat.lt_log2_self h
    obtain ⟨hlow, hhigh⟩ := floorLog_bounds num den
    dsimp only
    generalize he : max (floorLog num den - 52) (-1074) = e
    -- the mantissa is rounded to little more than its 53 bits
    have hmantissa : roundDiv (num <<< (-e).toNat) (den <<< e.toNat) ≤ 2 ^ 54 := by
      refine roundDiv_le ?_
      rw [Nat.shiftLeft_eq, Nat.shiftLeft_eq]
      calc num * 2 ^ (-e).toNat < 2 ^ (num.log2 + 1) * 2 ^ (-e).toNat :=
            Nat.mul_lt_mul_of_pos_right Nat.lt_log2_self (Nat.two_pow_pos _)
        _ = 2 ^ (num.log2 + 1 + (-e).toNat) := (Nat.pow_add 2 _ _).symm
        _ ≤ 2 ^ (den.log2 + e.toNat + 54) := Nat.pow_le_pow_right (by decide) (by omega)
        _ = 2 ^ den.log2 * 2 ^ e.toNat * 2 ^ 54 := by rw [Nat.pow_add, Nat.pow_add]
        _ ≤ den * 2 ^ e.toNat * 2 ^ 54 :=
            Nat.mul_le_mul_right _ (Nat.mul_le_mul_right _ (Nat.log2_self_le (Nat.ne_of_gt hden)))
    refine Nat.lt_of_le_of_lt (Nat.min_le_right _ _) ?_
    have hexponent : (e + 1074).toNat ≤ 1273 := by omega
    rw [Nat.shiftLeft_eq]
    have hbits : infinityBits = 2047 * 2 ^ 52 := by decide
    omega

theorem isFinite_ofMagnitude (negative : Bool) {magnitude : Nat} (h : magnitude < infinityBits) :
    (ofMagnitude negative magnitude).isFinite = true := by
  unfold isFinite
  rw [magnitude_ofMagnitude negative (Nat.lt_trans h infinityBits_lt)]
  exact decide_eq_true h

/-- A moderate quotient is rounded to a finite number. -/
theorem isFinite_ofQuotient (negative : Bool) {num den : Nat} (hden : 0 < den)
    (h : num < 2 ^ 250 * den) : (ofQuotient negative num den).isFinite = true :=
  isFinite_ofMagnitude negative (nearestMagnitude_lt hden h)

theorem isFinite_ofScaled (negative : Bool) {m a : Nat} {e : Int} (hm : m < 2 ^ a)
    (h : a + e ≤ 250) : (ofScaled negative m e).isFinite = true := by
  unfold ofScaled
  rw [Nat.shiftLeft_eq, Nat.shiftLeft_eq, Nat.one_mul]
  refine isFinite_ofQuotient negative (Nat.two_pow_pos _) ?_
  calc m * 2 ^ e.toNat < 2 ^ a * 2 ^ e.toNat := Nat.mul_lt_mul_of_pos_right hm (Nat.two_pow_pos _)
    _ = 2 ^ (a + e.toNat) := (Nat.pow_add 2 _ _).symm
    _ ≤ 2 ^ (250 + (-e).toNat) := Nat.pow_le_pow_right (by decide) (by omega)
    _ = 2 ^ 250 * 2 ^ (-e).toNat := Nat.pow_add 2 _ _

/-! ### Moderate numbers -/

theorem mantissa_lt (x : Binary64) : x.mantissa < 2 ^ 53 := by
  have hfraction : x.fractionField < 2 ^ 52 := Nat.mod_lt _ (by decide)
  unfold mantissa
  split <;> omega

theorem mantissa_pos {x : Binary64} (h : x.isZero = false) : 0 < x.mantissa := by
  have hne : x.magnitude ≠ 0 := of_decide_eq_false h
  unfold mantissa
  split
  · next hfield =>
    -- without an exponent the bits are those of the fraction
    unfold exponentField at hfield
    unfold fractionField
    rw [Nat.shiftRight_eq_div_pow] at hfield
    rw [show (1 <<< 52 : Nat) = 2 ^ 52 from rfl]
    omega
  · omega

theorem le_mantissa {x : Binary64} (h : -1074 < x.exponent) : 2 ^ 52 ≤ x.mantissa := by
  unfold exponent at h
  unfold mantissa
  split
  · next hfield =>
    rw [if_pos hfield] at h
    omega
  · exact Nat.le_add_right _ _

theorem isZero_of_lt_exponent {x : Binary64} (h : -1074 < x.exponent) : x.isZero = false := by
  refine decide_eq_false fun hzero => ?_
  have hfield : x.exponentField = 0 := by rw [exponentField, hzero, Nat.zero_shiftRight]
  rw [exponent, if_pos hfield] at h
  omega

/-- A finite number far below the greatest one. -/
structure Moderate (x : Binary64) : Prop where
  finite : x.isFinite = true
  exponent : x.exponent ≤ 72

/-- A number of at least one half, up to its sign. -/
def AtLeastHalf (x : Binary64) : Prop :=
  2 ^ (-x.exponent).toNat ≤ 2 * (x.mantissa * 2 ^ x.exponent.toNat)

variable {x y : Binary64}

theorem natAbs_scaled_lt (hx : x.exponent ≤ 72) {e : Int} (he : e ≤ 72) :
    (x.scaled e).natAbs < 2 ^ (125 - e).toNat := by
  have hnatAbs : (x.scaled e).natAbs = x.mantissa * 2 ^ (x.exponent - e).toNat := by
    unfold scaled
    rw [Nat.shiftLeft_eq]
    split
    · rw [Int.natAbs_neg, Int.natAbs_natCast]
    · rw [Int.natAbs_natCast]
  rw [hnatAbs]
  calc x.mantissa * 2 ^ (x.exponent - e).toNat < 2 ^ 53 * 2 ^ (x.exponent - e).toNat :=
        Nat.mul_lt_mul_of_pos_right x.mantissa_lt (Nat.two_pow_pos _)
    _ = 2 ^ (53 + (x.exponent - e).toNat) := (Nat.pow_add 2 _ _).symm
    _ ≤ 2 ^ (125 - e).toNat := Nat.pow_le_pow_right (by decide) (by omega)

namespace Moderate

theorem isNaN (h : x.Moderate) : x.isNaN = false := isNaN_of_isFinite h.finite

theorem neg (h : x.Moderate) : x.neg.Moderate := by
  have hmagnitude : x.neg.magnitude = x.magnitude :=
    magnitude_ofMagnitude _ (Nat.mod_lt _ (by decide))
  have hfinite := h.finite
  have hexponent := h.exponent
  unfold isFinite at hfinite
  unfold Binary64.exponent exponentField at hexponent
  refine ⟨?_, ?_⟩
  · unfold isFinite
    rw [hmagnitude]
    exact hfinite
  · unfold Binary64.exponent exponentField
    rw [hmagnitude]
    exact hexponent

theorem isFinite_add (hx : x.Moderate) (hy : y.Moderate) : (x.add y).isFinite = true := by
  unfold add
  simp only [hx.isNaN, hy.isNaN, hx.finite, hy.finite, Bool.or_self, Bool.not_true,
    Bool.false_eq_true, if_false]
  generalize he : min x.exponent y.exponent = e
  have hx' := hx.exponent
  have hxe := natAbs_scaled_lt hx.exponent (e := e) (by omega)
  have hye := natAbs_scaled_lt hy.exponent (e := e) (by omega)
  have hpow : 2 ^ (126 - e).toNat = 2 ^ (125 - e).toNat * 2 := by
    rw [← Nat.pow_succ]
    congr 1
    omega
  have hsum : (x.scaled e + y.scaled e).natAbs < 2 ^ (126 - e).toNat := by omega
  exact isFinite_ofScaled _ hsum (by omega)

theorem isFinite_sub (hx : x.Moderate) (hy : y.Moderate) : (x.sub y).isFinite = true :=
  hx.isFinite_add hy.neg

theorem isFinite_mul (hx : x.Moderate) (hy : y.Moderate) : (x.mul y).isFinite = true := by
  unfold mul
  simp only [hx.isNaN, hy.isNaN, hx.finite, hy.finite, Bool.or_self, Bool.and_self,
    Bool.false_eq_true, if_false, if_true]
  have hproduct : x.mantissa * y.mantissa < 2 ^ (53 + 53) := by
    rw [Nat.pow_add]
    exact Nat.mul_lt_mul'' x.mantissa_lt y.mantissa_lt
  have hx' := hx.exponent
  have hy' := hy.exponent
  exact isFinite_ofScaled _ hproduct (by omega)

theorem isFinite_rem (hx : x.Moderate) (hy : y.Moderate) (hzero : y.isZero = false) :
    (x.rem y).isFinite = true := by
  unfold rem
  simp only [hx.finite, hy.finite, hy.isNaN, hzero, Bool.or_self, Bool.not_true,
    Bool.false_eq_true, if_false]
  generalize he : min x.exponent y.exponent = e
  have hx' := hx.exponent
  have hxe := natAbs_scaled_lt hx.exponent (e := e) (by omega)
  exact isFinite_ofScaled _ (Nat.lt_of_le_of_lt (Nat.mod_le _ _) hxe) (by omega)

theorem isFinite_div (hx : x.Moderate) (hy : y.Moderate) (hhalf : y.AtLeastHalf)
    (hzero : y.isZero = false) : (x.div y).isFinite = true := by
  unfold div
  simp only [hx.finite, hy.finite, hx.isNaN, hy.isNaN, hzero, Bool.or_self, Bool.not_true,
    Bool.false_eq_true, if_false]
  have hx' := hx.exponent
  have hmantissa : 2 ^ (-y.exponent).toNat ≤ 2 * y.mantissa := by
    unfold AtLeastHalf at hhalf
    by_cases hneg : y.exponent < 0
    · rw [Int.toNat_of_nonpos (Int.le_of_lt hneg), Nat.pow_zero, Nat.mul_one] at hhalf
      exact hhalf
    · have hne : y.mantissa ≠ 0 := by
        intro h
        rw [h, Nat.zero_mul] at hhalf
        exact absurd hhalf (Nat.not_le.2 (Nat.two_pow_pos _))
      rw [Int.toNat_of_nonpos (by omega)]
      omega
  rw [Nat.shiftLeft_eq, Nat.shiftLeft_eq]
  have hpos := Nat.two_pow_pos (-y.exponent).toNat
  have hpow := Nat.two_pow_pos (y.exponent - x.exponent).toNat
  refine isFinite_ofQuotient _ (Nat.mul_pos (by omega) hpow) ?_
  calc x.mantissa * 2 ^ (x.exponent - y.exponent).toNat
      < 2 ^ 53 * 2 ^ (x.exponent - y.exponent).toNat :=
        Nat.mul_lt_mul_of_pos_right x.mantissa_lt (Nat.two_pow_pos _)
    _ = 2 ^ (53 + (x.exponent - y.exponent).toNat) := (Nat.pow_add 2 _ _).symm
    _ ≤ 2 ^ (249 + (-y.exponent).toNat) := Nat.pow_le_pow_right (by decide) (by omega)
    _ = 2 ^ 249 * 2 ^ (-y.exponent).toNat := Nat.pow_add 2 _ _
    _ ≤ 2 ^ 249 * (2 * y.mantissa) := Nat.mul_le_mul_left _ hmantissa
    _ = 2 ^ (249 + 1) * y.mantissa := by rw [← Nat.mul_assoc, Nat.pow_add, Nat.pow_one]
    _ ≤ 2 ^ 250 * (y.mantissa * 2 ^ (y.exponent - x.exponent).toNat) :=
        Nat.mul_le_mul_left _ (Nat.le_mul_of_pos_right _ hpow)

end Moderate

end Bistro.Binary64
