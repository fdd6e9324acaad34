import Bistro.Value

/-!
# Numbers that can be compared

The order of two numbers is defined unless one of them is not a number.  Rounding never leads there:
what is too great becomes infinite.  So integers can be compared once they are converted, and so can
the numbers that digits spell.

## Main results

* `Binary64.isNaN_ofMagnitude` — which bits are those of a number.
* `Binary64.isNaN_ofQuotient`, `Binary64.isNaN_ofInt` — rounding gives a number.
* `Binary64.exists_compare?` — numbers have an order.
* `Decimal.isNaN_of_read?` — a text spells a number unless it is the word for none.
-/

namespace Bistro

namespace Binary64

/-! ### Bits -/

theorem infinityBits_lt : infinityBits < 1 <<< 63 := by decide

/-- The bits without the sign are those that a number was made of. -/
theorem magnitude_ofMagnitude (negative : Bool) {magnitude : Nat} (h : magnitude < 1 <<< 63) :
    (ofMagnitude negative magnitude).magnitude = magnitude := by
  have hword : (1 <<< 63 : Nat) = 9223372036854775808 := rfl
  rw [hword] at h
  unfold ofMagnitude Binary64.magnitude
  rw [hword]
  cases negative with
  | false =>
    simp only [Bool.false_eq_true, if_false, Nat.toUInt64, UInt64.toNat_ofNat']
    omega
  | true =>
    simp only [if_true, Nat.toUInt64, UInt64.toNat_ofNat']
    omega

/-- Bits up to those of the infinity are those of a number. -/
theorem isNaN_ofMagnitude (negative : Bool) {magnitude : Nat} (h : magnitude ≤ infinityBits) :
    (ofMagnitude negative magnitude).isNaN = false := by
  unfold isNaN
  rw [magnitude_ofMagnitude negative (Nat.lt_of_le_of_lt h infinityBits_lt)]
  exact decide_eq_false (Nat.not_lt.2 h)

theorem magnitude_le {x : Binary64} (h : x.isNaN = false) : x.magnitude ≤ infinityBits :=
  Nat.not_lt.1 (of_decide_eq_false h)

theorem isNaN_of_isFinite {x : Binary64} (h : x.isFinite = true) : x.isNaN = false :=
  decide_eq_false (Nat.not_lt.2 (Nat.le_of_lt (of_decide_eq_true h)))

theorem isNaN_zero : zero.isNaN = false := by decide

theorem isNaN_infinity (negative : Bool) : (infinity negative).isNaN = false :=
  isNaN_ofMagnitude negative (Nat.le_refl _)

/-! ### Rounding and order -/

theorem nearestMagnitude_le (num den : Nat) : nearestMagnitude num den ≤ infinityBits := by
  unfold nearestMagnitude
  split
  · exact Nat.zero_le _
  · exact Nat.min_le_left _ _

/-- A rounded quotient is a number. -/
theorem isNaN_ofQuotient (negative : Bool) (num den : Nat) :
    (ofQuotient negative num den).isNaN = false :=
  isNaN_ofMagnitude negative (nearestMagnitude_le num den)

/-- An integer stays a number when it is converted. -/
theorem isNaN_ofInt (n : Int) : (ofInt n).isNaN = false := isNaN_ofQuotient _ _ _

/-- Numbers have an order. -/
theorem exists_compare? {x y : Binary64} (hx : x.isNaN = false) (hy : y.isNaN = false) :
    ∃ o, x.compare? y = some o := by
  unfold compare?
  rw [hx, hy]
  exact ⟨_, rfl⟩

end Binary64

namespace Decimal

theorem isNaN_nearest (m : Nat) (e : Int) : (nearest m e).isNaN = false := by
  unfold nearest
  dsimp only
  split
  · exact Binary64.isNaN_zero
  · split
    · exact Binary64.isNaN_infinity _
    · exact Binary64.isNaN_ofQuotient _ _ _

theorem isNaN_of_readMagnitude? {cs : List Char} {x : Binary64} (h : readMagnitude? cs = some x)
    (hword : cs.map Char.toLower ≠ "nan".toList) : x.isNaN = false := by
  unfold readMagnitude? at h
  simp only [if_neg hword] at h
  split at h
  · obtain rfl := Option.some.inj h
    exact Binary64.isNaN_infinity _
  · -- wherever the point is, the digits are rounded
    obtain ⟨-, h⟩ := Option.ite_none_left_eq_some.1 h
    obtain ⟨e, -, rfl⟩ := Option.map_eq_some_iff.1 h
    exact isNaN_nearest _ _

/-- A text spells a number, unless it is the word for none behind its sign. -/
theorem isNaN_of_read? {text : String} {x : Binary64} (h : read? text = some x)
    (hword : (Number.splitSign text.toList).2.map Char.toLower ≠ "nan".toList) :
    x.isNaN = false := by
  obtain ⟨y, hy, rfl⟩ := Option.map_eq_some_iff.1 h
  exact Binary64.isNaN_ofMagnitude _ (Binary64.magnitude_le (isNaN_of_readMagnitude? hy hword))

end Decimal

end Bistro
