import Bistro.Proofs.Number.Finite
import Mathlib.Data.List.TakeWhile
import Mathlib.Tactic.ByContra

/-!
# Numbers that are written like integers

A fractional number is written with the fewest digits that read back as it.  Seventeen digits always
suffice, so a great number is not cut short but filled up with zeros, and what is close to zero is
written with a point.  So a fractional number whose text is that of an integer is as moderate as the
integer.

## Main results

* `Decimal.exists_shortest` — **seventeen digits suffice.**
* `Decimal.moderate_of_render` — a number that is written like an integer of a word is moderate.
* `Decimal.atLeastHalf_of_render` — one other than zero is not close to zero either.
-/

namespace Bistro

namespace Decimal

open Binary64

/-! ### Seventeen digits -/

namespace Interval

variable {i : Interval} {k : Int}

theorem holds_of_lt {unit c : Nat} (hlow : i.low * unit < c) (hhigh : c < i.high * unit) :
    i.holds unit c = true := by
  unfold holds
  split
  · simp [Nat.le_of_lt hlow, Nat.le_of_lt hhigh]
  · simp [hlow, hhigh]

theorem le_of_holds {unit c : Nat} (h : i.holds unit c = true) :
    i.low * unit ≤ c ∧ c ≤ i.high * unit := by
  unfold holds at h
  split at h
  · simpa using h
  · rw [Bool.and_eq_true, decide_eq_true_eq, decide_eq_true_eq] at h
    exact ⟨Nat.le_of_lt h.1, Nat.le_of_lt h.2⟩

theorem scales_pos {e : Int} {tens unit : Nat} (h : scales k e = (tens, unit)) :
    0 < tens ∧ 0 < unit := by
  obtain ⟨rfl, rfl⟩ := Prod.mk.inj h
  rw [Nat.shiftLeft_eq, Nat.shiftLeft_eq]
  exact ⟨Nat.mul_pos (Nat.pow_pos (by decide)) (Nat.two_pow_pos _),
    Nat.mul_pos (Nat.pow_pos (by decide)) (Nat.two_pow_pos _)⟩

variable {tens unit : Nat}

/-- The decimal that is found is in the interval, so it is not zero and not above its upper end. -/
theorem onGrid?_eq_some (hscales : scales k i.exponent = (tens, unit)) (hi : 0 < i.low) {c : Nat}
    (h : i.onGrid? k = some c) : 0 < c ∧ c * tens ≤ i.high * unit := by
  have hholds : i.holds unit (c * tens) = true := by
    unfold onGrid? at h
    rw [hscales] at h
    dsimp only at h
    split at h
    · obtain rfl := Option.some.inj h
      split <;> assumption
    · obtain rfl := Option.some.inj h
      assumption
    · obtain rfl := Option.some.inj h
      assumption
    · cases h
  obtain ⟨hlow, hhigh⟩ := le_of_holds hholds
  have hpos := Nat.lt_of_lt_of_le (Nat.mul_pos hi (scales_pos hscales).2) hlow
  exact ⟨Nat.pos_of_mul_pos_right hpos, hhigh⟩

theorem isSome_onGrid?_of_holds (hscales : scales k i.exponent = (tens, unit))
    (h : i.holds unit (i.mid * unit / tens * tens) = true ∨
      i.holds unit ((i.mid * unit / tens + 1) * tens) = true) : (i.onGrid? k).isSome := by
  unfold onGrid?
  rw [hscales]
  dsimp only
  split <;> simp_all

/-- The lower end is half a unit of the last place below the number, or a quarter where the number
is a power of two. -/
theorem low_around (x : Binary64) :
    (Interval.around x).low = 4 * x.mantissa - 2 ∨
      (Interval.around x).low = 4 * x.mantissa - 1 ∧ x.mantissa = 2 ^ 52 := by
  unfold Interval.around
  dsimp only
  split
  · next hdense =>
    rw [Bool.and_eq_true, decide_eq_true_eq, decide_eq_true_eq] at hdense
    refine .inr ⟨rfl, ?_⟩
    unfold mantissa
    rw [if_neg (by omega), hdense.1]
    rfl
  · exact .inl rfl

/-- **Seventeen digits suffice**: on a grid as fine as that, a neighbour of the number reads back as
it. -/
theorem isSome_onGrid? {x : Binary64} (hx : x.isZero = false)
    (hscales : scales k (Interval.around x).exponent = (tens, unit))
    (hgrid : 10 ^ 16 * tens ≤ (Interval.around x).mid * unit) :
    ((Interval.around x).onGrid? k).isSome := by
  obtain ⟨htens, hunit⟩ := scales_pos hscales
  refine isSome_onGrid?_of_holds hscales ?_
  have hmid : (Interval.around x).mid = 4 * x.mantissa := rfl
  have hhigh : (Interval.around x).high * unit = 4 * x.mantissa * unit + 2 * unit :=
    Nat.add_mul _ _ _
  have hmantissa := Nat.mul_lt_mul_of_pos_right x.mantissa_lt hunit
  have hpos := mantissa_pos hx
  rw [hmid] at hgrid ⊢
  have hdiv := Nat.div_add_mod (4 * x.mantissa * unit) tens
  have hrest := Nat.mod_lt (4 * x.mantissa * unit) htens
  have hscaled : 4 * x.mantissa * unit = 4 * (x.mantissa * unit) := Nat.mul_assoc _ _ _
  generalize 4 * x.mantissa * unit / tens = below at *
  generalize 4 * x.mantissa * unit % tens = rest at *
  have habove : (below + 1) * tens = below * tens + tens := Nat.succ_mul _ _
  rw [Nat.mul_comm tens below] at hdiv
  rcases low_around x with hlow | ⟨hlow, hpower⟩
  · -- half a step of the grid is less than half a unit, so the nearer neighbour is inside
    have hends : (Interval.around x).low * unit = 4 * x.mantissa * unit - 2 * unit := by
      rw [hlow, Nat.sub_mul]
    have htwo : 2 * unit ≤ 4 * x.mantissa * unit := Nat.mul_le_mul_right _ (by omega)
    by_cases hnear : 2 * rest ≤ tens
    · exact .inl (holds_of_lt (by omega) (by omega))
    · exact .inr (holds_of_lt (by omega) (by omega))
  · -- a whole step of the grid is less than half a unit, so the neighbour above is inside
    have hends : (Interval.around x).low * unit = 4 * x.mantissa * unit - unit := by
      rw [hlow, Nat.sub_mul, Nat.one_mul]
    have hvalue : x.mantissa * unit = 2 ^ 52 * unit := by rw [hpower]
    exact .inr (holds_of_lt (by omega) (by omega))

theorem low_pos {x : Binary64} (hx : x.isZero = false) : 0 < (Interval.around x).low := by
  have hpos := mantissa_pos hx
  rcases low_around x with h | ⟨h, -⟩ <;> omega

end Interval

/-! ### Shortest digits -/

theorem scales_eq (k e : Int) :
    scales k e = (10 ^ k.toNat * 2 ^ (-e).toNat, 10 ^ (-k).toNat * 2 ^ e.toNat) := by
  simp [scales, Nat.shiftLeft_eq]

theorem le_exponent (x : Binary64) : -1074 ≤ x.exponent := by
  unfold exponent
  split <;> omega

theorem length_repr_pos (n : Nat) : 0 < n.repr.length := by
  rw [← String.length_toList, Nat.toList_repr]
  exact Nat.length_toDigits_pos

theorem ten_pow_length_le {n : Nat} (hn : 0 < n) : 10 ^ (n.repr.length - 1) ≤ n := by
  by_contra hlt
  have hpos := length_repr_pos n
  rcases Nat.eq_zero_or_pos (n.repr.length - 1) with hzero | hlong
  · rw [hzero] at hlt
    omega
  · have hshort := (Nat.length_repr_le_iff hlong).2 (Nat.not_le.1 hlt)
    omega

theorem two_pow_le_ten_pow {a b : Nat} (h : a ≤ 3 * b) : 2 ^ a ≤ 10 ^ b :=
  calc 2 ^ a ≤ 2 ^ (3 * b) := Nat.pow_le_pow_right (by decide) h
    _ = 8 ^ b := Nat.pow_mul 2 3 b
    _ ≤ 10 ^ b := Nat.pow_le_pow_left (by decide) b

/-- The search for the first digit behind the point comes to an end. -/
theorem exists_place {one value n : Nat} (hvalue : 0 < value) (h : one ≤ 10 ^ (n + 1)) : ∃ j,
    (List.range (n + 1)).find? (fun j => decide (one ≤ value * Nat.pow 10 (j + 1))) = some j ∧
      one ≤ value * 10 ^ (j + 1) := by
  cases hfind : (List.range (n + 1)).find? fun j => decide (one ≤ value * Nat.pow 10 (j + 1)) with
  | none =>
    have hlast := List.find?_eq_none.1 hfind n (List.mem_range.2 (Nat.lt_succ_self n))
    rw [decide_eq_true_eq] at hlast
    exact absurd (Nat.le_trans h (Nat.le_mul_of_pos_left _ hvalue)) hlast
  | some j =>
    have hj := List.find?_some hfind
    rw [decide_eq_true_eq] at hj
    exact ⟨j, rfl, hj⟩

/-- The first digit of a number stands at its leading place or before it. -/
theorem ten_pow_leadingPlace_le {x : Binary64} (hx : x.isZero = false) :
    10 ^ (leadingPlace (.around x) - 1).toNat * 2 ^ (-(Interval.around x).exponent).toNat ≤
      (Interval.around x).mid * 2 ^ (Interval.around x).exponent.toNat *
        10 ^ (1 - leadingPlace (.around x)).toNat := by
  have hexponent := le_exponent x
  have he : (Interval.around x).exponent = x.exponent - 2 := rfl
  have hmid : 0 < (Interval.around x).mid := Nat.mul_pos (by decide) (mantissa_pos hx)
  unfold leadingPlace
  rw [scales_eq]
  simp only [Int.toNat_zero, Int.neg_zero, Nat.pow_zero, Nat.one_mul]
  have hone := Nat.two_pow_pos (-(Interval.around x).exponent).toNat
  have hunit := Nat.two_pow_pos (Interval.around x).exponent.toNat
  generalize hvalue : (Interval.around x).mid * 2 ^ (Interval.around x).exponent.toNat = value
  generalize hwhole : value / 2 ^ (-(Interval.around x).exponent).toNat = whole
  split
  · next hpos =>
    -- as many digits as stand before the point
    have hlength := length_repr_pos whole
    have hfirst := ten_pow_length_le hpos
    rw [show ((whole.repr.length : Int) - 1).toNat = whole.repr.length - 1 by omega,
      Int.toNat_of_nonpos (z := 1 - (whole.repr.length : Int)) (by omega), Nat.pow_zero,
      Nat.mul_one]
    exact (Nat.le_div_iff_mul_le hone).1 (hfirst.trans_eq hwhole.symm)
  · -- as many zeros as stand behind the point
    have hvaluepos : 0 < value := hvalue ▸ Nat.mul_pos hmid hunit
    -- even the least number has its first digit before the last place that is tried
    have hleast : 2 ^ (-(Interval.around x).exponent).toNat ≤ 10 ^ (399 + 1) :=
      two_pow_le_ten_pow (by omega)
    obtain ⟨j, hplaces, hj⟩ := exists_place hvaluepos hleast
    rw [hplaces, Option.getD_some, Int.negOfNat_eq, Int.ofNat_eq_natCast,
      Int.toNat_of_nonpos (z := -(j : Int) - 1) (by omega),
      show (1 - -(j : Int)).toNat = j + 1 by omega, Nat.pow_zero, Nat.one_mul]
    exact hj

/-- The digits of a number are those of a neighbour on a grid, unless no grid has one. -/
theorem shortest_cases (x : Binary64) :
    (shortest x = (0, 0) ∧ ∀ n < maxDigits,
      (Interval.around x).onGrid? (leadingPlace (.around x) - (n + 1 : Nat)) = none) ∨
    ∃ n < maxDigits, ∃ c, shortest x = (c, leadingPlace (.around x) - (n + 1 : Nat)) ∧
      (Interval.around x).onGrid? (leadingPlace (.around x) - (n + 1 : Nat)) = some c := by
  unfold shortest
  dsimp only
  cases hit : (List.range maxDigits).findSome? fun n =>
      ((Interval.around x).onGrid? (leadingPlace (.around x) - (n + 1 : Nat))).map
        (·, leadingPlace (.around x) - ((n + 1 : Nat) : Int)) with
  | none =>
    refine .inl ⟨rfl, fun n hn => ?_⟩
    exact Option.map_eq_none_iff.1 (List.findSome?_eq_none_iff.1 hit n (List.mem_range.2 hn))
  | some found =>
    obtain ⟨n, hn, hfound⟩ := List.exists_of_findSome?_eq_some hit
    obtain ⟨c, hc, rfl⟩ := Option.map_eq_some_iff.1 hfound
    exact .inr ⟨n, List.mem_range.1 hn, c, rfl, hc⟩

/-- **Seventeen digits suffice** for every number. -/
theorem exists_shortest {x : Binary64} (hx : x.isZero = false) : ∃ n < maxDigits, ∃ c,
    shortest x = (c, leadingPlace (.around x) - (n + 1 : Nat)) ∧
      (Interval.around x).onGrid? (leadingPlace (.around x) - (n + 1 : Nat)) = some c := by
  rcases shortest_cases x with ⟨-, hnone⟩ | hfound
  · have hgrid : ((Interval.around x).onGrid?
        (leadingPlace (.around x) - ((16 + 1 : Nat) : Int))).isSome := by
      refine Interval.isSome_onGrid? hx (scales_eq _ _) ?_
      have hplace := ten_pow_leadingPlace_le hx
      generalize leadingPlace (.around x) = place at hplace ⊢
      generalize 2 ^ (-(Interval.around x).exponent).toNat = one at hplace ⊢
      generalize 2 ^ (Interval.around x).exponent.toNat = unit at hplace ⊢
      generalize (Interval.around x).mid = mid at hplace ⊢
      -- the exponents of ten add up to the same on both sides
      have hsum : 16 + (place - (16 + 1 : Nat)).toNat + (1 - place).toNat =
          (-(place - (16 + 1 : Nat))).toNat + (place - 1).toNat := by omega
      generalize (place - ((16 + 1 : Nat) : Int)).toNat = tens at hsum ⊢
      generalize (-(place - ((16 + 1 : Nat) : Int))).toNat = parts at hsum ⊢
      refine Nat.le_of_mul_le_mul_right ?_ (Nat.pow_pos (n := (1 - place).toNat)
        (show 0 < 10 by decide))
      calc 10 ^ 16 * (10 ^ tens * one) * 10 ^ (1 - place).toNat
          = 10 ^ (16 + tens + (1 - place).toNat) * one := by rw [Nat.pow_add, Nat.pow_add]; ac_rfl
        _ = 10 ^ parts * (10 ^ (place - 1).toNat * one) := by rw [hsum, Nat.pow_add]; ac_rfl
        _ ≤ 10 ^ parts * (mid * unit * 10 ^ (1 - place).toNat) := Nat.mul_le_mul_left _ hplace
        _ = mid * (10 ^ parts * unit) * 10 ^ (1 - place).toNat := by ac_rfl
    rw [hnone 16 (by decide)] at hgrid
    cases hgrid
  · exact hfound

/-- A great number is an integer with at least 38 digits. -/
theorem lt_leadingPlace {x : Binary64} (h : 72 < x.exponent) : 37 < leadingPlace (.around x) := by
  have hmantissa := le_mantissa (x := x) (by omega)
  have he : (Interval.around x).exponent = x.exponent - 2 := rfl
  have hgreat : 10 ^ 37 ≤ (Interval.around x).mid * 2 ^ (Interval.around x).exponent.toNat :=
    calc 10 ^ 37 ≤ 4 * 2 ^ 52 * 2 ^ 71 := by decide
      _ ≤ (Interval.around x).mid * 2 ^ (Interval.around x).exponent.toNat :=
          Nat.mul_le_mul (Nat.mul_le_mul_left _ hmantissa)
            (Nat.pow_le_pow_right (by decide) (by omega))
  unfold leadingPlace
  rw [scales_eq, Int.toNat_of_nonpos (z := -(Interval.around x).exponent) (by omega)]
  simp only [Int.toNat_zero, Int.neg_zero, Nat.pow_zero, Nat.one_mul, Nat.div_one]
  generalize (Interval.around x).mid * 2 ^ (Interval.around x).exponent.toNat = whole at hgreat ⊢
  have hiff := Nat.length_repr_le_iff (n := whole) (k := 37) (by decide)
  rw [if_pos (by omega)]
  omega

/-- The digits of a great number end far before its point. -/
theorem shortest_of_great {x : Binary64} (h : 72 < x.exponent) :
    ∃ c k, shortest x = (c, k) ∧ 0 < c ∧ 21 ≤ k := by
  have hx := isZero_of_lt_exponent (x := x) (by omega)
  have hplace := lt_leadingPlace h
  obtain ⟨n, hn, c, hshortest, hc⟩ := exists_shortest hx
  refine ⟨c, _, hshortest, (Interval.onGrid?_eq_some rfl (Interval.low_pos hx) hc).1, ?_⟩
  have hmost : n < 17 := hn
  omega

/-! ### Texts -/

theorem isDigit_of_mem_repr {n : Nat} {c : Char} (h : c ∈ n.repr.toList) : c.isDigit = true := by
  rw [Nat.toList_repr] at h
  exact Nat.isDigit_of_mem_toDigits (by decide) (by decide) h

/-- An integer is written with digits and a sign. -/
theorem mem_intRepr {a : Int} {c : Char} (h : c ∈ a.repr.toList) : c.isDigit = true ∨ c = '-' := by
  rw [Int.repr_eq_if] at h
  split at h
  · exact .inl (isDigit_of_mem_repr h)
  · rw [String.toList_append, List.mem_append] at h
    rcases h with h | h
    · exact .inr (List.mem_singleton.1 h)
    · exact .inl (isDigit_of_mem_repr h)

theorem length_intRepr_le {a : Int} (h : Number.fits a = true) : a.repr.length ≤ 20 := by
  unfold Number.fits Number.minInteger Number.maxInteger at h
  rw [Bool.and_eq_true, decide_eq_true_eq, decide_eq_true_eq] at h
  have hlength : ∀ n : Nat, n ≤ 9223372036854775808 → n.repr.length ≤ 19 := fun n hn =>
    (Nat.length_repr_le_iff (by decide)).2 (Nat.lt_of_le_of_lt hn (by decide))
  rw [Int.repr_eq_if]
  split
  · have := hlength a.toNat (by omega)
    omega
  · have := hlength (-a).toNat (by omega)
    rw [String.length_append]
    show 1 + _ ≤ 20
    omega

theorem length_positional {c : Nat} {k : Int} (hc : 0 < c) (hk : 0 ≤ k) :
    k.toNat < (positional c k).length := by
  have hdigits := length_repr_pos c
  unfold positional
  rw [if_pos hk, if_neg (Nat.ne_of_gt hc), String.length_append]
  have hzeros : (zeros k.toNat).length = k.toNat := by
    rw [zeros, String.length_ofList, List.length_replicate]
  omega

theorem eq_zero_of_repr {n : Nat} (h : ∀ c ∈ n.repr.toList, c = '0') : n = 0 := by
  have hvalue : ∀ cs : List Char, (∀ c ∈ cs, c = '0') → Nat.ofDigitChars 10 cs 0 = 0 := by
    intro cs hcs
    induction cs with
    | nil => rfl
    | cons c cs ih =>
      rw [List.forall_mem_cons] at hcs
      rw [hcs.1]
      exact ih hcs.2
  rw [Nat.toList_repr] at h
  exact Nat.ofDigitChars_ten_toDigits.symm.trans (hvalue _ h)

/-- Behind the point stand digits, if the number is no integer. -/
theorem positional_of_neg (c : Nat) {k : Int} (hk : k < 0) : ∃ kept : List Char,
    (∀ d ∈ kept, d.isDigit = true) ∧ (kept = [] → c % 10 ^ (-k).toNat = 0) ∧
      positional c k = if kept.isEmpty then (c / 10 ^ (-k).toNat).repr
        else (c / 10 ^ (-k).toNat).repr ++ "." ++ String.ofList kept := by
  unfold positional
  rw [if_neg (by omega)]
  refine ⟨_, fun d hd => ?_, fun hkept => ?_, rfl⟩
  · rw [List.mem_reverse] at hd
    have hpadded := (List.dropWhile_sublist _).subset hd
    rw [List.mem_reverse, String.toList_append, List.mem_append] at hpadded
    rcases hpadded with hzero | hdigit
    · rw [zeros, String.toList_ofList] at hzero
      rw [List.eq_of_mem_replicate hzero]
      rfl
    · exact isDigit_of_mem_repr hdigit
  · rw [List.reverse_eq_nil_iff, List.dropWhile_eq_nil_iff] at hkept
    refine eq_zero_of_repr fun d hd => of_decide_eq_true (hkept d ?_)
    rw [List.mem_reverse, String.toList_append]
    exact List.mem_append_right _ hd

theorem mem_positional {c : Nat} {k : Int} {d : Char} (h : d ∈ (positional c k).toList) :
    d.isDigit = true ∨ d = '.' := by
  by_cases hk : 0 ≤ k
  · refine .inl ?_
    unfold positional at h
    rw [if_pos hk, String.toList_append, List.mem_append] at h
    rcases h with h | h
    · exact isDigit_of_mem_repr h
    · split at h
      · cases h
      · rw [zeros, String.toList_ofList] at h
        rw [List.eq_of_mem_replicate h]
        rfl
  · obtain ⟨kept, hdigits, -, htext⟩ := positional_of_neg c (Int.not_le.1 hk)
    rw [htext] at h
    split at h
    · exact .inl (isDigit_of_mem_repr h)
    · simp only [String.toList_append, String.toList_ofList, List.mem_append] at h
      rcases h with (h | h) | h
      · exact .inl (isDigit_of_mem_repr h)
      · exact .inr (List.mem_singleton.1 h)
      · exact .inl (hdigits d h)

/-- A decimal below one has a point. -/
theorem point_mem_positional {c : Nat} {k : Int} (hk : k < 0) (hc : 0 < c)
    (hlt : c < 10 ^ (-k).toNat) : '.' ∈ (positional c k).toList := by
  obtain ⟨kept, -, hkept, htext⟩ := positional_of_neg c hk
  have hne : kept ≠ [] := by
    intro hnil
    have hzero := hkept hnil
    rw [Nat.mod_eq_of_lt hlt] at hzero
    omega
  rw [htext, if_neg (by simpa using hne)]
  simp

/-- The sign that a number is written with. -/
def signText (x : Binary64) : String := if x.negative then "-" else ""

theorem render_eq (x : Binary64) : render x =
    if x.isNaN then "NaN" else if !x.isFinite then signText x ++ "inf"
    else if x.isZero then signText x ++ "0"
    else signText x ++ positional (shortest x).1 (shortest x).2 := rfl

/-- There is no blank in the text of a number. -/
theorem blank_notMem_render (x : Binary64) : ' ' ∉ (render x).toList := by
  have hsign : ∀ s : String, ' ' ∉ s.toList → ' ' ∉ (signText x ++ s).toList := by
    intro s hs
    rw [String.toList_append, List.mem_append, not_or]
    refine ⟨?_, hs⟩
    unfold signText
    split <;> decide
  rw [render_eq]
  split
  · decide
  · split
    · exact hsign _ (by decide)
    · split
      · exact hsign _ (by decide)
      · refine hsign _ fun h => ?_
        rcases mem_positional h with h | h <;> exact absurd h (by decide)

/-! ### Texts of integers -/

variable {x : Binary64} {a : Int}

/-- What is written like an integer is a finite number. -/
theorem isFinite_of_render (h : render x = a.repr) : x.isFinite = true := by
  have hletter : ∀ c : Char, c.isDigit = false → c ≠ '-' → c ∉ (render x).toList := by
    intro c hdigit hsign hc
    rw [h] at hc
    rcases mem_intRepr hc with hc | hc
    · rw [hc] at hdigit
      cases hdigit
    · exact hsign hc
  by_contra hfinite
  rw [Bool.not_eq_true] at hfinite
  have hn := hletter 'n' rfl (by decide)
  have hN := hletter 'N' rfl (by decide)
  rw [render_eq] at hn hN
  split at hn
  · next hnan => simp [hnan] at hN
  · simp [hfinite] at hn

theorem render_of_finite (hfinite : x.isFinite = true) (hzero : x.isZero = false) :
    render x = signText x ++ positional (shortest x).1 (shortest x).2 := by
  rw [render_eq, isNaN_of_isFinite hfinite, hfinite, hzero]
  rfl

/-- **A number that is written like an integer of a word is moderate.** -/
theorem moderate_of_render (ha : Number.fits a = true) (h : render x = a.repr) : x.Moderate := by
  have hfinite := isFinite_of_render h
  refine ⟨hfinite, ?_⟩
  by_contra hgreat
  have hexponent := Int.not_le.1 hgreat
  obtain ⟨c, k, hshortest, hc, hk⟩ := shortest_of_great hexponent
  have hlength := length_intRepr_le ha
  rw [← h, render_of_finite hfinite (isZero_of_lt_exponent (by omega)), hshortest,
    String.length_append] at hlength
  have hdigits := length_positional hc (k := k) (by omega)
  dsimp only at hlength
  omega

/-- The digits of a number below one half are those of a decimal below one. -/
theorem lt_of_onGrid? {c : Nat} {k : Int} (hzero : x.isZero = false) (hneg : x.exponent < 0)
    (hsmall : 2 * x.mantissa < 2 ^ (-x.exponent).toNat)
    (hc : (Interval.around x).onGrid? k = some c) : 0 < c ∧ k < 0 ∧ c < 10 ^ (-k).toNat := by
  have hexponent : (Interval.around x).exponent = x.exponent - 2 := rfl
  obtain ⟨hpos, hle⟩ := Interval.onGrid?_eq_some (scales_eq k _) (Interval.low_pos hzero) hc
  rw [hexponent, Int.toNat_of_nonpos (z := x.exponent - 2) (by omega), Nat.pow_zero,
    Nat.mul_one] at hle
  -- even the upper end of the interval is below one
  have hhigh : (Interval.around x).high < 2 ^ (-(x.exponent - 2)).toNat := by
    have hpow : 2 ^ (-(x.exponent - 2)).toNat = 2 ^ (-x.exponent).toNat * 4 := by
      rw [show (-(x.exponent - 2)).toNat = (-x.exponent).toNat + 2 by omega, Nat.pow_add]
    show 4 * x.mantissa + 2 < _
    omega
  have hbelow : c * 10 ^ k.toNat < 10 ^ (-k).toNat := by
    refine Nat.lt_of_mul_lt_mul_right (a := 2 ^ (-(x.exponent - 2)).toNat) ?_
    calc c * 10 ^ k.toNat * 2 ^ (-(x.exponent - 2)).toNat
        = c * (10 ^ k.toNat * 2 ^ (-(x.exponent - 2)).toNat) := Nat.mul_assoc _ _ _
      _ ≤ (Interval.around x).high * 10 ^ (-k).toNat := hle
      _ < 2 ^ (-(x.exponent - 2)).toNat * 10 ^ (-k).toNat :=
          Nat.mul_lt_mul_of_pos_right hhigh (Nat.pow_pos (by decide))
      _ = 10 ^ (-k).toNat * 2 ^ (-(x.exponent - 2)).toNat := Nat.mul_comm _ _
  have hk : k < 0 := by
    by_contra hk
    rw [Int.toNat_of_nonpos (z := -k) (by omega), Nat.pow_zero] at hbelow
    have := Nat.mul_pos hpos (Nat.pow_pos (n := k.toNat) (show 0 < 10 by decide))
    omega
  rw [Int.toNat_of_nonpos (z := k) (by omega), Nat.pow_zero, Nat.mul_one] at hbelow
  exact ⟨hpos, hk, hbelow⟩

/-- **A number other than zero that is written like an integer is not close to zero.** -/
theorem atLeastHalf_of_render (hzero : x.isZero = false) (h : render x = a.repr) :
    x.AtLeastHalf := by
  have hfinite := isFinite_of_render h
  by_contra hsmall
  unfold AtLeastHalf at hsmall
  rw [Nat.not_le] at hsmall
  have hneg : x.exponent < 0 := by
    by_contra hpos
    rw [Int.toNat_of_nonpos (z := -x.exponent) (by omega), Nat.pow_zero] at hsmall
    have := Nat.mul_pos (mantissa_pos hzero) (Nat.two_pow_pos x.exponent.toNat)
    omega
  rw [Int.toNat_of_nonpos (z := x.exponent) (by omega), Nat.pow_zero, Nat.mul_one] at hsmall
  obtain ⟨n, -, c, hshortest, hc⟩ := exists_shortest hzero
  obtain ⟨hpos, hk, hlt⟩ := lt_of_onGrid? hzero hneg hsmall hc
  have hmem : '.' ∈ a.repr.toList := by
    rw [← h, render_of_finite hfinite hzero, hshortest, String.toList_append]
    exact List.mem_append_right _ (point_mem_positional hk hpos hlt)
  rcases mem_intRepr hmem with hdigit | hsign
  · cases hdigit
  · exact absurd hsign (by decide)

end Decimal

end Bistro
