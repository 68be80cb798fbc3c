import SciCalc.Proofs.Number.Order

namespace SciCalc.Number

open Float.Model Float.Model.UnpackedFloat

/-- A magnitude rounded to ten decimals; one that is too large to be counted in units stays as it
is. -/
def tenDecimals (q : ℚ) : ℚ := if scaled q < 2 ^ 1024 then rounded (units q / 10 ^ 10) else q

section Magnitude

variable {p q : ℚ}

@[simp] theorem tenDecimals_zero : tenDecimals 0 = 0 := by
  simp [tenDecimals]

theorem tenDecimals_nonneg (hq : 0 ≤ q) : 0 ≤ tenDecimals q := by
  unfold tenDecimals
  split
  · exact rounded_nonneg _
  · exact hq

/-- Rounding to a whole number of units moves a product by at most a half. -/
theorem abs_units_sub_scaled_le (q : ℚ) : |(units q : ℚ) - scaled q| ≤ 1 / 2 := by
  have h0 := scaled_nonneg q
  have hle : (units q : ℚ) ≤ scaled q + 1 / 2 := Nat.floor_le (by linarith)
  have hlt : scaled q + 1 / 2 < units q + 1 := Nat.lt_floor_add_one _
  rw [abs_le]
  constructor <;> linarith

/-- What is rounded to no unit is less than half of one. -/
theorem lt_of_units_eq_zero (h : units q = 0) : q * 10 ^ 10 < 1 / 2 := by
  have hhalf : Representable (1 / 2) := ⟨1, -1, by norm_num, by norm_num, by norm_num⟩
  have hlt : scaled q + 1 / 2 < units q + 1 := Nat.lt_floor_add_one _
  rw [h, Nat.cast_zero] at hlt
  by_contra hn
  have hle := hhalf.le_rounded (not_lt.mp hn)
  change 1 / 2 ≤ scaled q at hle
  linarith

theorem le_of_units_pos (hq : 0 ≤ q) (h : 0 < units q) : 1 / 4 ≤ q * 10 ^ 10 := by
  have hquarter : Representable (1 / 4) := ⟨1, -2, by norm_num, by norm_num, by norm_num⟩
  have hone : (1 : ℚ) ≤ units q := by exact_mod_cast h
  have hunits := (abs_le.mp (abs_units_sub_scaled_le q)).2
  by_contra hn
  have hle := hquarter.rounded_le (by positivity) (not_le.mp hn).le
  change scaled q ≤ 1 / 4 at hle
  linarith

/-- A product that is at least a unit has the error of a number of 53 bits. -/
theorem abs_scaled_sub_le (hq : 0 ≤ q) (h : 0 < units q) :
    |scaled q - q * 10 ^ 10| ≤ q * 10 ^ 10 / 2 ^ 53 := by
  apply abs_rounded_sub_le_div
  calc (2 : ℚ) ^ (-1022 : ℤ) ≤ 2 ^ (-2 : ℤ) := two_zpow_le (by decide)
    _ = 1 / 4 := by norm_num
    _ ≤ q * 10 ^ 10 := le_of_units_pos hq h

/-- The quotient of the units has the error of a number of 53 bits, and the units are at most three
times the product, as they are at least one. -/
theorem abs_rounded_units_sub_le (hq : 0 ≤ q) (h : 0 < units q) :
    |rounded (units q / 10 ^ 10) - units q / 10 ^ 10| ≤ 3 * q / 2 ^ 53 := by
  have hone : (1 : ℚ) ≤ units q := by exact_mod_cast h
  have hnormal : (2 : ℚ) ^ (-1022 : ℤ) ≤ units q / 10 ^ 10 := by
    calc (2 : ℚ) ^ (-1022 : ℤ) ≤ 2 ^ (-34 : ℤ) := two_zpow_le (by decide)
      _ ≤ 1 / 10 ^ 10 := by norm_num
      _ ≤ units q / 10 ^ 10 := div_le_div_of_nonneg_right hone (by norm_num)
  have hthree : (units q : ℚ) ≤ 3 * q * 10 ^ 10 := by
    have hunits := (abs_le.mp (abs_units_sub_scaled_le q)).2
    have hprod := (abs_le.mp (abs_scaled_sub_le hq h)).2
    have hsmall : q * 10 ^ 10 / 2 ^ 53 ≤ q * 10 ^ 10 / 2 :=
      div_le_div_of_nonneg_left (by positivity) (by norm_num) (by norm_num)
    linarith
  calc |rounded (units q / 10 ^ 10) - units q / 10 ^ 10| ≤ (units q : ℚ) / 10 ^ 10 / 2 ^ 53 :=
        abs_rounded_sub_le_div hnormal
    _ ≤ 3 * q / 2 ^ 53 := by
        apply div_le_div_of_nonneg_right _ (by norm_num)
        rwa [div_le_iff₀ (by norm_num)]

/-- Half a unit, the error of the product and that of the quotient. -/
theorem abs_tenDecimals_sub_le (hq : 0 ≤ q) :
    |tenDecimals q - q| ≤ 1 / 2 / 10 ^ 10 + q / 2 ^ 51 := by
  have hbound : 0 ≤ 1 / 2 / 10 ^ 10 + q / 2 ^ 51 := by positivity
  unfold tenDecimals
  split_ifs
  · obtain hzero | hpos := Nat.eq_zero_or_pos (units q)
    · have hlt := lt_of_units_eq_zero hzero
      have hhalf : q ≤ 1 / 2 / 10 ^ 10 := by
        rw [le_div_iff₀ (by norm_num)]
        exact hlt.le
      have hdiv : 0 ≤ q / 2 ^ 51 := by positivity
      rw [hzero, Nat.cast_zero, zero_div, rounded_zero, zero_sub, abs_neg, abs_of_nonneg hq]
      linarith
    · have hunits : |(units q : ℚ) / 10 ^ 10 - q| ≤ (1 / 2 + q * 10 ^ 10 / 2 ^ 53) / 10 ^ 10 := by
        have hsplit : (units q : ℚ) / 10 ^ 10 - q = (units q - q * 10 ^ 10) / 10 ^ 10 := by ring
        rw [hsplit, abs_div, abs_of_pos (by norm_num : (0 : ℚ) < 10 ^ 10)]
        apply div_le_div_of_nonneg_right _ (by norm_num)
        exact (abs_sub_le _ (scaled q) _).trans
          (add_le_add (abs_units_sub_scaled_le q) (abs_scaled_sub_le hq hpos))
      calc |rounded (units q / 10 ^ 10) - q|
          ≤ |rounded (units q / 10 ^ 10) - units q / 10 ^ 10| + |(units q : ℚ) / 10 ^ 10 - q| :=
            abs_sub_le _ _ _
        _ ≤ 3 * q / 2 ^ 53 + (1 / 2 + q * 10 ^ 10 / 2 ^ 53) / 10 ^ 10 :=
            add_le_add (abs_rounded_units_sub_le hq hpos) hunits
        _ = 1 / 2 / 10 ^ 10 + q / 2 ^ 51 := by ring
  · rwa [sub_self, abs_zero]

/-- The units of a magnitude that is counted are below the product of one that is too large to be
counted. -/
theorem units_le_of_le_scaled (hp : 0 ≤ p) (hlt : scaled p < 2 ^ 1024) (hle : 2 ^ 1024 ≤ scaled q)
    (hq : 0 ≤ q) :
    (units p : ℚ) ≤ q * 10 ^ 10 := by
  by_contra hn
  have hround : scaled q ≤ units p :=
    (representable_units hp).rounded_le (by positivity) (not_le.mp hn).le
  exact absurd hle (not_le.mpr (hround.trans_lt (units_lt_two_pow_1024 hp hlt)))

/-- Larger magnitudes are not rounded to smaller ones, also where the larger one is too large to be
counted in units: as it is a number itself, the quotient below it is rounded to no more. -/
theorem tenDecimals_mono (hp : 0 ≤ p) (hq : Representable q) (h : p ≤ q) :
    tenDecimals p ≤ tenDecimals q := by
  have hscaled : scaled p ≤ scaled q :=
    rounded_mono (by positivity) (mul_le_mul_of_nonneg_right h (by norm_num))
  have hquot : (0 : ℚ) ≤ units p / 10 ^ 10 := by positivity
  unfold tenDecimals
  split_ifs with hlt hlt' hlt'
  · apply rounded_mono hquot
    apply div_le_div_of_nonneg_right _ (by norm_num)
    exact_mod_cast units_mono hp h
  · apply hq.rounded_le hquot
    rw [div_le_iff₀ (by norm_num)]
    exact units_le_of_le_scaled hp hlt (not_lt.mp hlt') hq.nonneg
  · exact absurd (hscaled.trans_lt hlt') hlt
  · exact h

end Magnitude

/-- The number of sign `s` and magnitude `q`. -/
def applySign (s : Sign) (q : ℚ) : ℚ :=
  match s with
  | .positive => q
  | .negative => -q

section Value

variable {x y : Float}

theorem toRat_eq_applySign (x : Float) : toRat x = applySign (sign x) (magnitude x) := rfl

@[simp] theorem applySign_zero (s : Sign) : applySign s 0 = 0 := by
  cases s with
  | positive => rfl
  | negative => exact neg_zero

@[simp] theorem abs_applySign (s : Sign) (q : ℚ) : |applySign s q| = |q| := by
  cases s with
  | positive => rfl
  | negative => exact abs_neg q

theorem applySign_sub (s : Sign) (p q : ℚ) :
    applySign s p - applySign s q = applySign s (p - q) := by
  cases s with
  | positive => rfl
  | negative => exact (neg_sub_neg p q).trans (neg_sub p q).symm

theorem toRat_nearest (s : Sign) {q : ℚ} (hq : 0 ≤ q) (h : rounded q < 2 ^ 1024) :
    toRat (nearest s q) = applySign s (rounded q) := by
  rw [toRat_eq_applySign, sign_nearest s hq, magnitude_nearest s hq h]

theorem representable_magnitude (hx : x.isFinite = true) : Representable (magnitude x) := by
  obtain ⟨_, hm⟩ | ⟨m, e, _, _, hm, hc, _⟩ := parts_cases hx
  · exact ⟨0, 0, by decide, by decide, by simpa using hm⟩
  · exact ⟨m, e, hc.lt.le, hc.ge, hm⟩

/-- A number keeps its sign and its magnitude is rounded. -/
theorem toRat_toTenDecimals (hx : x.isFinite = true) :
    toRat (toTenDecimals x) = applySign (sign x) (tenDecimals (magnitude x)) := by
  have hq := magnitude_nonneg x
  rw [toTenDecimals_eq hx]
  unfold tenDecimals
  split_ifs with hlt hzero
  · rw [toRat_nearest _ le_rfl (by rw [rounded_zero]; positivity), hzero, Nat.cast_zero, zero_div,
      rounded_zero, applySign_zero, applySign_zero]
  · have hfit := rounded_div_lt (representable_units hq) (units_lt_two_pow_1024 hq hlt)
    exact toRat_nearest (sign x) (div_nonneg (Nat.cast_nonneg _) (by norm_num)) hfit
  · exact toRat_eq_applySign x

theorem abs_toRat_toTenDecimals_sub_le (hx : x.isFinite = true) :
    |toRat (toTenDecimals x) - toRat x| ≤ 1 / 2 / 10 ^ 10 + |toRat x| / 2 ^ 51 := by
  have hq := magnitude_nonneg x
  rw [toRat_toTenDecimals hx, toRat_eq_applySign, applySign_sub, abs_applySign, abs_applySign,
    abs_of_nonneg hq]
  exact abs_tenDecimals_sub_le hq

/-- The magnitudes of negative numbers are ordered the other way round, and so are their
roundings. -/
theorem toTenDecimals_mono (hx : x.isFinite = true) (hy : y.isFinite = true) (h : x ≤ y) :
    toTenDecimals x ≤ toTenDecimals y := by
  have hp := magnitude_nonneg x
  have hq := magnitude_nonneg y
  have hp' := tenDecimals_nonneg hp
  have hq' := tenDecimals_nonneg hq
  rw [le_iff_toRat_le hx hy, toRat_eq_applySign, toRat_eq_applySign] at h
  rw [le_iff_toRat_le (isFinite_toTenDecimals hx) (isFinite_toTenDecimals hy),
    toRat_toTenDecimals hx, toRat_toTenDecimals hy]
  cases hs : sign x with
  | positive =>
    rw [hs] at h
    cases ht : sign y with
    | positive =>
      rw [ht] at h
      exact tenDecimals_mono hp (representable_magnitude hy) h
    | negative =>
      rw [ht] at h
      -- both magnitudes are zero
      have hle : magnitude x ≤ -magnitude y := h
      have hx0 : magnitude x = 0 := by linarith
      have hy0 : magnitude y = 0 := by linarith
      rw [hx0, hy0, tenDecimals_zero, applySign_zero, applySign_zero]
  | negative =>
    rw [hs] at h
    cases ht : sign y with
    | positive =>
      exact (neg_nonpos.mpr hp').trans hq'
    | negative =>
      rw [ht] at h
      exact neg_le_neg (tenDecimals_mono hq (representable_magnitude hx) (neg_le_neg_iff.mp h))

end Value

end SciCalc.Number
