import SciCalc.Proofs.Number.Nearest

namespace SciCalc.Number

open Float.Model Float.Model.UnpackedFloat

/-- The magnitude counted in units of `10 ^ -10`, as a product of floats counts it. -/
def scaled (q : ℚ) : ℚ := rounded (q * 10 ^ 10)

/-- The whole number of units that a magnitude is rounded to, a half upwards. -/
def units (q : ℚ) : ℕ := ⌊scaled q + 1 / 2⌋₊

theorem magnitude_unitsPerOne : magnitude unitsPerOne = 10 ^ 10 := by
  have hp : parts unitsPerOne = .finite .positive 5242880000000000 (-19) (by decide) := rfl
  unfold magnitude
  rw [hp]
  norm_num

theorem representable_two_pow_52 : Representable (2 ^ 52) := by
  have h := representable_natCast (n := 2 ^ 52) (by norm_num)
  push_cast at h
  exact h

theorem Representable.exists_nat {r : ℚ} (h : Representable r) (hr : 2 ^ 52 ≤ r) :
    ∃ n : ℕ, r = n := by
  obtain ⟨m, e, hm, _, rfl⟩ := h
  obtain hneg | hnonneg := lt_or_ge e 0
  · have hmq : (m : ℚ) ≤ 2 ^ 53 := by exact_mod_cast hm
    have he : (2 : ℚ) ^ e ≤ 2 ^ (-1 : ℤ) := two_zpow_le (by omega)
    have hle : (m : ℚ) * 2 ^ e ≤ 2 ^ 52 := by
      calc (m : ℚ) * 2 ^ e ≤ 2 ^ 53 * 2 ^ (-1 : ℤ) :=
            mul_le_mul hmq he (two_zpow_pos e).le (by positivity)
        _ = 2 ^ 52 := by norm_num
    refine ⟨2 ^ 52, ?_⟩
    rw [le_antisymm hle hr]
    norm_num
  · refine ⟨m * 2 ^ e.toNat, ?_⟩
    have hz : e = (e.toNat : ℤ) := by omega
    conv => lhs; rw [hz, zpow_natCast]
    push_cast
    rfl

section Units

variable {q : ℚ}

theorem scaled_nonneg (q : ℚ) : 0 ≤ scaled q := rounded_nonneg _

@[simp] theorem scaled_zero : scaled 0 = 0 := by
  rw [scaled, zero_mul, rounded_zero]

theorem representable_scaled (hq : 0 ≤ q) : Representable (scaled q) :=
  representable_rounded (by positivity)

theorem units_eq {n : ℕ} (hlo : n - 1 / 2 ≤ scaled q) (hhi : scaled q < n + 1 / 2) :
    units q = n := by
  have h0 := scaled_nonneg q
  unfold units
  rw [Nat.floor_eq_iff (by linarith)]
  constructor
  · linarith
  · linarith

/-- From `2 ^ 52` on a product is whole. -/
theorem units_eq_scaled (hq : 0 ≤ q) (h : 2 ^ 52 ≤ scaled q) : (units q : ℚ) = scaled q := by
  obtain ⟨n, hn⟩ := (representable_scaled hq).exists_nat h
  have hu : units q = n := units_eq (by linarith) (by linarith)
  rw [hu, hn]

@[simp] theorem units_zero : units 0 = 0 := by
  apply units_eq
  · rw [scaled_zero]
    norm_num
  · rw [scaled_zero]
    norm_num

theorem units_mono {p : ℚ} (hp : 0 ≤ p) (h : p ≤ q) : units p ≤ units q := by
  have hscaled : scaled p ≤ scaled q :=
    rounded_mono (by positivity) (mul_le_mul_of_nonneg_right h (by norm_num))
  exact Nat.floor_mono (by linarith)

theorem units_le (h : scaled q < 2 ^ 52) : units q ≤ 2 ^ 52 := by
  have h0 := scaled_nonneg q
  have hlt : units q < 2 ^ 52 + 1 := by
    unfold units
    rw [Nat.floor_lt (by linarith)]
    push_cast
    linarith
  exact Nat.lt_succ_iff.mp hlt

theorem representable_units (hq : 0 ≤ q) : Representable (units q) := by
  obtain h | h := lt_or_ge (scaled q) (2 ^ 52)
  · exact representable_natCast ((units_le h).trans (by decide))
  · rw [units_eq_scaled hq h]
    exact representable_scaled hq

theorem units_lt_two_pow_1024 (hq : 0 ≤ q) (hlt : scaled q < 2 ^ 1024) :
    (units q : ℚ) < 2 ^ 1024 := by
  obtain h | h := lt_or_ge (scaled q) (2 ^ 52)
  · have hle : (units q : ℚ) ≤ 2 ^ 52 := by exact_mod_cast units_le h
    have hp : (2 : ℚ) ^ 52 < 2 ^ 1024 := pow_lt_pow_right₀ one_lt_two (by decide)
    exact lt_of_le_of_lt hle hp
  · rw [units_eq_scaled hq h]
    exact hlt

/-- A quotient by the number of units in one is no larger than the units. -/
theorem rounded_div_lt {n : ℕ} (hn : Representable n) (hlt : (n : ℚ) < 2 ^ 1024) :
    rounded (n / 10 ^ 10) < 2 ^ 1024 := by
  have hle : (n : ℚ) / 10 ^ 10 ≤ n := div_le_self (Nat.cast_nonneg n) (by norm_num)
  exact (hn.rounded_le (div_nonneg (Nat.cast_nonneg n) (by norm_num)) hle).trans_lt hlt

end Units

theorem nearestNat_eq_floor (m : ℕ) (e : ℤ) : nearestNat m e = ⌊(m : ℚ) * 2 ^ e + 1 / 2⌋₊ := by
  unfold nearestNat
  split
  · rename_i he
    have hz : (2 : ℚ) ^ e = 2 ^ e.toNat := by
      rw [← zpow_natCast]
      congr 1
      omega
    have hv : (m : ℚ) * 2 ^ e = (m * Nat.pow 2 e.toNat : ℕ) := by
      rw [hz]
      simp
    rw [hv, eq_comm, Nat.floor_eq_iff (by positivity)]
    constructor
    · linarith
    · linarith
  · rename_i he
    have hz : e = -((-e).toNat : ℤ) := by omega
    generalize (-e).toNat = k at hz
    have hv : (m : ℚ) * 2 ^ e + 1 / 2 =
        ((2 * m + Nat.pow 2 k : ℕ) : ℚ) / (Nat.pow 2 (k + 1) : ℕ) := by
      rw [hz, zpow_neg, zpow_natCast, Nat.pow_eq, Nat.pow_eq]
      push_cast
      rw [pow_succ]
      field_simp
    rw [hv, Nat.floor_div_eq_div]

theorem nearestInt_nearest (s : Sign) {q : ℚ} (hq : 0 ≤ q) (h : rounded q < 2 ^ 1024) :
    nearestInt (nearest s q) = s.apply ⌊rounded q + 1 / 2⌋₊ := by
  unfold nearestInt
  rw [parts_nearest s hq h]
  obtain ⟨hz, hs⟩ | ⟨m, e, hm, _, hr, hs⟩ := shape_cases s hq
  · rw [hs, hz]
    have hf : ⌊(0 : ℚ) + 1 / 2⌋₊ = 0 := by
      rw [Nat.floor_eq_zero]
      norm_num
    rw [hf]
    cases s <;> rfl
  · rw [hs, hr]
    simp only
    rw [nearestNat_eq_floor]

private theorem mul_positive (s : Sign) : s * .positive = s := by
  cases s <;> rfl

private theorem div_positive (s : Sign) : s / .positive = s := by
  cases s <;> rfl

/-- The three roundings of a finite number: it is kept if its product is too large, and otherwise
the sign goes back to the quotient unless that is zero. -/
theorem toTenDecimals_eq {x : Float} (hx : x.isFinite = true) :
    toTenDecimals x =
      if scaled (magnitude x) < 2 ^ 1024 then
        if units (magnitude x) = 0 then nearest .positive 0
        else nearest (sign x) (units (magnitude x) / 10 ^ 10)
      else x := by
  have hq := magnitude_nonneg x
  have hone : unitsPerOne.isFinite = true := rfl
  have hs : sign unitsPerOne = .positive := rfl
  have hmul : x * unitsPerOne = nearest (sign x) (magnitude x * 10 ^ 10) := by
    rw [mul_eq_nearest hx hone, hs, mul_positive, magnitude_unitsPerOne]
  have hscaled : 0 ≤ magnitude x * 10 ^ 10 := by positivity
  have hdiv : ∀ s {p : ℚ}, 0 ≤ p → rounded p = p → p < 2 ^ 1024 →
      nearest s p / unitsPerOne = nearest s (p / 10 ^ 10) := by
    intro s p hp hr hlt
    have hf : (nearest s p).isFinite = true := (isFinite_nearest s hp).mpr (by rw [hr]; exact hlt)
    have hne : magnitude unitsPerOne ≠ 0 := by
      rw [magnitude_unitsPerOne]
      norm_num
    rw [div_eq_nearest hf hone hne, sign_nearest s hp, hs, div_positive,
      magnitude_nearest s hp (by rw [hr]; exact hlt), hr, magnitude_unitsPerOne]
  unfold toTenDecimals
  simp only
  rw [hmul]
  by_cases hlt : scaled (magnitude x) < 2 ^ 1024
  · rw [if_pos hlt, if_pos ((isFinite_nearest (sign x) hscaled).mpr hlt),
      nearestInt_nearest (sign x) hscaled hlt]
    change ofInt ((sign x).apply (units (magnitude x))) / unitsPerOne = _
    by_cases h0 : units (magnitude x) = 0
    · have ha : (sign x).apply ((0 : ℕ) : ℤ) = 0 := by
        cases sign x <;> rfl
      rw [if_pos h0, h0, ha, ofInt_zero, hdiv .positive le_rfl rounded_zero (by norm_num), zero_div]
    · rw [if_neg h0, ofInt_apply (sign x) (Nat.pos_of_ne_zero h0)]
      have hr := (representable_units hq).rounded_eq
      exact hdiv (sign x) (Nat.cast_nonneg _) hr (units_lt_two_pow_1024 hq hlt)
  · rw [if_neg hlt, if_neg ((isFinite_nearest (sign x) hscaled).not.mpr hlt)]

/-- Rounding a result again moves it: products have 52 bits before the point, so that they are
counted in halves, and the product of the result is nearer to the half than to the whole number
below it. -/
def Drifts (v : ℚ) : Prop :=
  2 ^ 18 ≤ v ∧ v * 10 ^ 10 < 2 ^ 52 ∧ 1 / 4 < Int.fract (v * 10 ^ 10) ∧
  Int.fract (v * 10 ^ 10) < 1 / 2

section Drift

variable {n k : ℕ} {g : ℤ}

/-- A quotient of units is a number `k` of 53 bits, counted in `2 ^ g`, and its product is near to
the units. -/
theorem exists_grid (hn : 0 < n) :
    ∃ (k : ℕ) (g : ℤ), -86 ≤ g ∧ 2 ^ 52 ≤ k ∧ k ≤ 2 ^ 53 ∧ rounded (n / 10 ^ 10) = k * 2 ^ g ∧
      roundEven (n / 10 ^ 10 / 2 ^ g) = k ∧
      |(k : ℚ) * 2 ^ g * 10 ^ 10 - n| ≤ 10 ^ 10 * 2 ^ g / 2 := by
  have hn1 : (1 : ℚ) ≤ n := by exact_mod_cast hn
  have hp : 0 < (n : ℚ) / 10 ^ 10 := by positivity
  have hg : -86 ≤ grain ((n : ℚ) / 10 ^ 10) := by
    apply le_grain_of_le
    rw [le_div_iff₀ (by norm_num)]
    norm_num
    linarith
  refine ⟨_, grain ((n : ℚ) / 10 ^ 10), hg, le_roundEven_units hp (by omega),
    roundEven_units_le hp.le, rfl, rfl, ?_⟩
  have herr := abs_rounded_sub_le hp.le
  have he : (roundEven ((n : ℚ) / 10 ^ 10 / 2 ^ grain ((n : ℚ) / 10 ^ 10)) : ℚ) *
      2 ^ grain ((n : ℚ) / 10 ^ 10) * 10 ^ 10 - n =
        (rounded (n / 10 ^ 10) - n / 10 ^ 10) * 10 ^ 10 := by
    rw [sub_mul, div_mul_cancel₀ _ (by norm_num)]
    rfl
  rw [he, abs_mul, abs_of_nonneg (by norm_num : (0 : ℚ) ≤ 10 ^ 10)]
  linarith

/-- A product of the smallest or the largest mantissa is exact. -/
theorem scaled_eq_of_two_pow (hg : -86 ≤ g) (hk : k = 2 ^ 52 ∨ k = 2 ^ 53) :
    scaled (k * 2 ^ g) = k * 2 ^ g * 10 ^ 10 := by
  have hrep : ∀ e : ℤ, -86 ≤ e → Representable ((2 : ℚ) ^ e * 10 ^ 10) := by
    intro e he
    refine ⟨5 ^ 10, e + 10, by norm_num, by omega, ?_⟩
    rw [two_zpow_add]
    norm_num
    ring
  unfold scaled
  obtain rfl | rfl := hk
  · have he : ((2 ^ 52 : ℕ) : ℚ) * 2 ^ g = 2 ^ (52 + g) := by
      rw [two_zpow_add]
      norm_num
    rw [he]
    exact (hrep _ (by omega)).rounded_eq
  · have he : ((2 ^ 53 : ℕ) : ℚ) * 2 ^ g = 2 ^ (53 + g) := by
      rw [two_zpow_add]
      norm_num
    rw [he]
    exact (hrep _ (by omega)).rounded_eq

/-- A result whose product is whole is kept: the product is a float at least as near as the units
that the result was made of. -/
theorem rounded_units_of_le (hr : Representable n) (hg : -86 ≤ g) (hk : 2 ^ 52 ≤ k)
    (hk' : k ≤ 2 ^ 53) (hround : roundEven (n / 10 ^ 10 / 2 ^ g) = k)
    (hw : 2 ^ 52 ≤ (k : ℚ) * 2 ^ g * 10 ^ 10) :
    rounded (units (k * 2 ^ g) / 10 ^ 10) = k * 2 ^ g := by
  have hp := two_zpow_pos g
  have hv : (0 : ℚ) ≤ k * 2 ^ g := mul_nonneg (Nat.cast_nonneg k) hp.le
  have hle : 2 ^ 52 ≤ scaled (k * 2 ^ g) := representable_two_pow_52.le_rounded hw
  rw [units_eq_scaled hv hle]
  by_cases hends : k = 2 ^ 52 ∨ k = 2 ^ 53
  · rw [scaled_eq_of_two_pow hg hends, mul_div_cancel_right₀ _ (by norm_num)]
    exact Representable.rounded_eq ⟨k, g, hk', by omega, rfl⟩
  · have hkl : 2 ^ 52 < k := by omega
    have hkr : k < 2 ^ 53 := by omega
    have hs : 0 ≤ scaled (k * 2 ^ g) := scaled_nonneg _
    have hunit : (0 : ℚ) < 10 ^ 10 * 2 ^ g := by positivity
    have hdist : ∀ x : ℚ,
        (k : ℚ) - x / 10 ^ 10 / 2 ^ g = (k * 2 ^ g * 10 ^ 10 - x) / (10 ^ 10 * 2 ^ g) := by
      intro x
      field_simp
    rw [rounded_eq_iff (by positivity) (by omega) hkl hkr]
    apply roundEven_of_abs_le (by positivity) (by positivity) hround
    rw [hdist, hdist, abs_div, abs_div]
    apply div_le_div_of_nonneg_right _ (abs_nonneg _)
    rw [abs_sub_comm, abs_sub_comm _ (n : ℚ)]
    exact abs_rounded_sub_le_abs (by positivity) hr

/-- Products below `2 ^ 52` come from small units of the result. -/
theorem grid_le_of_lt (hk : 2 ^ 52 ≤ k) (hw : (k : ℚ) * 2 ^ g * 10 ^ 10 < 2 ^ 52) : g ≤ -34 := by
  have hp := two_zpow_pos g
  have hkq : (2 : ℚ) ^ 52 ≤ k := by exact_mod_cast hk
  have hlow : (2 : ℚ) ^ (g + 85) ≤ k * 2 ^ g * 10 ^ 10 := by
    have h85 : (2 : ℚ) ^ (g + 85) = 2 ^ 52 * 2 ^ g * 2 ^ 33 := by
      rw [two_zpow_add]
      norm_num
      ring
    rw [h85]
    exact mul_le_mul (mul_le_mul_of_nonneg_right hkq hp.le) (by norm_num) (by norm_num)
      (by positivity)
  have hlt : (2 : ℚ) ^ (g + 85) < 2 ^ (52 : ℤ) := hlow.trans_lt (by exact_mod_cast hw)
  have h := (zpow_lt_zpow_iff_right₀ (by norm_num : (1 : ℚ) < 2)).mp hlt
  omega

/-- No whole number is at most a quarter below, or a half above, what lies in the second quarter of
a unit. -/
private theorem not_fract (n : ℕ) {w : ℚ} (hlo : -(1 / 2) ≤ w - n) (hhi : w - n ≤ 1 / 4) :
    ¬(1 / 4 < Int.fract w ∧ Int.fract w < 1 / 2) := by
  intro hf
  have hw : w = ⌊w⌋ + Int.fract w := (Int.floor_add_fract w).symm
  have h1 : (⌊w⌋ : ℚ) < (n : ℤ) := by
    push_cast
    linarith
  have h2 : ((n : ℤ) : ℚ) < (⌊w⌋ + 1 : ℤ) := by
    push_cast
    linarith
  have h1' : ⌊w⌋ < (n : ℤ) := by exact_mod_cast h1
  have h2' : (n : ℤ) < ⌊w⌋ + 1 := by exact_mod_cast h2
  omega

/-- Below `2 ^ 52` a product that is nearer to a whole number than to its quarters is rounded to
it. -/
theorem units_eq_of_abs_lt {q : ℚ} (hq : 0 ≤ q) (hw : q * 10 ^ 10 < 2 ^ 52)
    (herr : |q * 10 ^ 10 - n| < 1 / 4) : units q = n := by
  have hstep : |scaled q - q * 10 ^ 10| ≤ 1 / 4 := by
    obtain h0 | hpos := hq.eq_or_lt
    · rw [← h0, zero_mul, sub_zero, scaled_zero, abs_zero]
      norm_num
    have hgrain : grain (q * 10 ^ 10) ≤ -1 :=
      grain_le_of_lt (by positivity) (by norm_num) (by exact_mod_cast hw)
    calc |scaled q - q * 10 ^ 10| ≤ 2 ^ grain (q * 10 ^ 10) / 2 :=
            abs_rounded_sub_le (by positivity)
      _ ≤ 2 ^ (-1 : ℤ) / 2 := div_le_div_of_nonneg_right (two_zpow_le hgrain) (by norm_num)
      _ = 1 / 4 := by norm_num
  obtain ⟨hl, hr⟩ := abs_lt.mp herr
  obtain ⟨hl', hr'⟩ := abs_le.mp hstep
  generalize q * 10 ^ 10 = w at hl hr hl' hr'
  exact units_eq (by linarith) (by linarith)

/-- Products from `2 ^ 51` on are counted in halves. -/
theorem scaled_eq_of_half {m : ℕ} {q : ℚ} (hlo : 2 ^ 51 ≤ q * 10 ^ 10) (hhi : q * 10 ^ 10 < 2 ^ 52)
    (hm : roundEven (2 * (q * 10 ^ 10)) = m) : scaled q = m / 2 := by
  have hpos : 0 < q * 10 ^ 10 := lt_of_lt_of_le (by norm_num) hlo
  have hgrain : grain (q * 10 ^ 10) = -1 := by
    apply le_antisymm
    · exact grain_le_of_lt hpos (by norm_num) (by exact_mod_cast hhi)
    · exact le_grain_of_le (by exact_mod_cast hlo)
  have h2 : q * 10 ^ 10 / 2 ^ (-1 : ℤ) = 2 * (q * 10 ^ 10) := by
    rw [zpow_neg_one, div_inv_eq_mul, mul_comm]
  unfold scaled rounded
  rw [hgrain, h2, hm, zpow_neg_one, div_eq_mul_inv]

/-- Among products that are counted in halves, one behind the first quarter of a unit goes to the
half, which goes up. In front of a whole number the half goes up to that number. -/
theorem units_of_half {q : ℚ} (hlo : 2 ^ 51 ≤ q * 10 ^ 10) (hhi : q * 10 ^ 10 < 2 ^ 52)
    (herr : |q * 10 ^ 10 - n| ≤ 3 / 10) :
    units q = if 1 / 4 < q * 10 ^ 10 - n then n + 1 else n := by
  have hscaled : ∀ m, roundEven (2 * (q * 10 ^ 10)) = m → scaled q = m / 2 :=
    fun m => scaled_eq_of_half hlo hhi
  obtain ⟨hl, hr⟩ := abs_le.mp herr
  generalize q * 10 ^ 10 = w at *
  have hw : 0 ≤ 2 * w := by linarith
  split_ifs with hq
  · have hm : roundEven (2 * w) = 2 * n + 1 := by
      rw [roundEven_eq_iff hw]
      left
      push_cast
      rw [abs_lt]
      constructor
      · linarith
      · linarith
    have hs := hscaled _ hm
    push_cast at hs
    exact units_eq (by push_cast; linarith) (by push_cast; linarith)
  obtain hneg | hnear := lt_or_ge (w - n) (-(1 / 4))
  · have hn : 1 ≤ 2 * n := by
      have h : (0 : ℚ) < n := by linarith
      have h' : 0 < n := by exact_mod_cast h
      omega
    have hm : roundEven (2 * w) = 2 * n - 1 := by
      rw [roundEven_eq_iff hw]
      left
      push_cast [hn]
      rw [abs_lt]
      constructor
      · linarith
      · linarith
    have hs := hscaled _ hm
    push_cast [hn] at hs
    exact units_eq (by linarith) (by linarith)
  · have hle : |((2 * n : ℕ) : ℚ) - 2 * w| ≤ 1 / 2 := by
      push_cast
      rw [abs_le]
      constructor
      · linarith
      · linarith
    have hm : roundEven (2 * w) = 2 * n := by
      rw [roundEven_eq_iff hw]
      obtain h | h := lt_or_eq_of_le hle
      · exact Or.inl h
      · exact Or.inr ⟨h, Nat.mul_mod_right 2 n⟩
    have hs := hscaled _ hm
    push_cast at hs
    exact units_eq (by linarith) (by linarith)

/-- One unit more is more than the error of a quotient. -/
theorem rounded_succ_ne {v : ℚ} (hw : v * 10 ^ 10 < 2 ^ 52) (hlo : 1 / 4 < v * 10 ^ 10 - n)
    (hhi : v * 10 ^ 10 - n ≤ 3 / 10) : rounded ((n + 1 : ℕ) / 10 ^ 10) ≠ v := by
  intro h
  have hp : (0 : ℚ) < ((n + 1 : ℕ) : ℚ) / 10 ^ 10 := by positivity
  have hgrain : grain (((n + 1 : ℕ) : ℚ) / 10 ^ 10) ≤ -34 := by
    apply grain_le_of_lt hp (by norm_num)
    rw [div_lt_iff₀ (by norm_num)]
    push_cast
    norm_num at hw ⊢
    linarith
  have herr : |v - ((n + 1 : ℕ) : ℚ) / 10 ^ 10| ≤ 2 ^ (-34 : ℤ) / 2 := by
    rw [← h]
    have hstep := div_le_div_of_nonneg_right (two_zpow_le hgrain) (by norm_num : (0 : ℚ) ≤ 2)
    exact (abs_rounded_sub_le hp.le).trans hstep
  obtain ⟨hl, _⟩ := abs_le.mp herr
  push_cast at hl
  norm_num at hl hlo hhi
  linarith

/-- In units small enough the product goes back to the units that the result was made of. -/
theorem rounded_units_iff_of_abs_lt {v : ℚ} (hv : rounded (n / 10 ^ 10) = v)
    (hw : v * 10 ^ 10 < 2 ^ 52) (herr : |v * 10 ^ 10 - n| < 1 / 4) :
    rounded (units v / 10 ^ 10) = v ↔ ¬Drifts v := by
  have hv0 : 0 ≤ v := by
    rw [← hv]
    exact rounded_nonneg _
  have hu := units_eq_of_abs_lt hv0 hw herr
  have hnot : ¬Drifts v := by
    intro h
    obtain ⟨hl, hr⟩ := abs_lt.mp herr
    exact not_fract n (by linarith) hr.le h.2.2
  rw [hu]
  exact ⟨fun _ => hnot, fun _ => hv⟩

/-- Where products are counted in halves the result is kept unless it drifts. -/
theorem rounded_units_iff_of_half {v : ℚ} (hv : rounded (n / 10 ^ 10) = v) (hlo : 2 ^ 18 ≤ v)
    (hw : v * 10 ^ 10 < 2 ^ 52) (herr : |v * 10 ^ 10 - n| ≤ 3 / 10) :
    rounded (units v / 10 ^ 10) = v ↔ ¬Drifts v := by
  have h51 : (2 : ℚ) ^ 51 ≤ v * 10 ^ 10 := by
    norm_num at hlo ⊢
    linarith
  have hu := units_of_half h51 hw herr
  obtain ⟨hl, hr⟩ := abs_le.mp herr
  rw [hu]
  split_ifs with hq
  · have hne := rounded_succ_ne hw hq hr
    have hfract : Int.fract (v * 10 ^ 10) = v * 10 ^ 10 - n := by
      rw [Int.fract_eq_iff]
      generalize v * 10 ^ 10 = w at hq hr
      refine ⟨by linarith, by linarith, n, ?_⟩
      push_cast
      ring
    have hdrift : Drifts v := by
      refine ⟨hlo, hw, ?_⟩
      rw [hfract]
      exact ⟨hq, hr.trans_lt (by norm_num)⟩
    exact ⟨fun h => absurd h hne, fun h => absurd hdrift h⟩
  · have hnot : ¬Drifts v := by
      intro h
      have hl' : -(1 / 2) ≤ v * 10 ^ 10 - n := le_trans (by norm_num) hl
      exact not_fract n hl' (not_lt.mp hq) h.2.2
    exact ⟨fun _ => hnot, fun _ => hv⟩

/-- What units give is kept when it is rounded again unless it drifts. -/
theorem rounded_units_iff (hn : 0 < n) (hr : Representable n) :
    rounded (units (rounded (n / 10 ^ 10)) / 10 ^ 10) = rounded (n / 10 ^ 10) ↔
      ¬Drifts (rounded (n / 10 ^ 10)) := by
  obtain ⟨k, g, hg, hk, hk', hv, hround, herr⟩ := exists_grid hn
  rw [hv]
  obtain hw | hw := lt_or_ge ((k : ℚ) * 2 ^ g * 10 ^ 10) (2 ^ 52)
  · obtain he | hlt := (grid_le_of_lt hk hw).eq_or_lt
    · have hkq : (2 : ℚ) ^ 52 ≤ k := by exact_mod_cast hk
      have h34 : (2 : ℚ) ^ g = 1 / 2 ^ 34 := by
        rw [he]
        norm_num
      have hlo : (2 : ℚ) ^ 18 ≤ k * 2 ^ g := by
        rw [h34, mul_one_div, le_div_iff₀ (by norm_num)]
        exact le_trans (by norm_num) hkq
      have herr' : |(k : ℚ) * 2 ^ g * 10 ^ 10 - n| ≤ 3 / 10 := by
        refine herr.trans ?_
        rw [h34]
        norm_num
      exact rounded_units_iff_of_half hv hlo hw herr'
    · have hsmall : |(k : ℚ) * 2 ^ g * 10 ^ 10 - n| < 1 / 4 := by
        have hp : (2 : ℚ) ^ g ≤ 2 ^ (-35 : ℤ) := two_zpow_le (by omega)
        calc |(k : ℚ) * 2 ^ g * 10 ^ 10 - n| ≤ 10 ^ 10 * 2 ^ g / 2 := herr
          _ ≤ 10 ^ 10 * 2 ^ (-35 : ℤ) / 2 := by
              apply div_le_div_of_nonneg_right _ (by norm_num)
              exact mul_le_mul_of_nonneg_left hp (by norm_num)
          _ < 1 / 4 := by norm_num
      exact rounded_units_iff_of_abs_lt hv hw hsmall
  · have hnot : ¬Drifts (k * 2 ^ g) := by
      intro h
      exact absurd h.2.1 (not_lt.mpr hw)
    exact ⟨fun _ => hnot, fun _ => rounded_units_of_le hr hg hk hk' hround hw⟩

theorem rounded_units_pos (hn : 0 < n) : 0 < rounded ((n : ℚ) / 10 ^ 10) := by
  obtain ⟨k, g, _, hk, _, hv, _⟩ := exists_grid hn
  have hkq : (0 : ℚ) < k := by exact_mod_cast Nat.lt_of_lt_of_le (by decide) hk
  rw [hv]
  exact mul_pos hkq (two_zpow_pos g)

end Drift

theorem Drifts.scaled_lt {v : ℚ} (h : Drifts v) : scaled v < 2 ^ 1024 := by
  have hv : 0 ≤ v := le_trans (by norm_num) h.1
  have hp : (2 : ℚ) ^ 52 < 2 ^ 1024 := pow_lt_pow_right₀ one_lt_two (by decide)
  exact (representable_two_pow_52.rounded_le (mul_nonneg hv (by norm_num)) h.2.1.le).trans_lt hp

/-- A number rounded to ten decimals is itself, a zero without a sign, or a quotient of units. -/
theorem toTenDecimals_cases {x : Float} (hx : x.isFinite = true) :
    ¬scaled (magnitude x) < 2 ^ 1024 ∧ toTenDecimals x = x ∨
    toTenDecimals x = nearest .positive 0 ∨
    ∃ n : ℕ, 0 < n ∧ Representable n ∧ rounded (n / 10 ^ 10) < 2 ^ 1024 ∧
      toTenDecimals x = nearest (sign x) (n / 10 ^ 10) := by
  have hq := magnitude_nonneg x
  rw [toTenDecimals_eq hx]
  split_ifs with hlt h0
  · exact Or.inr (Or.inl rfl)
  · have hr := representable_units hq
    have hdiv := rounded_div_lt hr (units_lt_two_pow_1024 hq hlt)
    exact Or.inr (Or.inr ⟨_, Nat.pos_of_ne_zero h0, hr, hdiv, rfl⟩)
  · exact Or.inl ⟨hlt, rfl⟩

theorem toTenDecimals_nearest_zero : toTenDecimals (nearest .positive 0) = nearest .positive 0 := by
  rw [toTenDecimals_eq (isFinite_nearest_zero _), magnitude_nearest_zero, scaled_zero, units_zero,
    if_pos (by positivity), if_pos rfl]

theorem isFinite_toTenDecimals {x : Float} (hx : x.isFinite = true) :
    (toTenDecimals x).isFinite = true := by
  obtain ⟨_, h⟩ | h | ⟨n, _, _, hlt, h⟩ := toTenDecimals_cases hx
  · rw [h]
    exact hx
  · rw [h]
    exact isFinite_nearest_zero _
  · rw [h]
    exact (isFinite_nearest _ (by positivity)).mpr hlt

/-- No result is a zero with a sign. -/
theorem toTenDecimals_ne_negative_zero {x : Float} (hx : x.isFinite = true) :
    parts (toTenDecimals x) ≠ .zero .negative := by
  intro hz
  have hm : magnitude (toTenDecimals x) = 0 := by
    unfold magnitude
    rw [hz]
  obtain ⟨hlt, h⟩ | h | ⟨n, hn, _, hlt, h⟩ := toTenDecimals_cases hx
  · rw [h] at hm
    apply hlt
    rw [hm, scaled_zero]
    exact pow_pos (by norm_num) _
  · rw [h, parts_nearest_zero] at hz
    cases hz
  · rw [h, magnitude_nearest _ (by positivity) hlt] at hm
    exact absurd hm (rounded_units_pos hn).ne'

/-- Rounding to ten decimals once more changes exactly what drifts. -/
theorem toTenDecimals_eq_self_iff {x : Float} (hx : x.isFinite = true) :
    toTenDecimals (toTenDecimals x) = toTenDecimals x ↔ ¬Drifts (magnitude (toTenDecimals x)) := by
  obtain ⟨hlt, h⟩ | h | ⟨n, hn, hr, hlt, h⟩ := toTenDecimals_cases hx
  · rw [h, h]
    exact ⟨fun _ hd => hlt hd.scaled_lt, fun _ => rfl⟩
  · have hnot : ¬Drifts 0 := by
      intro hd
      exact absurd hd.1 (by norm_num)
    rw [h, magnitude_nearest_zero, toTenDecimals_nearest_zero]
    exact ⟨fun _ => hnot, fun _ => rfl⟩
  · have hp : (0 : ℚ) ≤ n / 10 ^ 10 := div_nonneg (Nat.cast_nonneg n) (by norm_num)
    have hf : (nearest (sign x) (n / 10 ^ 10)).isFinite = true := (isFinite_nearest _ hp).mpr hlt
    have hm := magnitude_nearest (sign x) hp hlt
    have hpos := rounded_units_pos hn
    have hiff := rounded_units_iff hn hr
    rw [h, toTenDecimals_eq hf, hm, sign_nearest _ hp]
    rw [← hiff]
    split_ifs with hlarge h0
    · rw [h0, Nat.cast_zero, zero_div, rounded_zero]
      constructor
      · intro he
        rw [← he, magnitude_nearest_zero] at hm
        exact hm
      · intro he
        exact absurd he.symm hpos.ne'
    · have hu := representable_units hpos.le
      have hdiv := rounded_div_lt hu (units_lt_two_pow_1024 hpos.le hlarge)
      exact nearest_eq_iff _ (div_nonneg (Nat.cast_nonneg _) (by norm_num)) hp hdiv hlt
    · refine ⟨fun _ => ?_, fun _ => rfl⟩
      exact hiff.mpr fun hd => hlarge hd.scaled_lt

end SciCalc.Number
