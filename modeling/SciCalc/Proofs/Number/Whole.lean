import SciCalc.Proofs.Number.TenDecimals

namespace SciCalc.Number

open Float.Model Float.Model.UnpackedFloat

/-- The product of the whole number `n` is `5 ^ 10 * n` times `2 ^ 10`. These are the units in which
a float counts `5 ^ 10 * n` if that has as many bits as it can have. -/
def productUnit (n : ℕ) : ℕ := 2 ^ (n.log2 - 28)

/-- Rounding to ten decimals moves the whole number `n`: its product has as many bits as it can
have, and lies more than `5 ^ 10 / 2 ^ 25` of a unit away from the multiples of the unit next to
it. -/
def Strays (n : ℕ) : Prop :=
  2 ^ (n.log2 + 24) ≤ 5 ^ 10 * n ∧
  5 ^ 10 * productUnit n < 2 ^ 25 * (5 ^ 10 * n % productUnit n) ∧
  2 ^ 25 * (5 ^ 10 * n % productUnit n) + 5 ^ 10 * productUnit n < 2 ^ 25 * productUnit n

instance : DecidablePred Strays := fun n =>
  inferInstanceAs (Decidable (2 ^ (n.log2 + 24) ≤ 5 ^ 10 * n ∧
    5 ^ 10 * productUnit n < 2 ^ 25 * (5 ^ 10 * n % productUnit n) ∧
    2 ^ 25 * (5 ^ 10 * n % productUnit n) + 5 ^ 10 * productUnit n < 2 ^ 25 * productUnit n))

section Product

variable {n l : ℕ}

/-- The product of a whole number is rounded to a whole number. -/
theorem units_natCast (n : ℕ) : (units n : ℚ) = scaled n := by
  have hn : (0 : ℚ) ≤ n := Nat.cast_nonneg n
  obtain hlt | hle := lt_or_ge (scaled n) (2 ^ 52)
  · have hw : (n : ℚ) * 10 ^ 10 < 2 ^ 52 := by
      by_contra hge
      exact absurd hlt (not_lt.mpr (representable_two_pow_52.le_rounded (not_lt.mp hge)))
    have hexact : scaled n = (n * 10 ^ 10 : ℕ) := by
      have hr : n * 10 ^ 10 ≤ 2 ^ 53 := by
        have h : n * 10 ^ 10 < 2 ^ 52 := by exact_mod_cast hw
        omega
      have h := (representable_natCast hr).rounded_eq
      push_cast at h ⊢
      exact h
    have hu : units n = n * 10 ^ 10 :=
      units_eq (by rw [hexact]; linarith) (by rw [hexact]; linarith)
    rw [hu, hexact]
  · exact units_eq_scaled hn hle

/-- A whole number with an exact product is kept. -/
theorem rounded_scaled_of_exact (hn : n ≤ 2 ^ 53) (h : scaled n = n * 10 ^ 10) :
    rounded (scaled n / 10 ^ 10) = n := by
  rw [h, mul_div_cancel_right₀ _ (by norm_num), (representable_natCast hn).rounded_eq]

theorem scaled_of_lt (h : n < 2 ^ 29) : scaled n = n * 10 ^ 10 := by
  refine Representable.rounded_eq ⟨5 ^ 10 * n, 10, by omega, by decide, ?_⟩
  push_cast
  norm_num
  ring

theorem scaled_two_pow (l : ℕ) : scaled (2 ^ l : ℕ) = (2 ^ l : ℕ) * 10 ^ 10 := by
  have h := scaled_eq_of_two_pow (g := (l : ℤ) - 52) (k := 2 ^ 52) (by omega) (Or.inl rfl)
  have hv : ((2 ^ 52 : ℕ) : ℚ) * 2 ^ ((l : ℤ) - 52) = (2 ^ l : ℕ) := by
    have hz : (2 : ℚ) ^ (52 : ℤ) * 2 ^ ((l : ℤ) - 52) = 2 ^ (l : ℤ) := by
      rw [← two_zpow_add]
      congr 1
      omega
    push_cast
    exact_mod_cast hz
  rw [hv] at h
  exact h

/-- A quotient is rounded to a number of 53 bits if the error of the dividend is less than half a
unit. -/
theorem rounded_div_eq_iff {k : ℕ} {g : ℤ} {p : ℚ} (hp : 0 ≤ p) (hg : -1074 ≤ g) (hk : 2 ^ 52 < k)
    (hk' : k < 2 ^ 53) :
    rounded (p / 10 ^ 10) = k * 2 ^ g ↔
      |p - k * 2 ^ g * 10 ^ 10| < 10 ^ 10 * 2 ^ g / 2 ∨
      |p - k * 2 ^ g * 10 ^ 10| = 10 ^ 10 * 2 ^ g / 2 ∧ k % 2 = 0 := by
  have hunit : (0 : ℚ) < 10 ^ 10 * 2 ^ g := by positivity
  have hdist : |(k : ℚ) - p / 10 ^ 10 / 2 ^ g| = |p - k * 2 ^ g * 10 ^ 10| / (10 ^ 10 * 2 ^ g) := by
    have he : (k : ℚ) - p / 10 ^ 10 / 2 ^ g = (k * 2 ^ g * 10 ^ 10 - p) / (10 ^ 10 * 2 ^ g) := by
      field_simp
    rw [he, abs_div, abs_sub_comm, abs_of_pos hunit]
  rw [rounded_eq_iff (by positivity) hg hk hk', roundEven_eq_iff (by positivity), hdist,
    div_lt_iff₀ hunit, div_eq_iff hunit.ne', one_div_mul_eq_div]

/-- A whole number between two powers of two is a number of 53 bits. -/
theorem exists_mantissa (hlo : 2 ^ l < n) (hhi : n < 2 ^ (l + 1)) (hl : l ≤ 52) :
    ∃ k : ℕ, 2 ^ 52 < k ∧ k < 2 ^ 53 ∧ (n : ℚ) = k * 2 ^ ((l : ℤ) - 52) := by
  have hpos : 0 < 2 ^ (52 - l) := by positivity
  refine ⟨n * 2 ^ (52 - l), ?_, ?_, ?_⟩
  · calc 2 ^ 52 = 2 ^ l * 2 ^ (52 - l) := by rw [← pow_add]; congr 1; omega
      _ < n * 2 ^ (52 - l) := Nat.mul_lt_mul_of_pos_right hlo hpos
  · calc n * 2 ^ (52 - l) < 2 ^ (l + 1) * 2 ^ (52 - l) := Nat.mul_lt_mul_of_pos_right hhi hpos
      _ = 2 ^ 53 := by rw [← pow_add]; congr 1; omega
  · have hone : (2 : ℚ) ^ (52 - l) * 2 ^ ((l : ℤ) - 52) = 1 := by
      rw [← zpow_natCast, ← two_zpow_add]
      have h0 : ((52 - l : ℕ) : ℤ) + ((l : ℤ) - 52) = 0 := by omega
      rw [h0, zpow_zero]
    push_cast
    rw [mul_assoc, hone, mul_one]

private theorem two_zpow_eq_pow_mul {e : ℤ} {a b : ℕ} (h : e = a + b) :
    (2 : ℚ) ^ e = 2 ^ a * 2 ^ b := by
  rw [h, two_zpow_add, zpow_natCast, zpow_natCast]

private theorem product_pos (hn : 0 < n) : (0 : ℚ) < n * 10 ^ 10 :=
  mul_pos (Nat.cast_pos.mpr hn) (by norm_num)

private theorem product_eq (n : ℕ) : (n : ℚ) * 10 ^ 10 = 5 ^ 10 * n * 2 ^ 10 := by
  norm_num
  ring

theorem product_lt (hhi : n < 2 ^ (l + 1)) : (n : ℚ) * 10 ^ 10 < 2 ^ ((l : ℤ) - 18 + 53) := by
  have h : (n : ℚ) < 2 ^ (l + 1) := by exact_mod_cast hhi
  have hz : (2 : ℚ) ^ ((l : ℤ) - 18 + 53) = 2 ^ (l + 1) * 2 ^ 34 := two_zpow_eq_pow_mul (by omega)
  calc (n : ℚ) * 10 ^ 10 < 2 ^ (l + 1) * 10 ^ 10 := mul_lt_mul_of_pos_right h (by norm_num)
    _ ≤ 2 ^ (l + 1) * 2 ^ 34 := mul_le_mul_of_nonneg_left (by norm_num) (by positivity)
    _ = 2 ^ ((l : ℤ) - 18 + 53) := hz.symm

/-- A product that has not as many bits as it can have is near enough. -/
theorem rounded_scaled_of_lt (hlo : 2 ^ l < n) (hhi : n < 2 ^ (l + 1)) (hl : l ≤ 52)
    (h : 5 ^ 10 * n < 2 ^ (l + 24)) : rounded (scaled n / 10 ^ 10) = n := by
  obtain ⟨k, hk, hk', hn⟩ := exists_mantissa hlo hhi hl
  have hpos : (0 : ℚ) < n * 10 ^ 10 := product_pos (Nat.zero_lt_of_lt hlo)
  have hgrain : grain ((n : ℚ) * 10 ^ 10) ≤ (l : ℤ) - 19 := by
    apply grain_le_of_lt hpos (by omega)
    have hq : (5 : ℚ) ^ 10 * n < 2 ^ (l + 24) := by exact_mod_cast h
    have hz : (2 : ℚ) ^ ((l : ℤ) - 19 + 53) = 2 ^ (l + 24) * 2 ^ 10 :=
      two_zpow_eq_pow_mul (by omega)
    rw [hz]
    norm_num at hq ⊢
    linarith
  have herr : |scaled n - n * 10 ^ 10| < 10 ^ 10 * 2 ^ ((l : ℤ) - 52) / 2 := by
    have hp := two_zpow_pos ((l : ℤ) - 52)
    have hz : (2 : ℚ) ^ ((l : ℤ) - 19) = 2 ^ 33 * 2 ^ ((l : ℤ) - 52) := by
      rw [← zpow_natCast, ← two_zpow_add]
      congr 1
      push_cast
      ring
    calc |scaled n - n * 10 ^ 10| ≤ 2 ^ grain ((n : ℚ) * 10 ^ 10) / 2 := abs_rounded_sub_le hpos.le
      _ ≤ 2 ^ ((l : ℤ) - 19) / 2 := div_le_div_of_nonneg_right (two_zpow_le hgrain) (by norm_num)
      _ < 10 ^ 10 * 2 ^ ((l : ℤ) - 52) / 2 := by
          rw [hz]
          norm_num at hp ⊢
          linarith
  rw [hn] at herr ⊢
  exact (rounded_div_eq_iff (scaled_nonneg _) (by omega) hk hk').mpr (Or.inl herr)

theorem grain_product (hlo : 2 ^ l < n) (hhi : n < 2 ^ (l + 1)) (h : 2 ^ (l + 24) ≤ 5 ^ 10 * n) :
    grain ((n : ℚ) * 10 ^ 10) = (l : ℤ) - 18 := by
  apply le_antisymm
  · exact grain_le_of_lt (product_pos (Nat.zero_lt_of_lt hlo)) (by omega) (product_lt hhi)
  · apply le_grain_of_le
    have hq : (2 : ℚ) ^ (l + 24) ≤ 5 ^ 10 * n := by exact_mod_cast h
    have hz : (2 : ℚ) ^ ((l : ℤ) - 18 + 52) = 2 ^ (l + 24) * 2 ^ 10 :=
      two_zpow_eq_pow_mul (by omega)
    rw [hz, product_eq]
    exact mul_le_mul_of_nonneg_right hq (by norm_num)

/-- The error of a product with as many bits as it can have is its distance from the nearer of the
two multiples of its units around. -/
theorem abs_scaled_sub_eq {r : ℕ} (hlo : 2 ^ l < n) (hhi : n < 2 ^ (l + 1)) (hl : 28 ≤ l)
    (h : 2 ^ (l + 24) ≤ 5 ^ 10 * n) (hr : 5 ^ 10 * n % 2 ^ (l - 28) = r) :
    |scaled n - n * 10 ^ 10| = min (r : ℚ) (2 ^ (l - 28) - r) * 2 ^ 10 := by
  have hgrain := grain_product hlo hhi h
  have hunit : (2 : ℚ) ^ ((l : ℤ) - 18) = (2 ^ (l - 28) : ℕ) * 2 ^ 10 := by
    push_cast
    exact two_zpow_eq_pow_mul (by omega)
  have hmin := abs_roundEven_div_sub (5 ^ 10 * n) (Nat.two_pow_pos (l - 28))
  rw [hr] at hmin
  have hu : (0 : ℚ) < (2 ^ (l - 28) : ℕ) := by exact_mod_cast Nat.two_pow_pos (l - 28)
  have hcast : (2 : ℚ) ^ (l - 28) = (2 ^ (l - 28) : ℕ) := by push_cast; rfl
  rw [hcast]
  generalize 2 ^ (l - 28) = u at hunit hmin hu
  have hdiv : (n : ℚ) * 10 ^ 10 / (u * 2 ^ 10) = ((5 ^ 10 * n : ℕ) : ℚ) / u := by
    rw [product_eq, mul_div_mul_right _ _ (by norm_num)]
    push_cast
    rfl
  have herr : scaled n - n * 10 ^ 10 =
      (roundEven (((5 ^ 10 * n : ℕ) : ℚ) / u) - ((5 ^ 10 * n : ℕ) : ℚ) / u) * (u * 2 ^ 10) := by
    unfold scaled rounded
    rw [hgrain, hunit, hdiv, sub_mul, ← hdiv, div_mul_cancel₀ _ (by positivity)]
  have hscale : (0 : ℚ) ≤ u * 2 ^ 10 := by positivity
  rw [herr, abs_mul, abs_of_nonneg hscale, hmin, ← mul_assoc, div_mul_cancel₀ _ hu.ne']

/-- No product lies where the error of a quotient is exactly half a unit, as `5 ^ 10` is odd. -/
theorem five_pow_mul_two_pow_ne {j : ℕ} (hj : j ≤ 24) (d : ℕ) : 2 ^ 25 * d ≠ 5 ^ 10 * 2 ^ j := by
  intro h
  have hsplit : 2 ^ 25 = 2 ^ (24 - j) * 2 * 2 ^ j := by
    rw [← pow_succ, ← pow_add]
    congr 1
    omega
  rw [hsplit, mul_right_comm] at h
  have hcancel := Nat.eq_of_mul_eq_mul_right (by positivity) h
  have hmod := congrArg (· % 2) hcancel
  simp only [mul_right_comm _ 2 d, Nat.mul_mod_left] at hmod
  exact absurd hmod (by decide)

/-- A product with as many bits as it can have is near enough if it is nearer to a multiple of its
units than `5 ^ 10 / 2 ^ 25` of a unit. -/
theorem rounded_scaled_iff_of_le {r : ℕ} (hlo : 2 ^ l < n) (hhi : n < 2 ^ (l + 1)) (hl : l ≤ 52)
    (hl' : 28 ≤ l) (h : 2 ^ (l + 24) ≤ 5 ^ 10 * n) (hr : 5 ^ 10 * n % 2 ^ (l - 28) = r) :
    rounded (scaled n / 10 ^ 10) = n ↔
      2 ^ 25 * min r (2 ^ (l - 28) - r) < 5 ^ 10 * 2 ^ (l - 28) := by
  obtain ⟨k, hk, hk', hn⟩ := exists_mantissa hlo hhi hl
  have herr := abs_scaled_sub_eq hlo hhi hl' h hr
  have hne := five_pow_mul_two_pow_ne (by omega : l - 28 ≤ 24) (min r (2 ^ (l - 28) - r))
  have hlt : r < 2 ^ (l - 28) := by
    rw [← hr]
    exact Nat.mod_lt _ (Nat.two_pow_pos _)
  have hmin : min (r : ℚ) (2 ^ (l - 28) - r) = (min r (2 ^ (l - 28) - r) : ℕ) := by
    rw [Nat.cast_min, Nat.cast_sub hlt.le]
    push_cast
    rfl
  have hhalf : (10 : ℚ) ^ 10 * 2 ^ ((l : ℤ) - 52) / 2 =
      5 ^ 10 * 2 ^ (l - 28) / 2 ^ 25 * 2 ^ 10 := by
    have hz : (2 : ℚ) ^ (l - 28) = 2 ^ ((l : ℤ) - 52) * 2 ^ 24 := by
      rw [← zpow_natCast, ← zpow_natCast, ← two_zpow_add]
      congr 1
      omega
    rw [hz]
    norm_num
    ring
  generalize min r (2 ^ (l - 28) - r) = d at hmin hne
  have hexact : (2 : ℚ) ^ 25 * d ≠ 5 ^ 10 * 2 ^ (l - 28) := by exact_mod_cast hne
  have hscaled : rounded (scaled n / 10 ^ 10) = n ↔
      (d : ℚ) * 2 ^ 10 < 5 ^ 10 * 2 ^ (l - 28) / 2 ^ 25 * 2 ^ 10 ∨
      (d : ℚ) * 2 ^ 10 = 5 ^ 10 * 2 ^ (l - 28) / 2 ^ 25 * 2 ^ 10 ∧ k % 2 = 0 := by
    rw [← hhalf, ← hmin, ← herr, hn]
    exact rounded_div_eq_iff (scaled_nonneg _) (by omega) hk hk'
  rw [hscaled, mul_lt_mul_iff_left₀ (by norm_num), lt_div_iff₀ (by norm_num), mul_comm (d : ℚ)]
  constructor
  · rintro (hd | ⟨hd, _⟩)
    · exact_mod_cast hd
    · rw [mul_right_cancel_iff_of_pos (by norm_num), eq_div_iff (by norm_num), mul_comm] at hd
      exact absurd hd hexact
  · intro hd
    exact Or.inl (by exact_mod_cast hd)

/-- What lies `r` behind a multiple of `u` is nearer to a multiple than the part `b / a` of `u`, or
further from both; it is never just as far. -/
private theorem near_iff {a b r u : ℕ} (hab : 2 * b < a) (hlt : r < u) (hleft : a * r ≠ b * u)
    (hright : a * (u - r) ≠ b * u) :
    a * min r (u - r) < b * u ↔ ¬(b * u < a * r ∧ a * r + b * u < a * u) := by
  have hu : a * (u - r) + a * r = a * u := by
    rw [← mul_add, Nat.sub_add_cancel hlt.le]
  have hbu : 2 * (b * u) < a * u := by
    rw [← mul_assoc]
    exact Nat.mul_lt_mul_of_pos_right hab (by omega)
  obtain hle | hle := le_total r (u - r)
  · have hmul : a * r ≤ a * (u - r) := Nat.mul_le_mul_left a hle
    rw [min_eq_left hle]
    omega
  · have hmul : a * (u - r) ≤ a * r := Nat.mul_le_mul_left a hle
    rw [min_eq_right hle]
    omega

theorem not_strays_of_lt (h : 5 ^ 10 * n < 2 ^ (n.log2 + 24)) : ¬Strays n := fun hs =>
  absurd hs.1 (not_le.mpr h)

/-- A number this small is a multiple of the units of its product. -/
theorem not_strays_of_log2_le (h : n.log2 ≤ 28) : ¬Strays n := by
  have hunit : productUnit n = 1 := by
    rw [productUnit, Nat.sub_eq_zero_of_le h, pow_zero]
  rintro ⟨_, hs, _⟩
  rw [hunit, Nat.mod_one] at hs
  omega

theorem strays_iff_of_le {r : ℕ} (hl : n.log2 = l) (h : 2 ^ (l + 24) ≤ 5 ^ 10 * n)
    (hr : 5 ^ 10 * n % 2 ^ (l - 28) = r) :
    Strays n ↔ 5 ^ 10 * 2 ^ (l - 28) < 2 ^ 25 * r ∧
      2 ^ 25 * r + 5 ^ 10 * 2 ^ (l - 28) < 2 ^ 25 * 2 ^ (l - 28) := by
  unfold Strays productUnit
  rw [hl, hr]
  exact and_iff_right h

/-- The smallest whole number that strays is `922337205`: it is the first odd number with a product
of 64 bits. -/
theorem Strays.le (h : Strays n) : 922337205 ≤ n := by
  by_contra hlt
  have h29 : 2 ^ 29 ≤ n := by
    by_contra hsmall
    obtain rfl | hn := Nat.eq_zero_or_pos n
    · exact absurd h (by decide)
    have hlog := (Nat.log2_lt hn.ne').mpr (not_le.mp hsmall)
    exact not_strays_of_log2_le (by omega) h
  have hlog : n.log2 = 29 := (Nat.log2_eq_iff (by omega)).mpr ⟨h29, by omega⟩
  have hbits := h.1
  rw [hlog] at hbits
  obtain rfl : n = 922337204 := by omega
  exact absurd h (by decide)

/-- A whole number is kept exactly if it does not stray. -/
theorem rounded_scaled_iff (hn : 0 < n) (hle : n ≤ 2 ^ 53) :
    rounded (scaled n / 10 ^ 10) = n ↔ ¬Strays n := by
  have hlo := Nat.log2_self_le hn.ne'
  have hhi := Nat.lt_log2_self (n := n)
  generalize hl : n.log2 = l at hlo hhi
  -- a power of two is the one number of its size that `rounded_eq_iff` says nothing about
  obtain heq | hlo := hlo.eq_or_lt
  · have hnot : ¬Strays n := by
      refine not_strays_of_lt ?_
      rw [hl, ← heq, pow_add, mul_comm]
      exact Nat.mul_lt_mul_of_pos_left (by decide) (Nat.two_pow_pos l)
    have hexact : scaled n = n * 10 ^ 10 := by
      rw [← heq]
      exact scaled_two_pow l
    exact ⟨fun _ => hnot, fun _ => rounded_scaled_of_exact hle hexact⟩
  have hl52 : l ≤ 52 := by
    have h := (Nat.pow_lt_pow_iff_right (by decide : 1 < 2)).mp (hlo.trans_le hle)
    omega
  obtain hlt | hbits := lt_or_ge (5 ^ 10 * n) (2 ^ (l + 24))
  · have hnot : ¬Strays n := not_strays_of_lt (by rw [hl]; exact hlt)
    exact ⟨fun _ => hnot, fun _ => rounded_scaled_of_lt hlo hhi hl52 hlt⟩
  -- below `2 ^ 29` the unit is one, so that the product is exact
  obtain hsmall | hlarge := le_or_gt l 28
  · have hnot : ¬Strays n := not_strays_of_log2_le (by rw [hl]; exact hsmall)
    have hexact : scaled n = n * 10 ^ 10 :=
      scaled_of_lt (hhi.trans_le (Nat.pow_le_pow_right (by decide) (by omega)))
    exact ⟨fun _ => hnot, fun _ => rounded_scaled_of_exact hle hexact⟩
  have hlt := Nat.mod_lt (5 ^ 10 * n) (Nat.two_pow_pos (l - 28))
  generalize hr : 5 ^ 10 * n % 2 ^ (l - 28) = r at hlt
  have hne := five_pow_mul_two_pow_ne (by omega : l - 28 ≤ 24)
  rw [rounded_scaled_iff_of_le hlo hhi hl52 hlarge.le hbits hr, strays_iff_of_le hl hbits hr]
  exact near_iff (by decide) hlt (hne r) (hne _)

end Product

section Whole

variable {x : Float} {n : ℕ}

/-- No product of a whole number of 53 bits is too large. -/
theorem scaled_natCast_lt (hle : n ≤ 2 ^ 53) : scaled n < 2 ^ 1024 := by
  have hbound : Representable (2 ^ 87) :=
    ⟨1, 87, by decide, by decide, by rw [Nat.cast_one, one_mul]; rfl⟩
  have hw : (n : ℚ) * 10 ^ 10 ≤ 2 ^ 87 := by
    have hnq : (n : ℚ) ≤ 2 ^ 53 := by exact_mod_cast hle
    calc (n : ℚ) * 10 ^ 10 ≤ 2 ^ 53 * 10 ^ 10 := mul_le_mul_of_nonneg_right hnq (by norm_num)
      _ ≤ 2 ^ 87 := by norm_num
  exact (hbound.rounded_le (by positivity) hw).trans_lt (pow_lt_pow_right₀ one_lt_two (by decide))

theorem units_natCast_ne_zero (hn : 0 < n) (hle : n ≤ 2 ^ 53) : units (n : ℚ) ≠ 0 := by
  intro h0
  have hs := units_natCast n
  rw [h0, Nat.cast_zero] at hs
  have hw : (n : ℚ) ≤ n * 10 ^ 10 := le_mul_of_one_le_right (Nat.cast_nonneg n) (by norm_num)
  have hmono := rounded_mono (Nat.cast_nonneg n) hw
  rw [(representable_natCast hle).rounded_eq, ← scaled, ← hs] at hmono
  have hzero : n ≤ 0 := by exact_mod_cast hmono
  omega

/-- The zero that is not negative is kept. -/
theorem toTenDecimals_of_magnitude_eq_zero (hx : x.isFinite = true) (hz : parts x ≠ .zero .negative)
    (hm : magnitude x = 0) : toTenDecimals x = x := by
  have hself := nearest_magnitude hx
  rw [hm] at hself
  cases hs : sign x with
  | positive =>
    rw [← hself, hs, toTenDecimals_nearest_zero]
  | negative =>
    rw [← hself, hs, parts_nearest_zero] at hz
    exact absurd rfl hz

/-- Rounding to ten decimals keeps a whole number of 53 bits, whatever its sign, exactly if it does
not stray. -/
theorem toTenDecimals_eq_self_iff_not_strays (hx : x.isFinite = true)
    (hz : parts x ≠ .zero .negative) (hm : magnitude x = n) (hle : n ≤ 2 ^ 53) :
    toTenDecimals x = x ↔ ¬Strays n := by
  obtain rfl | hn := Nat.eq_zero_or_pos n
  · rw [toTenDecimals_of_magnitude_eq_zero hx hz (hm.trans Nat.cast_zero)]
    exact ⟨fun _ => by decide, fun _ => rfl⟩
  have hlt := scaled_natCast_lt hle
  have hround : toTenDecimals x = nearest (sign x) (scaled n / 10 ^ 10) := by
    rw [toTenDecimals_eq hx, hm, if_pos hlt, if_neg (units_natCast_ne_zero hn hle), units_natCast]
  have hself : nearest (sign x) n = x := by
    rw [← hm, nearest_magnitude hx]
  have hquot : rounded (scaled n / 10 ^ 10) < 2 ^ 1024 := by
    have hdiv := rounded_div_lt (representable_units (Nat.cast_nonneg n))
      (units_lt_two_pow_1024 (Nat.cast_nonneg n) hlt)
    rwa [units_natCast] at hdiv
  have hiff :=
    nearest_eq_iff (sign x) (div_nonneg (scaled_nonneg n) (by norm_num)) (Nat.cast_nonneg n) hquot
    (rounded_natCast_lt hle)
  rw [hself, (representable_natCast hle).rounded_eq, ← hround] at hiff
  exact hiff.trans (rounded_scaled_iff hn hle)

/-- The sign of an integer; that of zero is positive. -/
def signOf (n : ℤ) : Sign := if n < 0 then .negative else .positive

theorem ofInt_eq_nearest (n : ℤ) : ofInt n = nearest (signOf n) n.natAbs := by
  obtain h0 | hpos := Nat.eq_zero_or_pos n.natAbs
  · obtain rfl := Int.natAbs_eq_zero.mp h0
    exact ofInt_zero.trans (by simp [signOf])
  · have hs : (signOf n).apply n.natAbs = n := by
      unfold signOf
      split
      · change -(n.natAbs : ℤ) = n
        omega
      · change (n.natAbs : ℤ) = n
        omega
    rw [← ofInt_apply (signOf n) hpos, hs]

theorem sign_ofInt (n : ℤ) : sign (ofInt n) = signOf n := by
  rw [ofInt_eq_nearest, sign_nearest _ (Nat.cast_nonneg _)]

/-- An integer of 53 bits is a float. -/
theorem isFinite_ofInt {n : ℤ} (hle : n.natAbs ≤ 2 ^ 53) : (ofInt n).isFinite = true := by
  rw [ofInt_eq_nearest]
  exact (isFinite_nearest _ (Nat.cast_nonneg _)).mpr (rounded_natCast_lt hle)

theorem magnitude_ofInt {n : ℤ} (hle : n.natAbs ≤ 2 ^ 53) : magnitude (ofInt n) = n.natAbs := by
  rw [ofInt_eq_nearest, magnitude_nearest _ (Nat.cast_nonneg _) (rounded_natCast_lt hle),
    (representable_natCast hle).rounded_eq]

theorem ofInt_ne_negative_zero {n : ℤ} (hle : n.natAbs ≤ 2 ^ 53) :
    parts (ofInt n) ≠ .zero .negative := by
  intro hz
  have hm := magnitude_ofInt hle
  have hs := sign_ofInt n
  unfold magnitude at hm
  unfold sign at hs
  rw [hz] at hm hs
  dsimp only at hm hs
  have h0 : n.natAbs = 0 := by exact_mod_cast hm.symm
  rw [Int.natAbs_eq_zero.mp h0, signOf, if_neg (lt_irrefl 0)] at hs
  cases hs

theorem toTenDecimals_ofInt_iff {n : ℤ} (hle : n.natAbs ≤ 2 ^ 53) :
    toTenDecimals (ofInt n) = ofInt n ↔ ¬Strays n.natAbs :=
  toTenDecimals_eq_self_iff_not_strays (isFinite_ofInt hle) (ofInt_ne_negative_zero hle)
    (magnitude_ofInt hle) hle

end Whole

end SciCalc.Number
