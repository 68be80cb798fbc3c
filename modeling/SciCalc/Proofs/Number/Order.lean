import SciCalc.Proofs.Number.NotFinite
import SciCalc.Proofs.Number.TenDecimals

namespace SciCalc.Number

open Float.Model Float.Model.UnpackedFloat

/-- The exact value of a finite number. -/
def toRat (x : Float) : ℚ :=
  match sign x with
  | .positive => magnitude x
  | .negative => -magnitude x

theorem toRat_cases (x : Float) : sign x = .positive ∧ toRat x = magnitude x ∨
    sign x = .negative ∧ toRat x = -magnitude x := by
  unfold toRat
  cases sign x with
  | positive => exact .inl ⟨rfl, rfl⟩
  | negative => exact .inr ⟨rfl, rfl⟩

theorem lt_iff_parts {x y : Float} : x < y ↔ (parts x).lt (parts y) = true :=
  ⟨of_decide_eq_true, decide_eq_true⟩

section Canonical

variable {m n : ℕ} {e f : ℤ}

/-- Of two canonical numbers with different exponents the one with the larger exponent is larger. -/
theorem Canonical.lt_of_exponent_lt (h : Canonical m e) (h' : Canonical n f) (hef : e < f) :
    (m : ℚ) * 2 ^ e < n * 2 ^ f := by
  have hm : (m : ℚ) < 2 ^ (53 : ℤ) := by exact_mod_cast h.lt
  have hn : (2 : ℚ) ^ (52 : ℤ) ≤ n := by
    obtain hn | hf := h'.normal
    · exact_mod_cast hn
    · have hge := h.ge
      omega
  calc (m : ℚ) * 2 ^ e < 2 ^ (53 : ℤ) * 2 ^ e := mul_lt_mul_of_pos_right hm (two_zpow_pos e)
    _ = 2 ^ (53 + e) := (two_zpow_add _ _).symm
    _ ≤ 2 ^ (52 + f) := two_zpow_le (by omega)
    _ = 2 ^ (52 : ℤ) * 2 ^ f := two_zpow_add _ _
    _ ≤ n * 2 ^ f := mul_le_mul_of_nonneg_right hn (two_zpow_pos f).le

/-- Canonical numbers are compared by their exponents, and by their mantissas where these agree. -/
theorem Canonical.compare_eq_lt_iff (h : Canonical m e) (h' : Canonical n f) :
    (compare e f).then (compare m n) = .lt ↔ (m : ℚ) * 2 ^ e < n * 2 ^ f := by
  obtain hlt | rfl | hgt := lt_trichotomy e f
  · rw [compare_lt_iff_lt.mpr hlt]
    exact ⟨fun _ => h.lt_of_exponent_lt h' hlt, fun _ => rfl⟩
  · rw [compare_eq_iff_eq.mpr rfl, mul_lt_mul_iff_left₀ (two_zpow_pos e), Nat.cast_lt]
    exact compare_lt_iff_lt
  · rw [compare_gt_iff_gt.mpr hgt]
    exact ⟨nofun, fun hlt => absurd hlt (h'.lt_of_exponent_lt h hgt).not_gt⟩

theorem Canonical.compare_eq_gt_iff (h : Canonical m e) (h' : Canonical n f) :
    (compare e f).then (compare m n) = .gt ↔ (n : ℚ) * 2 ^ f < m * 2 ^ e := by
  rw [← h'.compare_eq_lt_iff h, ← Ordering.swap_eq_gt, Ordering.swap_then, Int.compare_swap,
    Nat.compare_swap]

end Canonical

/-- Finite numbers are ordered as their values. -/
theorem lt_iff_toRat_lt {x y : Float} (hx : x.isFinite = true) (hy : y.isFinite = true) :
    x < y ↔ toRat x < toRat y := by
  have hpos : ∀ {m : ℕ} {e : ℤ}, 0 < m → (0 : ℚ) < m * 2 ^ e :=
    fun hm => mul_pos (Nat.cast_pos.mpr hm) (two_zpow_pos _)
  rw [lt_iff_parts]
  unfold toRat
  obtain ⟨hp, hm⟩ | ⟨m, e, h, hp, hm, hc, _⟩ := parts_cases hx
  · obtain ⟨hq, hn⟩ | ⟨n, f, h', hq, hn, hd, _⟩ := parts_cases hy
    · rw [hp, hq, hm, hn]
      cases sign x <;> cases sign y <;> simp [UnpackedFloat.lt, UnpackedFloat.compare]
    · rw [hp, hq, hm, hn]
      cases sign x <;> cases sign y <;>
        simp [UnpackedFloat.lt, UnpackedFloat.compare, hpos h', (hpos h').le]
  · obtain ⟨hq, hn⟩ | ⟨n, f, h', hq, hn, hd, _⟩ := parts_cases hy
    · rw [hp, hq, hm, hn]
      cases sign x <;> cases sign y <;>
        simp [UnpackedFloat.lt, UnpackedFloat.compare, hpos h, (hpos h).le]
    · rw [hp, hq, hm, hn]
      have hneg : -((m : ℚ) * 2 ^ e) < n * 2 ^ f := (neg_lt_zero.mpr (hpos h)).trans (hpos h')
      have hneg' : -((n : ℚ) * 2 ^ f) < m * 2 ^ e := (neg_lt_zero.mpr (hpos h')).trans (hpos h)
      cases sign x with
      | negative =>
        cases sign y with
        | negative => simp [UnpackedFloat.lt, UnpackedFloat.compare, hc.compare_eq_gt_iff hd]
        | positive => simp [UnpackedFloat.lt, UnpackedFloat.compare, hneg]
      | positive =>
        cases sign y with
        | negative => simp [UnpackedFloat.lt, UnpackedFloat.compare, hneg'.le]
        | positive => simp [UnpackedFloat.lt, UnpackedFloat.compare, hc.compare_eq_lt_iff hd]

/-- Finite shapes are compared the other way round with the opposite outcome. -/
theorem exists_compare_eq {u v : UnpackedFloat} (hu : u.isFinite = true) (hv : v.isFinite = true) :
    ∃ o, u.compare v = some o ∧ v.compare u = some o.swap := by
  cases u with
  | notANumber => cases hu
  | infinity s => cases hu
  | zero s =>
    cases v with
    | notANumber => cases hv
    | infinity t => cases hv
    | zero t => exact ⟨.eq, rfl, rfl⟩
    | finite t n f hn => cases t <;> exact ⟨_, rfl, rfl⟩
  | finite s m e hm =>
    cases v with
    | notANumber => cases hv
    | infinity t => cases hv
    | zero t => cases s <;> exact ⟨_, rfl, rfl⟩
    | finite t n f hn =>
      have hswap : (compare f e).then (compare n m) = ((compare e f).then (compare m n)).swap := by
        rw [Ordering.swap_then, Int.compare_swap, Nat.compare_swap]
      cases s <;> cases t <;> refine ⟨_, rfl, ?_⟩ <;> simp [UnpackedFloat.compare, hswap]

theorem le_iff_toRat_le {x y : Float} (hx : x.isFinite = true) (hy : y.isFinite = true) :
    x ≤ y ↔ toRat x ≤ toRat y := by
  have hle : x ≤ y ↔ (parts x).le (parts y) = true := ⟨of_decide_eq_true, decide_eq_true⟩
  rw [← not_lt, ← lt_iff_toRat_lt hy hx, hle, lt_iff_parts]
  obtain ⟨o, ho, ho'⟩ := exists_compare_eq (u := parts x) (v := parts y) hx hy
  rw [UnpackedFloat.le, UnpackedFloat.lt, ho, ho']
  cases o <;> decide

section Whole

variable {x : Float}

theorem toRat_zero : toRat 0 = 0 := by
  have hs : sign 0 = .positive := rfl
  have hm : magnitude 0 = 0 := rfl
  rw [toRat, hs, hm]

theorem lt_zero_iff (hx : x.isFinite = true) : x < 0 ↔ toRat x < 0 := by
  rw [lt_iff_toRat_lt hx isFinite_zero, toRat_zero]

/-- What is not below zero is its own magnitude. -/
theorem toRat_eq_magnitude (h : 0 ≤ toRat x) : toRat x = magnitude x := by
  obtain ⟨_, hx⟩ | ⟨_, hx⟩ := toRat_cases x
  · exact hx
  · have hm := magnitude_nonneg x
    linarith

/-- The bits behind the point are all zero exactly if the magnitude is an integer. -/
theorem isWhole_iff (hx : x.isFinite = true) : isWhole x = true ↔ ∃ n : ℕ, magnitude x = n := by
  unfold isWhole
  obtain ⟨hp, hm⟩ | ⟨m, e, _, hp, hm, _, _⟩ := parts_cases hx
  · rw [hp, hm]
    exact ⟨fun _ => ⟨0, Nat.cast_zero.symm⟩, fun _ => rfl⟩
  rw [hp, hm]
  simp only [Bool.or_eq_true, decide_eq_true_eq, beq_iff_eq]
  by_cases he : 0 ≤ e
  · have hv : (m : ℚ) * 2 ^ e = (m * 2 ^ e.toNat : ℕ) := by
      rw [Nat.cast_mul, Nat.cast_pow, Nat.cast_ofNat, ← zpow_natCast, Int.toNat_of_nonneg he]
    exact ⟨fun _ => ⟨_, hv⟩, fun _ => .inl he⟩
  · have hk : (2 : ℚ) ^ e = ((2 ^ (-e).toNat : ℕ) : ℚ)⁻¹ := by
      rw [Nat.cast_pow, Nat.cast_ofNat, ← zpow_natCast, ← zpow_neg]
      congr 1
      omega
    have hpow : ((2 ^ (-e).toNat : ℕ) : ℚ) ≠ 0 := by positivity
    rw [hk, ← div_eq_mul_inv, Nat.pow_eq, or_iff_right he, ← Nat.dvd_iff_mod_eq_zero]
    constructor
    · rintro ⟨n, rfl⟩
      exact ⟨n, by rw [Nat.cast_mul, mul_div_cancel_left₀ _ hpow]⟩
    · rintro ⟨n, hn⟩
      rw [div_eq_iff hpow] at hn
      exact ⟨n, by rw [mul_comm]; exact_mod_cast hn⟩

/-- The integer nearest to a natural number is that number. -/
theorem nearestInt_of_toRat_eq {n : ℕ} (hx : x.isFinite = true) (h : toRat x = n) :
    nearestInt x = n := by
  have hm := toRat_eq_magnitude (h ▸ Nat.cast_nonneg n)
  rw [h] at hm
  unfold nearestInt
  obtain ⟨hp, hz⟩ | ⟨m, e, hpos, hp, hv, _, _⟩ := parts_cases hx
  · rw [hp, Nat.cast_eq_zero.mp (hm.trans hz)]
    rfl
  · have hfloor : nearestNat m e = n := by
      rw [nearestNat_eq_floor, ← hv, ← hm, Nat.floor_eq_iff (by positivity)]
      constructor <;> linarith
    have hs : sign x = .positive := by
      obtain ⟨hs, _⟩ | ⟨_, hneg⟩ := toRat_cases x
      · exact hs
      · have hlt : (0 : ℚ) < magnitude x := hv ▸ mul_pos (Nat.cast_pos.mpr hpos) (two_zpow_pos e)
        linarith
    rw [hp, hs]
    exact congrArg Nat.cast hfloor

end Whole

section Infinity

variable {x : Float}

theorem exists_parts_of_isInf (hx : x.isInf = true) : ∃ s, parts x = .infinity s := by
  change (parts x).isInf = true at hx
  cases hp : parts x with
  | infinity s => exact ⟨s, rfl⟩
  | _ =>
    rw [hp] at hx
    cases hx

/-- An infinity is below zero or it is the positive one. -/
theorem lt_zero_or_eq_infinity (hx : x.isInf = true) : x < 0 ∨ x = infinity := by
  obtain ⟨s, hs⟩ := exists_parts_of_isInf hx
  cases s with
  | negative =>
    left
    rw [lt_iff_parts, hs]
    rfl
  | positive => exact .inr (parts_injective (hs.trans rfl))

end Infinity

end SciCalc.Number
