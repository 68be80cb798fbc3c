import SciCalc.Proofs.Evaluation.Numeral
import SciCalc.Proofs.Number.Accuracy

namespace SciCalc

open Float.Model Float.Model.UnpackedFloat Number

theorem value?_finite {m : AngleMode} {s : String} {v : Float} (h : value? m s = some v) :
    v.isFinite = true ∧ parts v ≠ .zero .negative := by
  obtain ⟨x, hx, rfl⟩ := value?_eq_some h
  exact ⟨isFinite_toTenDecimals hx, toTenDecimals_ne_negative_zero hx⟩

/-- Rounding to ten decimals gives a finite number that is no zero with a sign. It moves a number by
at most half a unit of the tenth decimal and `2 ^ -51` of the number, and keeps the order of
numbers, also across the magnitude from which on they are too large to be counted in units. So a
result is such a number, or there is none. -/
theorem rounding_near_and_monotone (x y : Float) (hx : x.isFinite = true) (hy : y.isFinite = true) :
    (toTenDecimals x).isFinite = true ∧ parts (toTenDecimals x) ≠ .zero .negative ∧
    |toRat (toTenDecimals x) - toRat x| ≤ 1 / 2 * 10 ^ (-10 : ℤ) + 2 ^ (-51 : ℤ) * |toRat x| ∧
    (x ≤ y → toTenDecimals x ≤ toTenDecimals y) ∧
    ∀ m s v, value? m s = some v → v.isFinite = true ∧ parts v ≠ .zero .negative := by
  refine ⟨isFinite_toTenDecimals hx, toTenDecimals_ne_negative_zero hx, ?_,
    toTenDecimals_mono hx hy, fun m s v => value?_finite⟩
  have hbound := abs_toRat_toTenDecimals_sub_le hx
  have hten : (1 : ℚ) / 2 / 10 ^ 10 = 1 / 2 * 10 ^ (-10 : ℤ) := by norm_num
  have hbits : |toRat x| / 2 ^ 51 = 2 ^ (-51 : ℤ) * |toRat x| := by
    rw [zpow_neg, div_eq_inv_mul]
    rfl
  rwa [hten, hbits] at hbound

/-- The largest number that is counted in units and the next one keep their order, and a result that
was rounded to zero has no sign. -/
theorem rounding_monotone_at_limit :
    (1.7976931348623157e298 * unitsPerOne).isFinite = true ∧
    (1.797693134862316e298 * unitsPerOne).isFinite = false ∧
    toTenDecimals 1.7976931348623157e298 ≤ toTenDecimals 1.797693134862316e298 ∧
    value? .degrees "-0.00000000004" = some 0 ∧ parts (0 : Float) ≠ .zero .negative := by
  have hx : (1.7976931348623157e298 : Float).isFinite = true := by decide +kernel
  have hy : (1.797693134862316e298 : Float).isFinite = true := by decide +kernel
  have hle : (1.7976931348623157e298 : Float) ≤ 1.797693134862316e298 := by decide +kernel
  obtain ⟨_, _, _, hmono, hresult⟩ := rounding_near_and_monotone _ _ hx hy
  have h : value? .degrees "-0.00000000004" = some 0 := by
    have hv := value?_numeral .degrees .negative (d := ⟨4, -11⟩) (by decide) rfl
    have ht : toTenDecimals (withSign .negative (⟨4, -11⟩ : Decimal).toFloat) = 0 := by
      decide +kernel
    rw [ht] at hv
    exact hv
  exact ⟨by decide +kernel, by decide +kernel, hmono hle, h, (hresult .degrees _ 0 h).2⟩

end SciCalc
