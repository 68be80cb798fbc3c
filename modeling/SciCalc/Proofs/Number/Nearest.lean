import SciCalc.Number.Decimal
import SciCalc.Proofs.Number.Packing
import SciCalc.Proofs.Number.Rounding

namespace SciCalc.Number

open Float.Model Float.Model.UnpackedFloat

/-- The shape of the float of sign `s` nearest to the magnitude `q`, before its size is looked
at. -/
def shape (s : Sign) (q : ℚ) : UnpackedFloat :=
  if h : roundEven (q / 2 ^ grain q) = 0 then .zero s
  else if roundEven (q / 2 ^ grain q) < 2 ^ 53 then
    .finite s (roundEven (q / 2 ^ grain q)) (grain q) (Nat.pos_of_ne_zero h)
  else .finite s (2 ^ 52) (grain q + 1) (by decide)

/-- A mantissa and an accuracy tell where `p` lies: at `m`, or before, at or behind the middle of
the unit above it. -/
inductive Reads (p : ℚ) (m : ℕ) : Accuracy → Prop
  | exact (h : p = m) : Reads p m .exact
  | lt (h : m < p) (h' : p < m + 1 / 2) : Reads p m (.inexact .lt)
  | eq (h : p = m + 1 / 2) : Reads p m (.inexact .eq)
  | gt (h : m + 1 / 2 < p) (h' : p < m + 1) : Reads p m (.inexact .gt)

theorem Reads.floor {p : ℚ} {m : ℕ} {a : Accuracy} (h : Reads p m a) : (m : ℚ) ≤ p ∧ p < m + 1 := by
  cases h with
  | exact h => exact ⟨h.ge, by linarith⟩
  | lt h h' => exact ⟨h.le, by linarith⟩
  | eq h => exact ⟨by linarith, by linarith⟩
  | gt h h' => exact ⟨by linarith, h'⟩

theorem Reads.roundEven_eq {p : ℚ} {m : ℕ} {a : Accuracy} (h : Reads p m a) :
    roundEven p = a.roundToNearestEven m := by
  have hb := h.floor
  have hp : 0 ≤ p := (Nat.cast_nonneg m).trans hb.1
  have hf : ⌊p⌋₊ = m := (Nat.floor_eq_iff hp).mpr hb
  unfold roundEven
  rw [hf]
  cases h with
  | exact h =>
    rw [if_pos (by linarith)]
    rfl
  | lt h h' =>
    rw [if_pos (by linarith)]
    rfl
  | eq h =>
    rw [if_neg (by linarith), if_pos (by linarith)]
    rfl
  | gt h h' =>
    rw [if_neg (by linarith), if_neg (by linarith)]
    rfl

theorem Reads.shiftRightOne {p : ℚ} {em : ExtendedMantissa} (h : Reads p em.mantissa em.accuracy) :
    Reads (p / 2) em.shiftRightOne.mantissa em.shiftRightOne.accuracy := by
  obtain ⟨m, r, t⟩ := em
  have hb := h.floor
  have hsplit : p = m ∧ (r || t) = false ∨ (m : ℚ) < p ∧ (r || t) = true := by
    cases r <;> cases t <;> cases h
    · exact Or.inl ⟨‹_›, rfl⟩
    · exact Or.inr ⟨‹_›, rfl⟩
    · exact Or.inr ⟨by dsimp only at *; linarith, rfl⟩
    · exact Or.inr ⟨by dsimp only at *; linarith, rfl⟩
  have hm : m = 2 * (m / 2) + m % 2 := (Nat.div_add_mod m 2).symm
  have hmq : (m : ℚ) = 2 * (m / 2 : ℕ) + (m % 2 : ℕ) := by exact_mod_cast hm
  simp only at hb
  obtain h0 | h1 := Nat.mod_two_eq_zero_or_one m
  · rw [h0, Nat.cast_zero, add_zero] at hmq
    have hs : ExtendedMantissa.shiftRightOne ⟨m, r, t⟩ = ⟨m / 2, false, r || t⟩ := by
      simp [ExtendedMantissa.shiftRightOne, h0]
    rw [hs]
    obtain ⟨hp, ht⟩ | ⟨hp, ht⟩ := hsplit
    · rw [ht]
      exact Reads.exact (by dsimp only; linarith)
    · rw [ht]
      exact Reads.lt (by dsimp only; linarith) (by dsimp only; linarith)
  · rw [h1, Nat.cast_one] at hmq
    have hs : ExtendedMantissa.shiftRightOne ⟨m, r, t⟩ = ⟨m / 2, true, r || t⟩ := by
      simp [ExtendedMantissa.shiftRightOne, h1]
    rw [hs]
    obtain ⟨hp, ht⟩ | ⟨hp, ht⟩ := hsplit
    · rw [ht]
      exact Reads.eq (by dsimp only; linarith)
    · rw [ht]
      exact Reads.gt (by dsimp only; linarith) (by dsimp only; linarith)

theorem Reads.shiftRight {p : ℚ} {em : ExtendedMantissa} (h : Reads p em.mantissa em.accuracy)
    (n : ℕ) : Reads (p / 2 ^ n) (em >>> n).mantissa (em >>> n).accuracy := by
  induction n with
  | zero =>
    rw [pow_zero, div_one]
    exact h
  | succ n ih =>
    rw [pow_succ, ← div_div]
    exact ih.shiftRightOne

theorem Reads.ofMantissaAndAccuracy {p : ℚ} {m : ℕ} {a : Accuracy} (h : Reads p m a) :
    Reads p (ExtendedMantissa.ofMantissaAndAccuracy m a).mantissa
      (ExtendedMantissa.ofMantissaAndAccuracy m a).accuracy := by
  cases h with
  | exact h => exact Reads.exact h
  | lt h h' => exact Reads.lt h h'
  | eq h => exact Reads.eq h
  | gt h h' => exact Reads.gt h h'

private theorem targetExponent_eq (m : ℕ) (e : ℤ) :
    Format.binary64.targetExponent (totalExponent m e) = max (m.log2 + e - 52) (-1074) := by
  change max ((m.log2 : ℤ) + 1 + e - 53) (-1074) = _
  congr 1
  ring

/-- The exponent that a mantissa is shifted to is that of the number it stands for. -/
theorem Reads.targetExponent {p : ℚ} {m : ℕ} {e : ℤ} {a : Accuracy} (h : Reads p m a) (hp : 0 < p)
    (he : 52 ≤ m.log2 ∨ e ≤ -1074) :
    Format.binary64.targetExponent (totalExponent m e) = grain (p * 2 ^ e) := by
  have hb := h.floor
  have hq : 0 < p * 2 ^ e := mul_pos hp (two_zpow_pos e)
  rw [targetExponent_eq]
  obtain hm | hm := Nat.eq_zero_or_pos m
  · subst hm
    rw [Nat.log2_zero] at he ⊢
    have he' : e ≤ -1074 := by omega
    have hlt : p * 2 ^ e < 2 ^ ((-1074 : ℤ) + 53) := by
      have h1 : p < 1 := by linarith [hb.2, (Nat.cast_zero : ((0 : ℕ) : ℚ) = 0)]
      have h2 : (2 : ℚ) ^ e ≤ 2 ^ ((-1074 : ℤ) + 53) := two_zpow_le (by omega)
      have h3 := two_zpow_pos e
      nlinarith
    have hg := grain_le_of_lt hq (le_refl _) hlt
    have hge := grain_ge (p * 2 ^ e)
    omega
  · have hlog : Int.log 2 (p * 2 ^ e) = m.log2 + e := by
      have hlo : (2 : ℚ) ^ ((m.log2 : ℤ) + e) ≤ p * 2 ^ e := by
        rw [two_zpow_add]
        have h1 : ((2 ^ m.log2 : ℕ) : ℚ) ≤ m := by exact_mod_cast Nat.log2_self_le (by omega)
        push_cast at h1
        rw [zpow_natCast]
        exact mul_le_mul_of_nonneg_right (h1.trans hb.1) (two_zpow_pos e).le
      have hhi : p * 2 ^ e < (2 : ℚ) ^ ((m.log2 : ℤ) + e + 1) := by
        have he' : (m.log2 : ℤ) + e + 1 = (m.log2 + 1 : ℕ) + e := by
          push_cast
          ring
        rw [he', two_zpow_add, zpow_natCast]
        have h1 : ((m + 1 : ℕ) : ℚ) ≤ (2 ^ (m.log2 + 1) : ℕ) := by exact_mod_cast Nat.lt_log2_self
        push_cast at h1
        exact mul_lt_mul_of_pos_right (hb.2.trans_le h1) (two_zpow_pos e)
      apply le_antisymm
      · have := (Int.lt_zpow_iff_log_lt (b := 2) (by decide) hq).mp (by exact_mod_cast hhi)
        omega
      · exact (Int.zpow_le_iff_le_log (b := 2) (by decide) hq).mp (by exact_mod_cast hlo)
    unfold grain
    rw [hlog]

private theorem shift_eq (m : ℕ) (e : ℤ) (a : Accuracy) :
    shiftToTargetExponent .binary64 m e a =
      (ExtendedMantissa.ofMantissaAndAccuracy m a >>>
          (Format.binary64.targetExponent (totalExponent m e) - e).toNat,
        e + (Format.binary64.targetExponent (totalExponent m e) - e).toNat) := rfl

/-- A mantissa of 53 bits stays, and one that rounding made longer is halved. -/
private theorem shift_exact {r : ℕ} {g : ℤ} (hr : r ≤ 2 ^ 53) (hg : -1074 ≤ g) :
    (shiftToTargetExponent .binary64 r g .exact).1.mantissa = (if r < 2 ^ 53 then r else 2 ^ 52) ∧
      (shiftToTargetExponent .binary64 r g .exact).2 = (if r < 2 ^ 53 then g else g + 1) := by
  rw [shift_eq, targetExponent_eq]
  split_ifs with h
  · have hl : r.log2 < 53 := by
      obtain hz | hpos := Nat.eq_zero_or_pos r
      · subst hz
        decide
      · exact (Nat.log2_lt (by omega)).mpr h
    have hk : (max ((r.log2 : ℤ) + g - 52) (-1074) - g).toNat = 0 := by omega
    rw [hk]
    exact ⟨rfl, by simp⟩
  · have hr : r = 2 ^ 53 := by omega
    subst hr
    have hk : (max (((2 ^ 53).log2 : ℤ) + g - 52) (-1074) - g).toNat = 1 := by
      rw [Nat.log2_two_pow]
      omega
    rw [hk]
    exact ⟨rfl, rfl⟩

/-- Rounding by shifts is rounding of the number that mantissa, exponent and accuracy stand for. -/
theorem roundWithAccuracy_eq_shape (s : Sign) {p : ℚ} {m : ℕ} {e : ℤ} {a : Accuracy}
    (h : Reads p m a) (hp : 0 < p) (he : 52 ≤ m.log2 ∨ e ≤ -1074) :
    roundWithAccuracy .binary64 s m e a = shape s (p * 2 ^ e) := by
  have hq : 0 < p * 2 ^ e := mul_pos hp (two_zpow_pos e)
  have htarget := h.targetExponent hp he
  have hge : e ≤ grain (p * 2 ^ e) := by
    rw [← htarget, targetExponent_eq]
    omega
  have hk : e + (grain (p * 2 ^ e) - e).toNat = grain (p * 2 ^ e) := by omega
  have hround : (shiftToTargetExponent .binary64 m e a).1.roundedMantissa =
      roundEven (p * 2 ^ e / 2 ^ grain (p * 2 ^ e)) := by
    have hs := (h.ofMantissaAndAccuracy).shiftRight (grain (p * 2 ^ e) - e).toNat
    have hv : p * 2 ^ e / 2 ^ grain (p * 2 ^ e) = p / 2 ^ (grain (p * 2 ^ e) - e).toNat := by
      have hz : (2 : ℚ) ^ grain (p * 2 ^ e) = 2 ^ e * 2 ^ (grain (p * 2 ^ e) - e).toNat := by
        rw [← zpow_natCast, ← two_zpow_add, hk]
      rw [hz, mul_comm p, mul_div_mul_left _ _ (two_zpow_pos e).ne']
    rw [hv, hs.roundEven_eq, shift_eq, htarget]
    rfl
  have hexp : (shiftToTargetExponent .binary64 m e a).2 = grain (p * 2 ^ e) := by
    rw [shift_eq, htarget]
    exact hk
  have hle := roundEven_units_le hq.le
  have hg := grain_ge (p * 2 ^ e)
  unfold roundWithAccuracy
  simp only [hround, hexp]
  obtain ⟨hm, hx⟩ := shift_exact hle hg
  simp only [hm, hx]
  unfold shape
  by_cases hr : roundEven (p * 2 ^ e / 2 ^ grain (p * 2 ^ e)) < 2 ^ 53
  · simp only [if_pos hr]
  · have hr0 : roundEven (p * 2 ^ e / 2 ^ grain (p * 2 ^ e)) ≠ 0 := by omega
    simp only [if_neg hr]
    rw [dif_neg hr0, dif_neg (by decide)]

theorem shape_zero (s : Sign) : shape s 0 = .zero s := by
  have h := roundEven_natCast 0
  rw [Nat.cast_zero] at h
  unfold shape
  rw [dif_pos (by rw [zero_div, h])]

/-- What rounding gives is a zero or a canonical shape of the rounded magnitude. -/
theorem shape_cases (s : Sign) {q : ℚ} (hq : 0 ≤ q) :
    rounded q = 0 ∧ shape s q = .zero s ∨
      ∃ (m : ℕ) (e : ℤ) (h : 0 < m), Canonical m e ∧ rounded q = m * 2 ^ e ∧
        shape s q = .finite s m e h := by
  obtain rfl | hq := hq.eq_or_lt
  · exact Or.inl ⟨rounded_zero, shape_zero s⟩
  have hle := roundEven_units_le hq.le
  have hge := grain_ge q
  have hn : 2 ^ 52 ≤ roundEven (q / 2 ^ grain q) ∨ grain q = -1074 := by
    obtain he | hlt := hge.eq_or_lt
    · exact Or.inr he.symm
    · exact Or.inl (le_roundEven_units hq hlt)
  have hv : rounded q = roundEven (q / 2 ^ grain q) * 2 ^ grain q := rfl
  generalize hr : roundEven (q / 2 ^ grain q) = r at hle hn hv
  unfold shape
  simp only [hr]
  by_cases h0 : r = 0
  · left
    rw [dif_pos h0]
    exact ⟨by rw [hv, h0, Nat.cast_zero, zero_mul], rfl⟩
  right
  rw [dif_neg h0]
  by_cases hlt : r < 2 ^ 53
  · rw [if_pos hlt]
    exact ⟨r, grain q, Nat.pos_of_ne_zero h0, ⟨hlt, hge, hn⟩, hv, rfl⟩
  · rw [if_neg hlt]
    have he : r = 2 ^ 53 := by omega
    refine ⟨2 ^ 52, grain q + 1, by decide, ⟨by decide, by omega, Or.inl le_rfl⟩, ?_, rfl⟩
    rw [hv, he, two_zpow_add]
    push_cast
    ring

theorem shape_of_rounded_eq_zero (s : Sign) {q : ℚ} (hq : 0 ≤ q) (h : rounded q = 0) :
    shape s q = .zero s := by
  obtain ⟨_, hs⟩ | ⟨m, e, hm, _, hr, _⟩ := shape_cases s hq
  · exact hs
  · have hpos : (0 : ℚ) < m * 2 ^ e := mul_pos (by exact_mod_cast hm) (two_zpow_pos e)
    rw [← hr, h] at hpos
    exact absurd hpos (lt_irrefl 0)

theorem Canonical.grain_eq {m : ℕ} {e : ℤ} (h : Canonical m e) (hm : 0 < m) :
    grain (m * 2 ^ e) = e := by
  have hq : (0 : ℚ) < m * 2 ^ e := mul_pos (by exact_mod_cast hm) (two_zpow_pos e)
  have hlt : (m : ℚ) * 2 ^ e < 2 ^ (e + 53) := by
    rw [add_comm, two_zpow_add]
    have h1 : (m : ℚ) < 2 ^ (53 : ℤ) := by exact_mod_cast h.lt
    exact mul_lt_mul_of_pos_right h1 (two_zpow_pos e)
  apply le_antisymm (grain_le_of_lt hq h.ge hlt)
  obtain hn | he := h.normal
  · apply le_grain_of_le
    rw [add_comm, two_zpow_add]
    have h1 : (2 : ℚ) ^ (52 : ℤ) ≤ m := by exact_mod_cast hn
    exact mul_le_mul_of_nonneg_right h1 (two_zpow_pos e).le
  · rw [he]
    exact grain_ge _

theorem Canonical.shape_eq {m : ℕ} {e : ℤ} (h : Canonical m e) (hm : 0 < m) (s : Sign) :
    shape s (m * 2 ^ e) = .finite s m e hm := by
  have hr : roundEven ((m : ℚ) * 2 ^ e / 2 ^ e) = m := by
    rw [mul_div_cancel_right₀ _ (two_zpow_pos e).ne', roundEven_natCast]
  unfold shape
  simp only [h.grain_eq hm, hr]
  rw [dif_neg (by omega), if_pos h.lt]

/-- A canonical shape fits in a float if its number is below `2 ^ 1024`. -/
theorem Canonical.lt_iff {m : ℕ} {e : ℤ} (h : Canonical m e) :
    (m : ℚ) * 2 ^ e < 2 ^ 1024 ↔ e ≤ 971 := by
  have hp := two_zpow_pos e
  constructor
  · intro hlt
    by_contra he
    have hm : 2 ^ 52 ≤ m := by
      obtain hn | hz := h.normal
      · exact hn
      · omega
    have hm' : (2 : ℚ) ^ (52 : ℤ) ≤ m := by exact_mod_cast hm
    have h1 : (2 : ℚ) ^ (1024 : ℤ) ≤ 2 ^ (52 + e) := two_zpow_le (by omega)
    rw [two_zpow_add] at h1
    have h2 := mul_le_mul_of_nonneg_right hm' hp.le
    have h3 : (2 : ℚ) ^ (1024 : ℤ) = 2 ^ 1024 := zpow_natCast 2 1024
    rw [h3] at h1
    exact absurd hlt (not_lt.mpr (h1.trans h2))
  · intro he
    have hm : (m : ℚ) < 2 ^ (53 : ℤ) := by exact_mod_cast h.lt
    calc (m : ℚ) * 2 ^ e < 2 ^ (53 : ℤ) * 2 ^ e := mul_lt_mul_of_pos_right hm hp
      _ = 2 ^ (53 + e) := (two_zpow_add _ _).symm
      _ ≤ 2 ^ (1024 : ℤ) := two_zpow_le (by omega)
      _ = 2 ^ 1024 := zpow_natCast 2 1024

/-- The sign of a number; that of `NaN` is positive. -/
def sign (x : Float) : Sign :=
  match parts x with
  | .infinity s | .zero s | .finite s _ _ _ => s
  | .notANumber => .positive

/-- The exact magnitude of a finite number. -/
def magnitude (x : Float) : ℚ :=
  match parts x with
  | .finite _ m e _ => m * 2 ^ e
  | _ => 0

/-- The float of sign `s` whose magnitude is nearest to `q`, half to even; infinite if that is too
large. -/
def nearest (s : Sign) (q : ℚ) : Float := ofParts (shape s q)

theorem isFinite_eq (x : Float) : x.isFinite = (parts x).isFinite := rfl

@[simp] theorem isFinite_neg (x : Float) : (-x).isFinite = x.isFinite := by
  rw [isFinite_eq, isFinite_eq, parts_neg]
  cases parts x <;> rfl

@[simp] theorem isFinite_abs (x : Float) : x.abs.isFinite = x.isFinite := by
  rw [isFinite_eq, isFinite_eq, parts_abs]
  cases parts x <;> rfl

theorem sign_neg {x : Float} (hx : x.isFinite = true) : sign (-x) = -sign x := by
  rw [isFinite_eq] at hx
  unfold sign
  rw [parts_neg]
  cases hp : parts x with
  | notANumber =>
    rw [hp] at hx
    cases hx
  | _ => rfl

@[simp] theorem sign_abs (x : Float) : sign x.abs = .positive := by
  unfold sign
  rw [parts_abs]
  cases parts x <;> rfl

@[simp] theorem magnitude_neg (x : Float) : magnitude (-x) = magnitude x := by
  unfold magnitude
  rw [parts_neg]
  cases parts x <;> rfl

@[simp] theorem magnitude_abs (x : Float) : magnitude x.abs = magnitude x := by
  unfold magnitude
  rw [parts_abs]
  cases parts x <;> rfl

/-- A finite number is a zero or has a canonical shape. -/
theorem parts_cases {x : Float} (hx : x.isFinite = true) :
    parts x = .zero (sign x) ∧ magnitude x = 0 ∨
      ∃ (m : ℕ) (e : ℤ) (h : 0 < m), parts x = .finite (sign x) m e h ∧ magnitude x = m * 2 ^ e ∧
        Canonical m e ∧ e ≤ 971 := by
  rw [isFinite_eq] at hx
  unfold sign magnitude
  cases hp : parts x with
  | infinity s =>
    rw [hp] at hx
    cases hx
  | notANumber =>
    rw [hp] at hx
    cases hx
  | zero s => exact Or.inl ⟨rfl, rfl⟩
  | finite s m e h =>
    obtain ⟨hc, he⟩ := canonical_of_parts hp
    exact Or.inr ⟨m, e, h, rfl, rfl, hc, he⟩

theorem magnitude_nonneg (x : Float) : 0 ≤ magnitude x := by
  unfold magnitude
  cases parts x with
  | finite s m e h => exact mul_nonneg (Nat.cast_nonneg m) (two_zpow_pos e).le
  | _ => exact le_rfl

theorem shape_magnitude {x : Float} (hx : x.isFinite = true) :
    shape (sign x) (magnitude x) = parts x := by
  obtain ⟨hz, h⟩ | ⟨m, e, hm, hp, h, hc, _⟩ := parts_cases hx
  · rw [h, hz, shape_zero]
  · rw [h, hp, hc.shape_eq hm]

/-- A finite number is given by its sign and its magnitude. -/
theorem nearest_magnitude {x : Float} (hx : x.isFinite = true) :
    nearest (sign x) (magnitude x) = x := by
  unfold nearest
  rw [shape_magnitude hx, ofParts_parts]

theorem eq_of_sign_magnitude {x y : Float} (hx : x.isFinite = true) (hy : y.isFinite = true)
    (hs : sign x = sign y) (hm : magnitude x = magnitude y) : x = y := by
  rw [← nearest_magnitude hx, ← nearest_magnitude hy, hs, hm]

theorem abs_eq_self {x : Float} (hx : x.isFinite = true) (hs : sign x = .positive) : x.abs = x := by
  have hf : x.abs.isFinite = true := by rwa [isFinite_abs]
  exact eq_of_sign_magnitude hf hx (by rw [sign_abs, hs]) (magnitude_abs x)

theorem neg_abs_eq_self {x : Float} (hx : x.isFinite = true) (hs : sign x = .negative) :
    -x.abs = x := by
  have hf : x.abs.isFinite = true := by rwa [isFinite_abs]
  have hf' : (-x.abs).isFinite = true := by rwa [isFinite_neg]
  apply eq_of_sign_magnitude hf' hx
  · rw [sign_neg hf, sign_abs, hs]
    rfl
  · rw [magnitude_neg, magnitude_abs]

theorem parts_nearest (s : Sign) {q : ℚ} (hq : 0 ≤ q) (h : rounded q < 2 ^ 1024) :
    parts (nearest s q) = shape s q := by
  unfold nearest
  obtain ⟨_, hs⟩ | ⟨m, e, hm, hc, hr, hs⟩ := shape_cases s hq
  · rw [hs, parts_ofParts_zero]
  · rw [hs]
    rw [hr] at h
    exact parts_ofParts_finite hm hc (hc.lt_iff.mp h)

theorem parts_nearest_large (s : Sign) {q : ℚ} (hq : 0 ≤ q) (h : 2 ^ 1024 ≤ rounded q) :
    parts (nearest s q) = .infinity s := by
  unfold nearest
  obtain ⟨hz, _⟩ | ⟨m, e, hm, hc, hr, hs⟩ := shape_cases s hq
  · rw [hz] at h
    exact absurd h (by norm_num)
  · rw [hs]
    rw [hr] at h
    apply parts_ofParts_large hm
    have hn := hc.lt_iff.not.mp (not_lt.mpr h)
    omega

theorem isFinite_nearest (s : Sign) {q : ℚ} (hq : 0 ≤ q) :
    (nearest s q).isFinite = true ↔ rounded q < 2 ^ 1024 := by
  rw [isFinite_eq]
  constructor
  · intro h
    by_contra hn
    rw [parts_nearest_large s hq (not_lt.mp hn)] at h
    cases h
  · intro h
    rw [parts_nearest s hq h]
    obtain ⟨_, hs⟩ | ⟨m, e, hm, _, _, hs⟩ := shape_cases s hq
    · rw [hs]
      rfl
    · rw [hs]
      rfl

theorem magnitude_nearest (s : Sign) {q : ℚ} (hq : 0 ≤ q) (h : rounded q < 2 ^ 1024) :
    magnitude (nearest s q) = rounded q := by
  unfold magnitude
  rw [parts_nearest s hq h]
  obtain ⟨hz, hs⟩ | ⟨m, e, hm, _, hr, hs⟩ := shape_cases s hq
  · rw [hs, hz]
  · rw [hs, hr]

@[simp] theorem sign_nearest (s : Sign) {q : ℚ} (hq : 0 ≤ q) : sign (nearest s q) = s := by
  unfold sign
  obtain h | h := lt_or_ge (rounded q) (2 ^ 1024)
  · rw [parts_nearest s hq h]
    obtain ⟨_, hs⟩ | ⟨m, e, hm, _, _, hs⟩ := shape_cases s hq
    · rw [hs]
    · rw [hs]
  · rw [parts_nearest_large s hq h]

@[simp] theorem parts_nearest_zero (s : Sign) : parts (nearest s 0) = .zero s := by
  unfold nearest
  rw [shape_zero, parts_ofParts_zero]

@[simp] theorem isFinite_nearest_zero (s : Sign) : (nearest s 0).isFinite = true := by
  rw [isFinite_eq, parts_nearest_zero]
  rfl

@[simp] theorem magnitude_nearest_zero (s : Sign) : magnitude (nearest s 0) = 0 := by
  unfold magnitude
  rw [parts_nearest_zero]

theorem nearest_rounded (s : Sign) {q : ℚ} (hq : 0 ≤ q) (h : rounded q < 2 ^ 1024) :
    nearest s (rounded q) = nearest s q := by
  have hf := (isFinite_nearest s hq).mpr h
  have he := nearest_magnitude hf
  rw [magnitude_nearest s hq h, sign_nearest s hq] at he
  exact he

theorem nearest_eq_iff (s : Sign) {p q : ℚ} (hp : 0 ≤ p) (hq : 0 ≤ q) (hlp : rounded p < 2 ^ 1024)
    (hlq : rounded q < 2 ^ 1024) : nearest s p = nearest s q ↔ rounded p = rounded q := by
  constructor
  · intro h
    rw [← magnitude_nearest s hp hlp, ← magnitude_nearest s hq hlq, h]
  · intro h
    rw [← nearest_rounded s hp hlp, ← nearest_rounded s hq hlq, h]

private theorem le_log2_of_le {k n : ℕ} (h : 2 ^ k ≤ n) : k ≤ n.log2 :=
  (Nat.le_log2 (by have := Nat.two_pow_pos k; omega)).mpr h

theorem mul_eq_nearest {x y : Float} (hx : x.isFinite = true) (hy : y.isFinite = true) :
    x * y = nearest (sign x * sign y) (magnitude x * magnitude y) := by
  change ofParts (UnpackedFloat.mul .binary64 (parts x) (parts y)) = _
  unfold nearest
  congr 1
  obtain ⟨hz, hm⟩ | ⟨m, e, h, hp, hm, hc, _⟩ := parts_cases hx
  · rw [hz, hm, zero_mul, shape_zero]
    obtain ⟨hz', _⟩ | ⟨n, f, h', hp', _⟩ := parts_cases hy
    · rw [hz']
      rfl
    · rw [hp']
      rfl
  obtain ⟨hz', hm'⟩ | ⟨n, f, h', hp', hm', hc', _⟩ := parts_cases hy
  · rw [hp, hz', hm', mul_zero, shape_zero]
    rfl
  have he : 52 ≤ (m * n).log2 ∨ e + f ≤ -1074 := by
    obtain hn | hn := hc.normal
    · exact Or.inl (le_log2_of_le (Nat.le_mul_of_pos_right m h' |>.trans' hn))
    · obtain hn' | hn' := hc'.normal
      · exact Or.inl (le_log2_of_le (Nat.le_mul_of_pos_left n h |>.trans' hn'))
      · exact Or.inr (by omega)
  have hr : Reads ((m * n : ℕ) : ℚ) (m * n) .exact := Reads.exact rfl
  have hpos : (0 : ℚ) < ((m * n : ℕ) : ℚ) := by exact_mod_cast Nat.mul_pos h h'
  rw [hp, hp', hm, hm']
  change roundWithAccuracy .binary64 _ (m * n) (e + f) .exact = _
  rw [roundWithAccuracy_eq_shape _ hr hpos he, two_zpow_add]
  congr 1
  push_cast
  ring

theorem reads_accuracyOfFraction {a b : ℕ} (hb : 0 < b) :
    Reads ((a : ℚ) / b) (a / b) (accuracyOfFraction (a % b) b) := by
  have hbq : (0 : ℚ) < b := by exact_mod_cast hb
  have hab : (a : ℚ) = b * (a / b : ℕ) + (a % b : ℕ) := by exact_mod_cast (Nat.div_add_mod a b).symm
  have hlt : ((a % b : ℕ) : ℚ) < b := by exact_mod_cast Nat.mod_lt a hb
  have hv : (a : ℚ) / b = (a / b : ℕ) + (a % b : ℕ) / b := by
    rw [div_eq_iff hbq.ne', add_mul, div_mul_cancel₀ _ hbq.ne', mul_comm]
    exact hab
  have hfrac : ((a % b : ℕ) : ℚ) / b < 1 := (div_lt_one hbq).mpr hlt
  unfold accuracyOfFraction
  split
  · rename_i h0
    apply Reads.exact
    rw [hv, h0, Nat.cast_zero, zero_div, add_zero]
  · rename_i h0
    have hpos : (0 : ℚ) < (a % b : ℕ) := by exact_mod_cast Nat.pos_of_ne_zero h0
    have hfpos : 0 < ((a % b : ℕ) : ℚ) / b := div_pos hpos hbq
    obtain h | h | h := lt_trichotomy (2 * (a % b)) b
    · rw [Nat.compare_eq_lt.mpr h]
      have hq : 2 * ((a % b : ℕ) : ℚ) < b := by exact_mod_cast h
      have hhalf : ((a % b : ℕ) : ℚ) / b < 1 / 2 := by
        rw [div_lt_iff₀ hbq]
        linarith
      exact Reads.lt (by linarith) (by linarith)
    · rw [Nat.compare_eq_eq.mpr h]
      have hq : 2 * ((a % b : ℕ) : ℚ) = b := by exact_mod_cast h
      have hhalf : ((a % b : ℕ) : ℚ) / b = 1 / 2 := by
        rw [div_eq_iff hbq.ne']
        linarith
      exact Reads.eq (by linarith)
    · rw [Nat.compare_eq_gt.mpr h]
      have hq : (b : ℚ) < 2 * ((a % b : ℕ) : ℚ) := by exact_mod_cast h
      have hhalf : 1 / 2 < ((a % b : ℕ) : ℚ) / b := by
        rw [lt_div_iff₀ hbq]
        linarith
      exact Reads.gt (by linarith) (by linarith)

/-- The quotient of two shapes, of any lengths, is rounded once. -/
theorem div_finite (s t : Sign) {m n : ℕ} (e f : ℤ) (hm : 0 < m) (hn : 0 < n) :
    UnpackedFloat.div .binary64 (.finite s m e hm) (.finite t n f hn) =
      shape (s / t) (m * 2 ^ e / (n * 2 ^ f)) := by
  have hmq : (0 : ℚ) < m := by exact_mod_cast hm
  have hnq : (0 : ℚ) < n := by exact_mod_cast hn
  have ht : Format.binary64.targetExponent (totalExponent m e - totalExponent n f) =
      max (m.log2 + e - (n.log2 + f) - 53) (-1074) := by
    change max ((m.log2 : ℤ) + 1 + e - (n.log2 + 1 + f) - 53) (-1074) = _
    congr 1
    ring
  unfold UnpackedFloat.div divCore
  simp only [ht, Nat.shiftLeft_eq]
  generalize hg : min (e - f) (max ((m.log2 : ℤ) + e - (n.log2 + f) - 53) (-1074)) = g
  generalize hk : (e - f - g).toNat = k
  have hgk : e - f = k + g := by omega
  have hbits : 52 ≤ (m * 2 ^ k / n).log2 ∨ g ≤ -1074 := by
    obtain hle | hgt := le_or_gt g (-1074)
    · exact Or.inr hle
    · left
      apply le_log2_of_le
      rw [Nat.le_div_iff_mul_le hn]
      have h1 : n < 2 ^ (n.log2 + 1) := Nat.lt_log2_self
      have h2 : 2 ^ m.log2 ≤ m := Nat.log2_self_le (by omega)
      calc 2 ^ 52 * n ≤ 2 ^ 52 * 2 ^ (n.log2 + 1) := Nat.mul_le_mul_left _ h1.le
        _ = 2 ^ (52 + (n.log2 + 1)) := (Nat.pow_add _ _ _).symm
        _ ≤ 2 ^ (m.log2 + k) := Nat.pow_le_pow_right (by decide) (by omega)
        _ = 2 ^ m.log2 * 2 ^ k := Nat.pow_add _ _ _
        _ ≤ m * 2 ^ k := Nat.mul_le_mul_right _ h2
  have hpos : (0 : ℚ) < ((m * 2 ^ k : ℕ) : ℚ) / n := by
    push_cast
    positivity
  rw [roundWithAccuracy_eq_shape _ (reads_accuracyOfFraction hn) hpos hbits]
  congr 1
  have hz : (2 : ℚ) ^ e = 2 ^ k * 2 ^ g * 2 ^ f := by
    rw [← zpow_natCast, ← two_zpow_add, ← two_zpow_add]
    congr 1
    omega
  have hf := (two_zpow_pos f).ne'
  rw [hz]
  push_cast
  field_simp

theorem div_eq_nearest {x y : Float} (hx : x.isFinite = true) (hy : y.isFinite = true)
    (h0 : magnitude y ≠ 0) : x / y = nearest (sign x / sign y) (magnitude x / magnitude y) := by
  change ofParts (UnpackedFloat.div .binary64 (parts x) (parts y)) = _
  unfold nearest
  congr 1
  obtain ⟨_, hm'⟩ | ⟨n, f, h', hp', hm', _⟩ := parts_cases hy
  · exact absurd hm' h0
  obtain ⟨hz, hm⟩ | ⟨m, e, h, hp, hm, _⟩ := parts_cases hx
  · rw [hz, hp', hm, zero_div, shape_zero]
    rfl
  · rw [hp, hp', hm, hm', div_finite]

/-- A shape of any length is rounded once. -/
theorem round_eq_shape (s : Sign) {m : ℕ} (e : ℤ) (hm : 0 < m) :
    UnpackedFloat.round .binary64 s m e = shape s (m * 2 ^ e) := by
  have ht := targetExponent_eq m e
  unfold UnpackedFloat.round decreaseExponent
  simp only [ht, Nat.shiftLeft_eq]
  generalize hk : (e - max ((m.log2 : ℤ) + e - 52) (-1074)).toNat = k
  have hpos : (0 : ℚ) < ((m * 2 ^ k : ℕ) : ℚ) := by
    exact_mod_cast Nat.mul_pos hm (Nat.two_pow_pos k)
  have hbits : 52 ≤ (m * 2 ^ k).log2 ∨ e - k ≤ -1074 := by
    obtain hle | hgt := le_or_gt (e - k) (-1074)
    · exact Or.inr hle
    · left
      apply le_log2_of_le
      calc 2 ^ 52 ≤ 2 ^ (m.log2 + k) := Nat.pow_le_pow_right (by decide) (by omega)
        _ = 2 ^ m.log2 * 2 ^ k := Nat.pow_add _ _ _
        _ ≤ m * 2 ^ k := Nat.mul_le_mul_right _ (Nat.log2_self_le (by omega))
  rw [roundWithAccuracy_eq_shape s (Reads.exact rfl) hpos hbits]
  congr 1
  have hz : (2 : ℚ) ^ e = 2 ^ k * 2 ^ (e - k) := by
    rw [← zpow_natCast, ← two_zpow_add]
    congr 1
    omega
  rw [hz]
  push_cast
  ring

theorem ofInt_apply (s : Sign) {n : ℕ} (hn : 0 < n) : ofInt (s.apply n) = nearest s n := by
  have h := round_eq_shape s 0 hn
  rw [zpow_zero, mul_one] at h
  unfold nearest
  rw [← h]
  change ofParts (UnpackedFloat.normalize .binary64 (s.apply n) 0 .positive) = _
  congr 1
  have hpos : (0 : ℤ) < n := by exact_mod_cast hn
  unfold UnpackedFloat.normalize
  cases s with
  | positive =>
    rw [show Sign.apply .positive (n : ℤ) = n from rfl, compare_gt_iff_gt.mpr hpos]
    rfl
  | negative =>
    rw [show Sign.apply .negative (n : ℤ) = -n from rfl, compare_lt_iff_lt.mpr (by omega)]
    simp

theorem ofInt_zero : ofInt 0 = nearest .positive 0 := by
  unfold nearest
  rw [shape_zero]
  rfl

end SciCalc.Number
