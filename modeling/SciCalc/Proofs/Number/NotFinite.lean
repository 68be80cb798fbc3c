import SciCalc.Number.Limits
import SciCalc.Proofs.Number.Nearest

namespace SciCalc.Number

open Float.Model Float.Model.UnpackedFloat

theorem isFinite_eq_false_iff (x : Float) :
    x.isFinite = false ↔ x.isNaN = true ∨ x.isInf = true := by
  change (parts x).isFinite = false ↔ (parts x).isNaN = true ∨ (parts x).isInf = true
  cases parts x <;> simp [UnpackedFloat.isFinite, UnpackedFloat.isNaN, UnpackedFloat.isInf]

theorem isNaN_of_isInf {x : Float} (h : x.isInf = true) : x.isNaN = false := by
  change (parts x).isInf = true at h
  change (parts x).isNaN = false
  cases hp : parts x <;> rw [hp] at h <;> first | rfl | cases h

theorem isFinite_of_isInf {x : Float} (h : x.isInf = true) : x.isFinite = false :=
  (isFinite_eq_false_iff x).mpr (.inr h)

theorem isNaN_of_isFinite {x : Float} (h : x.isFinite = true) : x.isNaN = false := by
  by_contra hn
  have hf := (isFinite_eq_false_iff x).mpr (.inl (Bool.of_not_eq_false hn))
  rw [h] at hf
  cases hf

theorem isInf_of_isFinite {x : Float} (h : x.isFinite = true) : x.isInf = false := by
  by_contra hn
  have hf := isFinite_of_isInf (Bool.of_not_eq_false hn)
  rw [h] at hf
  cases hf

/-- What equals a finite number is finite. -/
theorem isFinite_of_beq {x y : Float} (h : (x == y) = true) (hy : y.isFinite = true) :
    x.isFinite = true := by
  change (parts x).beq (parts y) = true at h
  change (parts y).isFinite = true at hy
  change (parts x).isFinite = true
  cases hu : parts x with
  | zero s => rfl
  | finite s m e hm => rfl
  | notANumber =>
    rw [hu] at h
    cases h
  | infinity s =>
    rw [hu] at h
    cases hv : parts y with
    | zero t =>
      rw [hv] at h
      cases s <;> cases h
    | finite t m e hm =>
      rw [hv] at h
      cases s <;> cases h
    | _ =>
      rw [hv] at hy
      cases hy

theorem isNaN_of_lt {x y : Float} (h : x < y) : x.isNaN = false ∧ y.isNaN = false := by
  have hlt : (parts x).lt (parts y) = true := of_decide_eq_true h
  change (parts x).isNaN = false ∧ (parts y).isNaN = false
  cases hu : parts x <;> cases hv : parts y <;> rw [hu, hv] at hlt <;>
    first | exact ⟨rfl, rfl⟩ | cases hlt

@[simp] theorem isNaN_abs (x : Float) : x.abs.isNaN = x.isNaN := by
  change (parts x.abs).isNaN = (parts x).isNaN
  rw [parts_abs]
  cases parts x <;> rfl

theorem isFinite_of_ofParts {u : UnpackedFloat} (h : (ofParts u).isFinite = true) :
    u.isFinite = true := by
  cases u with
  | notANumber => cases h
  | infinity s =>
    rw [isFinite_eq, parts_ofParts_infinity] at h
    cases h
  | zero s => rfl
  | finite s m e hm => rfl

/-- A finite sum, difference or product is one of finite numbers. -/
theorem finite_shapes {op : UnpackedFloat → UnpackedFloat → UnpackedFloat} {u v : UnpackedFloat}
    (hop : op = add .binary64 ∨ op = sub .binary64 ∨ op = mul .binary64)
    (h : (op u v).isFinite = true) : u.isFinite = true ∧ v.isFinite = true := by
  obtain rfl | rfl | rfl := hop
  all_goals
    rcases u with s | _ | _ | _ <;> rcases v with t | _ | _ | _ <;> try exact ⟨rfl, rfl⟩
  -- of two infinities the signs decide whether there is an infinity or no number
  all_goals first | cases h | (cases s <;> cases t <;> cases h)

section Operands

variable {x y : Float}

theorem finite_of_add (h : (x + y).isFinite = true) : x.isFinite = true ∧ y.isFinite = true :=
  finite_shapes (.inl rfl) (isFinite_of_ofParts h)

theorem finite_of_sub (h : (x - y).isFinite = true) : x.isFinite = true ∧ y.isFinite = true :=
  finite_shapes (.inr (.inl rfl)) (isFinite_of_ofParts h)

theorem finite_of_mul (h : (x * y).isFinite = true) : x.isFinite = true ∧ y.isFinite = true :=
  finite_shapes (.inr (.inr rfl)) (isFinite_of_ofParts h)

theorem finite_of_sqrt (h : x.sqrt.isFinite = true) : x.isFinite = true := by
  have hs : (UnpackedFloat.sqrt .binary64 (parts x)).isFinite = true := isFinite_of_ofParts h
  rw [isFinite_eq]
  generalize parts x = u at hs
  rcases u with s | _ | _ | _ <;> try rfl
  · cases s <;> cases hs
  · cases hs

/-- A quotient with an operand that is not finite is finite if the dividend is and the divisor is an
infinity. -/
theorem isFinite_div_iff (h : x.isFinite = false ∨ y.isFinite = false) :
    (x / y).isFinite = true ↔ x.isFinite = true ∧ y.isInf = true := by
  change (parts x).isFinite = false ∨ (parts y).isFinite = false at h
  change (ofParts (UnpackedFloat.div .binary64 (parts x) (parts y))).isFinite = true ↔
    (parts x).isFinite = true ∧ (parts y).isInf = true
  generalize parts x = u at h
  generalize parts y = v at h
  have hto : (ofParts (UnpackedFloat.div .binary64 u v)).isFinite = true →
      (UnpackedFloat.div .binary64 u v).isFinite = true := isFinite_of_ofParts
  rcases u with s | _ | s | ⟨s, m, e, hm⟩ <;> rcases v with t | _ | t | ⟨t, n, f, hn⟩ <;>
    simp_all [UnpackedFloat.isFinite, UnpackedFloat.isInf, UnpackedFloat.div, isFinite_eq]

end Operands

theorem isFinite_zero : (0 : Float).isFinite = true := by decide +kernel

theorem isFinite_one : (1 : Float).isFinite = true := by decide +kernel

theorem isFinite_nan : nan.isFinite = false := by decide +kernel

theorem isFinite_infinity : infinity.isFinite = false := by decide +kernel

section Limits

variable {low high : Float} {f : Float → Float} {x : Float}

theorem isFinite_withLimits (hl : low.isFinite = false) (hh : high.isFinite = false)
    (hx : x.isFinite = false) : (withLimits low high f x).isFinite = false := by
  unfold withLimits
  rw [if_neg (by simp [hx])]
  split_ifs
  · exact isFinite_nan
  · exact hl
  · exact hh

theorem withLimits_of_isInf (hx : x.isInf = true) :
    withLimits low high f x = low ∨ withLimits low high f x = high := by
  unfold withLimits
  rw [if_neg (by simp [isFinite_of_isInf hx]), if_neg (Bool.eq_false_iff.mp (isNaN_of_isInf hx))]
  split_ifs
  · exact .inl rfl
  · exact .inr rfl

theorem isInf_of_withLimits (hx : x.isFinite = false)
    (h : (withLimits low high f x).isFinite = true) :
    x.isInf = true := by
  obtain hn | hi := (isFinite_eq_false_iff x).mp hx
  · rw [withLimits, if_neg (by simp [hx]), if_pos hn, isFinite_nan] at h
    cases h
  · exact hi

end Limits

/-- The powers that are finite although the base or the exponent is not. -/
inductive FinitePower : Float → Float → Prop
  | exponentZero {x y : Float} (hx : x.isFinite = false) (hy : (y == 0) = true) : FinitePower x y
  | baseOne {x y : Float} (hx : (x == 1) = true) (hy : y.isFinite = false) : FinitePower x y
  | baseMinusOne {x y : Float} (hx : (x == -1) = true) (hy : y.isInf = true) : FinitePower x y
  | smallBase {x y : Float} (hx : x.abs < 1) (hy : y.isInf = true) (h : 0 < y) : FinitePower x y
  | largeBase {x y : Float} (hx : 1 < x.abs) (hy : y.isInf = true) (h : y < 0) : FinitePower x y
  | infiniteBase {x y : Float} (hx : x.isInf = true) (hy : y.isFinite = true) (h : y < 0) :
      FinitePower x y

theorem FinitePower.not_both {x y : Float} (h : FinitePower x y) :
    x.isFinite = false ∨ y.isFinite = false := by
  cases h with
  | exponentZero hx _ => exact .inl hx
  | baseOne _ hy => exact .inr hy
  | infiniteBase hx _ _ => exact .inl (isFinite_of_isInf hx)
  | baseMinusOne _ hy => exact .inr (isFinite_of_isInf hy)
  | smallBase _ hy _ => exact .inr (isFinite_of_isInf hy)
  | largeBase _ hy _ => exact .inr (isFinite_of_isInf hy)

/-- A power with an infinite exponent is finite if the base is minus one, or if the power
vanishes. -/
theorem isFinite_powLimit_of_isInf {x y : Float} (hx : x.isNaN = false) (hy : y.isInf = true)
    (h : (x == -1) = true ∨ x.abs < 1 ∧ 0 < y ∨ 1 < x.abs ∧ y < 0) :
    (powLimit x y).isFinite = true := by
  have hnum : ¬(x.isNaN || y.isNaN) = true := by
    rw [hx, isNaN_of_isInf hy]
    exact Bool.false_ne_true
  unfold powLimit
  rw [if_neg hnum, if_pos hy]
  split_ifs with hone hminus hzero
  · exact isFinite_one
  · exact isFinite_one
  · exact isFinite_zero
  · simp only [Bool.or_eq_true, Bool.and_eq_true, decide_eq_true_eq] at hzero
    exact absurd (h.resolve_left hminus) hzero

theorem FinitePower.isFinite_powLimit {x y : Float} (h : FinitePower x y) :
    (powLimit x y).isFinite = true := by
  cases h with
  | exponentZero hx hy =>
    rw [powLimit, if_pos (by simp [hy])]
    exact isFinite_one
  | baseOne hx hy =>
    rw [powLimit, if_pos (by simp [hx])]
    exact isFinite_one
  | baseMinusOne hx hy =>
    have hm : (-1 : Float).isFinite = true := by decide +kernel
    exact isFinite_powLimit_of_isInf (isNaN_of_isFinite (isFinite_of_beq hx hm)) hy (.inl hx)
  | smallBase hx hy h =>
    have hn := (isNaN_of_lt hx).1
    rw [isNaN_abs] at hn
    exact isFinite_powLimit_of_isInf hn hy (.inr (.inl ⟨hx, h⟩))
  | largeBase hx hy h =>
    have hn := (isNaN_of_lt hx).2
    rw [isNaN_abs] at hn
    exact isFinite_powLimit_of_isInf hn hy (.inr (.inr ⟨hx, h⟩))
  | infiniteBase hx hy h =>
    have hnum : ¬(x.isNaN || y.isNaN) = true := by
      rw [isNaN_of_isInf hx, isNaN_of_isFinite hy]
      exact Bool.false_ne_true
    unfold powLimit
    rw [if_neg hnum, if_neg (Bool.eq_false_iff.mp (isInf_of_isFinite hy)), if_pos h]
    simp only
    split_ifs
    · exact isFinite_one
    · rw [isFinite_neg]
      exact isFinite_zero
    · exact isFinite_zero

/-- Of the powers that are not of finite numbers only these are finite. -/
theorem FinitePower.of_isFinite_powLimit {x y : Float} (h : x.isFinite = false ∨ y.isFinite = false)
    (hf : (powLimit x y).isFinite = true) : FinitePower x y := by
  have hnan : nan.isFinite ≠ true := by simp [isFinite_nan]
  have hinfinity : infinity.isFinite ≠ true := by simp [isFinite_infinity]
  unfold powLimit at hf
  simp only [apply_ite Float.isFinite, isFinite_neg, ite_self] at hf
  split_ifs at hf with hone hnum hinf hminus hzero hneg
  · obtain hy | hx := Bool.or_eq_true_iff.mp hone
    · exact .exponentZero (h.resolve_right (by simp [isFinite_of_beq hy isFinite_zero])) hy
    · exact .baseOne hx (h.resolve_left (by simp [isFinite_of_beq hx isFinite_one]))
  · exact absurd hf hnan
  · exact .baseMinusOne hminus hinf
  · simp only [Bool.or_eq_true, Bool.and_eq_true, decide_eq_true_eq] at hzero
    obtain ⟨hx, hy⟩ | ⟨hx, hy⟩ := hzero
    · exact .smallBase hx hinf hy
    · exact .largeBase hx hinf hy
  · exact absurd hf hinfinity
  · have hy : y.isFinite = true := by
      by_contra hy
      obtain hy | hy := (isFinite_eq_false_iff y).mp (Bool.eq_false_iff.mpr hy)
      · exact hnum (Bool.or_eq_true_iff.mpr (.inr hy))
      · exact hinf hy
    have hx : x.isInf = true := by
      obtain hx | hx := (isFinite_eq_false_iff x).mp (h.resolve_right (by simp [hy]))
      · exact absurd (Bool.or_eq_true_iff.mpr (.inl hx)) hnum
      · exact hx
    exact .infiniteBase hx hy hneg
  · exact absurd hf hinfinity

theorem isFinite_pow_iff {x y : Float} (h : x.isFinite = false ∨ y.isFinite = false) :
    (pow x y).isFinite = true ↔ FinitePower x y := by
  have hpow : pow x y = powLimit x y := by
    unfold pow
    obtain hx | hy := h
    · rw [if_neg (by simp [hx])]
    · rw [if_neg (by simp [hy])]
  rw [hpow]
  exact ⟨FinitePower.of_isFinite_powLimit h, FinitePower.isFinite_powLimit⟩

end SciCalc.Number
