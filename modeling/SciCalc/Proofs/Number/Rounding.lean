import Mathlib.Algebra.Order.Floor.Semifield
import Mathlib.Data.Int.Log
import Mathlib.Data.Rat.Floor
import Mathlib.Tactic.Linarith
import Mathlib.Tactic.Ring
import Mathlib.Tactic.Positivity

namespace SciCalc.Number

/-- The natural number nearest to `q`, half to even. -/
def roundEven (q : ℚ) : ℕ :=
  if q - ⌊q⌋₊ < 1 / 2 then ⌊q⌋₊
  else if q - ⌊q⌋₊ = 1 / 2 then ⌊q⌋₊ + ⌊q⌋₊ % 2
  else ⌊q⌋₊ + 1

/-- The exponent of the units that `q` is counted in: 53 bits are kept, and none below
`2 ^ -1074`. -/
def grain (q : ℚ) : ℤ := max (Int.log 2 q - 52) (-1074)

/-- The number of 53 bits nearest to `q`. -/
def rounded (q : ℚ) : ℚ := roundEven (q / 2 ^ grain q) * 2 ^ grain q

section RoundEven

variable {q : ℚ}

private theorem floor_bounds (hq : 0 ≤ q) : (⌊q⌋₊ : ℚ) ≤ q ∧ q < ⌊q⌋₊ + 1 :=
  ⟨Nat.floor_le hq, Nat.lt_floor_add_one q⟩

theorem abs_roundEven_sub_le (hq : 0 ≤ q) : |(roundEven q : ℚ) - q| ≤ 1 / 2 := by
  have hb := floor_bounds hq
  rw [abs_le]
  unfold roundEven
  split_ifs with h1 h2
  · constructor <;> linarith
  · have hm : ((⌊q⌋₊ % 2 : ℕ) : ℚ) ≤ 1 := by
      exact_mod_cast Nat.le_of_lt_succ (Nat.mod_lt _ (by decide))
    have h0 : (0 : ℚ) ≤ ((⌊q⌋₊ % 2 : ℕ) : ℚ) := by positivity
    push_cast at hm h0 ⊢
    constructor <;> linarith
  · push_cast
    have h3 : 1 / 2 ≤ q - ⌊q⌋₊ := not_lt.mp h1
    constructor <;> linarith

/-- A whole number at a distance of at most a half is the floor or the number above it. -/
private theorem floor_of_abs_le {n : ℕ} (hq : 0 ≤ q) (h : |(n : ℚ) - q| ≤ 1 / 2) :
    n = ⌊q⌋₊ ∧ |(n : ℚ) - q| = q - ⌊q⌋₊ ∨ n = ⌊q⌋₊ + 1 ∧ |(n : ℚ) - q| = 1 - (q - ⌊q⌋₊) := by
  have hb := floor_bounds hq
  obtain ⟨hl, hr⟩ := abs_le.mp h
  have hlo : ⌊q⌋₊ ≤ n := by
    have : (⌊q⌋₊ : ℚ) < n + 1 := by linarith
    exact Nat.lt_succ_iff.mp (by exact_mod_cast this)
  have hhi : n ≤ ⌊q⌋₊ + 1 := by
    have : (n : ℚ) < (⌊q⌋₊ + 1 : ℕ) + 1 := by push_cast; linarith
    exact Nat.lt_succ_iff.mp (by exact_mod_cast this)
  obtain hn | hn := Nat.lt_or_ge ⌊q⌋₊ n
  · right
    have he : n = ⌊q⌋₊ + 1 := by omega
    have hc : (n : ℚ) = ⌊q⌋₊ + 1 := by exact_mod_cast he
    refine ⟨he, ?_⟩
    rw [hc, abs_of_nonneg (by linarith)]
    ring
  · left
    have he : n = ⌊q⌋₊ := by omega
    have hc : (n : ℚ) = ⌊q⌋₊ := by exact_mod_cast he
    refine ⟨he, ?_⟩
    rw [hc, abs_sub_comm, abs_of_nonneg (by linarith)]

/-- The error is the distance from the nearer of the two whole numbers around. -/
theorem abs_roundEven_sub_eq_min (hq : 0 ≤ q) :
    |(roundEven q : ℚ) - q| = min (q - ⌊q⌋₊) (1 - (q - ⌊q⌋₊)) := by
  have hle := abs_roundEven_sub_le hq
  obtain ⟨_, hd⟩ | ⟨_, hd⟩ := floor_of_abs_le hq hle
  · rw [hd] at hle ⊢
    exact (min_eq_left (by linarith)).symm
  · rw [hd] at hle ⊢
    exact (min_eq_right (by linarith)).symm

/-- The error for a quotient of natural numbers, read off its remainder. -/
theorem abs_roundEven_div_sub (a : ℕ) {u : ℕ} (hu : 0 < u) :
    |(roundEven ((a : ℚ) / u) : ℚ) - a / u| = min ((a % u : ℕ) : ℚ) (u - (a % u : ℕ)) / u := by
  have huq : (0 : ℚ) < u := by exact_mod_cast hu
  have ha : (a : ℚ) = u * (a / u : ℕ) + (a % u : ℕ) := by exact_mod_cast (Nat.div_add_mod a u).symm
  have hfloor : (a : ℚ) / u - ⌊(a : ℚ) / u⌋₊ = (a % u : ℕ) / u := by
    rw [Nat.floor_div_eq_div, sub_eq_iff_eq_add, div_eq_iff huq.ne', add_mul,
      div_mul_cancel₀ _ huq.ne', add_comm, mul_comm _ (u : ℚ)]
    exact ha
  rw [abs_roundEven_sub_eq_min (div_nonneg (Nat.cast_nonneg a) huq.le), hfloor,
    ← min_div_div_right huq.le, sub_div, div_self huq.ne']

theorem roundEven_eq_iff {n : ℕ} (hq : 0 ≤ q) :
    roundEven q = n ↔ |(n : ℚ) - q| < 1 / 2 ∨ |(n : ℚ) - q| = 1 / 2 ∧ n % 2 = 0 := by
  constructor
  · intro h
    have hle := abs_roundEven_sub_le hq
    rw [h] at hle
    obtain hlt | heq := lt_or_eq_of_le hle
    · exact Or.inl hlt
    · right
      refine ⟨heq, ?_⟩
      have hhalf : q - ⌊q⌋₊ = 1 / 2 := by
        obtain ⟨_, hd⟩ | ⟨_, hd⟩ := floor_of_abs_le hq hle
        · linarith
        · linarith
      unfold roundEven at h
      rw [if_neg (by linarith), if_pos hhalf] at h
      omega
  · intro h
    have hle : |(n : ℚ) - q| ≤ 1 / 2 := by
      obtain h | h := h
      · exact h.le
      · exact h.1.le
    unfold roundEven
    obtain ⟨hn, hd⟩ | ⟨hn, hd⟩ := floor_of_abs_le hq hle
    · rw [hd] at h hle
      split_ifs with h1 h2
      · exact hn.symm
      · obtain h | h := h
        · linarith
        · omega
      · exact absurd (lt_of_le_of_ne hle h2) h1
    · rw [hd] at h hle
      split_ifs with h1 h2
      · linarith
      · obtain h | h := h
        · linarith
        · omega
      · exact hn.symm

@[simp] theorem roundEven_natCast (n : ℕ) : roundEven n = n := by
  rw [roundEven_eq_iff (by positivity)]
  left
  norm_num

/-- A whole number is rounded to by whatever is nearer to it than something that is. -/
theorem roundEven_of_abs_le {p : ℚ} {n : ℕ} (hp : 0 ≤ p) (hq : 0 ≤ q) (h : roundEven q = n)
    (hle : |(n : ℚ) - p| ≤ |(n : ℚ) - q|) : roundEven p = n := by
  rw [roundEven_eq_iff hq] at h
  rw [roundEven_eq_iff hp]
  obtain h | ⟨h, he⟩ := h
  · exact Or.inl (hle.trans_lt h)
  · obtain hlt | heq := lt_or_eq_of_le (hle.trans_eq h)
    · exact Or.inl hlt
    · exact Or.inr ⟨heq, he⟩

theorem roundEven_mono {p : ℚ} (hp : 0 ≤ p) (h : p ≤ q) : roundEven p ≤ roundEven q := by
  by_contra hn
  have hq : 0 ≤ q := hp.trans h
  have hlt : roundEven q + 1 ≤ roundEven p := Nat.lt_of_not_le hn
  have hc : (roundEven q : ℚ) + 1 ≤ roundEven p := by exact_mod_cast hlt
  have h1 := abs_le.mp (abs_roundEven_sub_le hp)
  have h2 := abs_le.mp (abs_roundEven_sub_le hq)
  have he : p = q := by linarith
  rw [he] at hn
  exact hn le_rfl

/-- No whole number is nearer than the one rounded to. -/
theorem abs_roundEven_sub_le_abs (hq : 0 ≤ q) (n : ℕ) :
    |(roundEven q : ℚ) - q| ≤ |(n : ℚ) - q| := by
  have hle := abs_roundEven_sub_le hq
  by_contra hn
  have hlt : |(n : ℚ) - q| < 1 / 2 := (lt_of_not_ge hn).trans_le hle
  have he : roundEven q = n := (roundEven_eq_iff hq).mpr (Or.inl hlt)
  rw [he] at hn
  exact hn le_rfl

end RoundEven

section Rounded

variable {q : ℚ}

theorem two_zpow_pos (e : ℤ) : (0 : ℚ) < 2 ^ e := zpow_pos (by norm_num) e

theorem two_zpow_le {d e : ℤ} (h : d ≤ e) : (2 : ℚ) ^ d ≤ 2 ^ e :=
  zpow_le_zpow_right₀ (by norm_num) h

theorem two_zpow_add (d e : ℤ) : (2 : ℚ) ^ (d + e) = 2 ^ d * 2 ^ e := zpow_add₀ (by norm_num) d e

theorem grain_ge (q : ℚ) : -1074 ≤ grain q := le_max_right _ _

theorem grain_mono {p : ℚ} (hp : 0 < p) (h : p ≤ q) : grain p ≤ grain q :=
  max_le_max (sub_le_sub_right (Int.log_mono_right hp h) _) le_rfl

theorem lt_of_grain (q : ℚ) : q < 2 ^ (grain q + 53) := by
  have h : q < (2 : ℕ) ^ (Int.log 2 q + 1) := Int.lt_zpow_succ_log_self (by decide) q
  push_cast at h
  exact h.trans_le (two_zpow_le (by unfold grain; omega))

theorem le_of_grain (hq : 0 < q) (hg : -1074 < grain q) : 2 ^ (grain q + 52) ≤ q := by
  have h : (2 : ℕ) ^ Int.log 2 q ≤ q := Int.zpow_log_le_self (by decide) hq
  push_cast at h
  have he : grain q + 52 = Int.log 2 q := by
    unfold grain at hg ⊢
    omega
  rw [he]
  exact h

theorem grain_le_of_lt {g : ℤ} (hq : 0 < q) (hg : -1074 ≤ g) (h : q < 2 ^ (g + 53)) :
    grain q ≤ g := by
  by_contra hn
  have hlt : g < grain q := lt_of_not_ge hn
  have hle := le_of_grain hq (by omega)
  have hp : (2 : ℚ) ^ (g + 53) ≤ 2 ^ (grain q + 52) := two_zpow_le (by omega)
  linarith

theorem le_grain_of_le {g : ℤ} (h : 2 ^ (g + 52) ≤ q) : g ≤ grain q := by
  by_contra hn
  have hlt := lt_of_grain q
  have hp : (2 : ℚ) ^ (grain q + 53) ≤ 2 ^ (g + 52) := two_zpow_le (by omega)
  linarith

/-- The number of units is below `2 ^ 53`, and at least `2 ^ 52` unless the units are the
smallest. -/
theorem units_lt (q : ℚ) : q / 2 ^ grain q < 2 ^ 53 := by
  have h := lt_of_grain q
  rw [two_zpow_add] at h
  rw [div_lt_iff₀ (two_zpow_pos _)]
  have hc : (2 : ℚ) ^ (53 : ℤ) = 2 ^ 53 := by norm_num
  linarith

theorem le_units (hq : 0 < q) (hg : -1074 < grain q) : 2 ^ 52 ≤ q / 2 ^ grain q := by
  have h := le_of_grain hq hg
  rw [two_zpow_add] at h
  rw [le_div_iff₀ (two_zpow_pos _)]
  have hc : (2 : ℚ) ^ (52 : ℤ) = 2 ^ 52 := by norm_num
  linarith

private theorem units_nonneg (hq : 0 ≤ q) : 0 ≤ q / 2 ^ grain q := div_nonneg hq (two_zpow_pos _).le

theorem roundEven_units_le (hq : 0 ≤ q) : roundEven (q / 2 ^ grain q) ≤ 2 ^ 53 := by
  have h := roundEven_mono (units_nonneg hq) (units_lt q).le
  have he : ((2 : ℚ) ^ 53) = ((2 ^ 53 : ℕ) : ℚ) := by norm_num
  rw [he, roundEven_natCast] at h
  exact h

theorem le_roundEven_units (hq : 0 < q) (hg : -1074 < grain q) :
    2 ^ 52 ≤ roundEven (q / 2 ^ grain q) := by
  have h := roundEven_mono (by positivity) (le_units hq hg)
  have he : ((2 : ℚ) ^ 52) = ((2 ^ 52 : ℕ) : ℚ) := by norm_num
  rw [he, roundEven_natCast] at h
  exact h

theorem rounded_nonneg (q : ℚ) : 0 ≤ rounded q :=
  mul_nonneg (Nat.cast_nonneg _) (two_zpow_pos _).le

@[simp] theorem rounded_zero : rounded 0 = 0 := by
  have h := roundEven_natCast 0
  rw [Nat.cast_zero] at h
  simp [rounded, h]

theorem rounded_le (hq : 0 ≤ q) : rounded q ≤ 2 ^ (grain q + 53) := by
  have h : (roundEven (q / 2 ^ grain q) : ℚ) ≤ 2 ^ (53 : ℤ) := by
    exact_mod_cast roundEven_units_le hq
  rw [add_comm, two_zpow_add]
  exact mul_le_mul_of_nonneg_right h (two_zpow_pos _).le

theorem le_rounded (hq : 0 < q) (hg : -1074 < grain q) : 2 ^ (grain q + 52) ≤ rounded q := by
  have h : (2 : ℚ) ^ (52 : ℤ) ≤ roundEven (q / 2 ^ grain q) := by
    exact_mod_cast le_roundEven_units hq hg
  rw [add_comm, two_zpow_add]
  exact mul_le_mul_of_nonneg_right h (two_zpow_pos _).le

/-- The error is at most half a unit. -/
theorem abs_rounded_sub_le (hq : 0 ≤ q) : |rounded q - q| ≤ 2 ^ grain q / 2 := by
  have hp := two_zpow_pos (grain q)
  have h := abs_roundEven_sub_le (units_nonneg hq)
  have he : rounded q - q = (roundEven (q / 2 ^ grain q) - q / 2 ^ grain q) * 2 ^ grain q := by
    rw [sub_mul, div_mul_cancel₀ _ hp.ne']
    rfl
  rw [he, abs_mul, abs_of_pos hp]
  calc |(roundEven (q / 2 ^ grain q) : ℚ) - q / 2 ^ grain q| * 2 ^ grain q
      ≤ 1 / 2 * 2 ^ grain q := mul_le_mul_of_nonneg_right h hp.le
    _ = 2 ^ grain q / 2 := by ring

/-- Where numbers have 53 bits the error is at most half the last of them. -/
theorem abs_rounded_sub_le_div (h : 2 ^ (-1022 : ℤ) ≤ q) : |rounded q - q| ≤ q / 2 ^ 53 := by
  have hq : 0 < q := (two_zpow_pos _).trans_le h
  have hlow : (2 : ℚ) ^ (grain q + 52) ≤ q := by
    obtain hg | hg := (grain_ge q).eq_or_lt
    · rwa [← hg]
    · exact le_of_grain hq hg
  have hbits : (2 : ℚ) ^ (grain q + 52) / 2 ^ 53 = 2 ^ grain q / 2 := by
    rw [two_zpow_add]
    norm_num
    ring
  calc |rounded q - q| ≤ 2 ^ grain q / 2 := abs_rounded_sub_le hq.le
    _ = 2 ^ (grain q + 52) / 2 ^ 53 := hbits.symm
    _ ≤ q / 2 ^ 53 := div_le_div_of_nonneg_right hlow (by positivity)

theorem rounded_mono {p : ℚ} (hp : 0 ≤ p) (h : p ≤ q) : rounded p ≤ rounded q := by
  obtain rfl | hp := hp.eq_or_lt
  · rw [rounded_zero]
    exact rounded_nonneg q
  · have hq : 0 < q := hp.trans_le h
    obtain he | hlt := (grain_mono hp h).eq_or_lt
    · unfold rounded
      rw [he]
      have hm := roundEven_mono (div_nonneg hp.le (two_zpow_pos (grain q)).le)
        (div_le_div_of_nonneg_right h (two_zpow_pos (grain q)).le)
      exact mul_le_mul_of_nonneg_right (by exact_mod_cast hm) (two_zpow_pos _).le
    · have h1 := rounded_le hp.le
      have h2 := le_rounded hq ((grain_ge p).trans_lt hlt)
      have h3 : (2 : ℚ) ^ (grain p + 53) ≤ 2 ^ (grain q + 52) := two_zpow_le (by omega)
      linarith

/-- A magnitude that 53 bits hold, with no upper limit. -/
def Representable (q : ℚ) : Prop := ∃ (m : ℕ) (e : ℤ), m ≤ 2 ^ 53 ∧ -1074 ≤ e ∧ q = m * 2 ^ e

theorem representable_rounded (hq : 0 ≤ q) : Representable (rounded q) :=
  ⟨_, _, roundEven_units_le hq, grain_ge q, rfl⟩

theorem representable_natCast {n : ℕ} (h : n ≤ 2 ^ 53) : Representable n :=
  ⟨n, 0, h, by decide, by simp⟩

theorem Representable.nonneg (h : Representable q) : 0 ≤ q := by
  obtain ⟨m, e, _, _, rfl⟩ := h
  exact mul_nonneg (Nat.cast_nonneg _) (two_zpow_pos _).le

private theorem two_zpow_eq_mul {d e : ℤ} (h : d ≤ e) :
    (2 : ℚ) ^ e = ((2 ^ (e - d).toNat : ℕ) : ℚ) * 2 ^ d := by
  have he : e = ((e - d).toNat : ℤ) + d := by omega
  conv => lhs; rw [he, two_zpow_add, zpow_natCast]
  push_cast
  rfl

/-- No number of 53 bits is nearer than the one rounded to. A finer one lies below the smallest that
is as coarse as `q`. -/
theorem abs_rounded_sub_le_abs (hq : 0 ≤ q) {r : ℚ} (hr : Representable r) :
    |rounded q - q| ≤ |r - q| := by
  have hp := two_zpow_pos (grain q)
  have hcoarse : ∀ n : ℕ, |rounded q - q| ≤ |n * 2 ^ grain q - q| := by
    intro n
    have h := abs_roundEven_sub_le_abs (units_nonneg hq) n
    have hs : ∀ k : ℕ, |(k : ℚ) * 2 ^ grain q - q| = |(k : ℚ) - q / 2 ^ grain q| * 2 ^ grain q := by
      intro k
      rw [← abs_of_pos hp, ← abs_mul, abs_of_pos hp, sub_mul, div_mul_cancel₀ _ hp.ne']
    change |(roundEven (q / 2 ^ grain q) : ℚ) * 2 ^ grain q - q| ≤ _
    rw [hs, hs]
    exact mul_le_mul_of_nonneg_right h hp.le
  obtain ⟨m, e, hm, he, rfl⟩ := hr
  obtain hg | hg := le_or_gt (grain q) e
  · have h := hcoarse (m * 2 ^ (e - grain q).toNat)
    have hv : ((m * 2 ^ (e - grain q).toNat : ℕ) : ℚ) * 2 ^ grain q = m * 2 ^ e := by
      rw [two_zpow_eq_mul hg]
      push_cast
      ring
    rw [hv] at h
    exact h
  · obtain hz | hq0 := hq.eq_or_lt
    · rw [← hz, rounded_zero, sub_zero, abs_zero]
      exact abs_nonneg _
    have hle := le_of_grain hq0 (he.trans_lt hg)
    have hr : (m : ℚ) * 2 ^ e ≤ 2 ^ (grain q + 52) := by
      have hm' : (m : ℚ) ≤ 2 ^ (53 : ℤ) := by exact_mod_cast hm
      calc (m : ℚ) * 2 ^ e ≤ 2 ^ (53 : ℤ) * 2 ^ e :=
            mul_le_mul_of_nonneg_right hm' (two_zpow_pos e).le
        _ = 2 ^ (53 + e) := (two_zpow_add _ _).symm
        _ ≤ 2 ^ (grain q + 52) := two_zpow_le (by omega)
    have h := hcoarse (2 ^ 52)
    have hv : ((2 ^ 52 : ℕ) : ℚ) * 2 ^ grain q = 2 ^ (grain q + 52) := by
      rw [add_comm, two_zpow_add]
      norm_num
    rw [hv, abs_of_nonpos (by linarith : (2 : ℚ) ^ (grain q + 52) - q ≤ 0)] at h
    rw [abs_of_nonpos (by linarith : (m : ℚ) * 2 ^ e - q ≤ 0)]
    linarith

theorem Representable.rounded_eq (h : Representable q) : rounded q = q := by
  have hle := abs_rounded_sub_le_abs h.nonneg h
  rw [sub_self, abs_zero] at hle
  exact sub_eq_zero.mp (abs_nonpos_iff.mp hle)

theorem Representable.le_rounded {r : ℚ} (hr : Representable r) (h : r ≤ q) : r ≤ rounded q := by
  have hmono := rounded_mono hr.nonneg h
  rwa [hr.rounded_eq] at hmono

theorem Representable.rounded_le {r : ℚ} (hr : Representable r) (hq : 0 ≤ q) (h : q ≤ r) :
    rounded q ≤ r := by
  have hmono := rounded_mono hq h
  rwa [hr.rounded_eq] at hmono

theorem rounded_natCast_lt {n : ℕ} (h : n ≤ 2 ^ 53) : rounded n < 2 ^ 1024 := by
  have hq : (n : ℚ) ≤ 2 ^ 53 := by exact_mod_cast h
  rw [(representable_natCast h).rounded_eq]
  exact hq.trans_lt (pow_lt_pow_right₀ one_lt_two (by decide))

/-- The next number above `2 ^ 1023` times the largest mantissa is no float any more. -/
theorem representable_two_pow_1024 : Representable (2 ^ 1024) :=
  ⟨1, 1024, by decide, by decide, by rw [Nat.cast_one, one_mul]; rfl⟩

/-- What is below half the smallest unit is rounded to zero. -/
theorem rounded_of_lt (hq : 0 ≤ q) (h : q < 2 ^ (-1075 : ℤ)) : rounded q = 0 := by
  obtain rfl | hpos := hq.eq_or_lt
  · exact rounded_zero
  have hg : grain q = -1074 := by
    have hlt : q < 2 ^ ((-1074 : ℤ) + 53) := h.trans_le (two_zpow_le (by decide))
    exact le_antisymm (grain_le_of_lt hpos le_rfl hlt) (grain_ge q)
  have hp := two_zpow_pos (-1074)
  have hhalf : q / 2 ^ (-1074 : ℤ) < 1 / 2 := by
    rw [div_lt_iff₀ hp]
    have he : (2 : ℚ) ^ (-1075 : ℤ) = 1 / 2 * 2 ^ (-1074 : ℤ) := by
      rw [show (-1075 : ℤ) = -1 + -1074 by rfl, two_zpow_add, zpow_neg_one, one_div]
    rw [← he]
    exact h
  have hr : roundEven (q / 2 ^ (-1074 : ℤ)) = 0 := by
    rw [roundEven_eq_iff (div_nonneg hq hp.le)]
    left
    rw [Nat.cast_zero, zero_sub, abs_neg, abs_of_nonneg (div_nonneg hq hp.le)]
    exact hhalf
  unfold rounded
  rw [hg, hr, Nat.cast_zero, zero_mul]

/-- What is rounded to a number with its leading bit not alone is counted in the same units. -/
theorem rounded_eq_iff {k : ℕ} {g : ℤ} (hq : 0 ≤ q) (hg : -1074 ≤ g) (hk : 2 ^ 52 < k)
    (hk' : k < 2 ^ 53) : rounded q = k * 2 ^ g ↔ roundEven (q / 2 ^ g) = k := by
  have hp := two_zpow_pos g
  have hkq : (2 : ℚ) ^ 52 + 1 ≤ k := by exact_mod_cast hk
  have hkq' : (k : ℚ) + 1 ≤ 2 ^ 53 := by exact_mod_cast hk'
  have hlow : (2 : ℚ) ^ (g + 52) = 2 ^ 52 * 2 ^ g := by rw [add_comm, two_zpow_add]; rfl
  have hhigh : (2 : ℚ) ^ (g + 53) = 2 ^ 53 * 2 ^ g := by rw [add_comm, two_zpow_add]; rfl
  constructor
  · intro h
    have hpos : 0 < rounded q := by
      rw [h]
      exact mul_pos (by linarith) hp
    have hq0 : 0 < q := by
      obtain hz | hq0 := hq.eq_or_lt
      · rw [← hz, rounded_zero] at hpos
        exact absurd hpos (lt_irrefl 0)
      · exact hq0
    have hgrain : grain q = g := by
      obtain hlt | he | hgt := lt_trichotomy (grain q) g
      · have h1 := rounded_le hq
        have h2 : (2 : ℚ) ^ (grain q + 53) ≤ 2 ^ (g + 52) := two_zpow_le (by omega)
        rw [h] at h1
        rw [hlow] at h2
        nlinarith
      · exact he
      · have h1 := le_rounded hq0 (hg.trans_lt hgt)
        have h2 : (2 : ℚ) ^ (g + 53) ≤ 2 ^ (grain q + 52) := two_zpow_le (by omega)
        rw [h] at h1
        rw [hhigh] at h2
        nlinarith
    unfold rounded at h
    rw [hgrain] at h
    exact_mod_cast mul_right_cancel₀ hp.ne' h
  · intro h
    have hu := abs_le.mp (abs_roundEven_sub_le (div_nonneg hq hp.le))
    rw [h] at hu
    have hlo : 2 ^ (g + 52) ≤ q := by
      rw [hlow, ← le_div_iff₀ hp]
      linarith
    have hhi : q < 2 ^ (g + 53) := by
      rw [hhigh, ← div_lt_iff₀ hp]
      linarith
    have hq0 : 0 < q := (two_zpow_pos _).trans_le hlo
    have hgrain : grain q = g := le_antisymm (grain_le_of_lt hq0 hg hhi) (le_grain_of_le hlo)
    unfold rounded
    rw [hgrain, h]

/-- Half a unit below a power of two a number is rounded up to it, as its last bit would be odd. -/
theorem rounded_half_below {g : ℤ} (hg : -1074 ≤ g) :
    rounded ((2 ^ 53 - 1 / 2) * 2 ^ g) = 2 ^ 53 * 2 ^ g := by
  have hp := two_zpow_pos g
  have hlow : (2 : ℚ) ^ (g + 52) = 2 ^ 52 * 2 ^ g := by rw [add_comm, two_zpow_add]; rfl
  have hhigh : (2 : ℚ) ^ (g + 53) = 2 ^ 53 * 2 ^ g := by rw [add_comm, two_zpow_add]; rfl
  have hgrain : grain ((2 ^ 53 - 1 / 2) * 2 ^ g) = g := by
    apply le_antisymm
    · apply grain_le_of_lt (mul_pos (by norm_num) hp) hg
      rw [hhigh]
      exact mul_lt_mul_of_pos_right (by norm_num) hp
    · apply le_grain_of_le
      rw [hlow]
      exact mul_le_mul_of_nonneg_right (by norm_num) hp.le
  have hround : roundEven (2 ^ 53 - 1 / 2) = 2 ^ 53 := by
    rw [roundEven_eq_iff (by norm_num)]
    right
    norm_num
  unfold rounded
  rw [hgrain, mul_div_cancel_right₀ _ hp.ne', hround]
  push_cast
  rfl

/-- What stays below a power of two when it is rounded lies more than half a unit below it. -/
theorem rounded_lt_iff {g : ℤ} (hq : 0 ≤ q) (hg : -1074 ≤ g) :
    rounded q < 2 ^ 53 * 2 ^ g ↔ q < (2 ^ 53 - 1 / 2) * 2 ^ g := by
  constructor
  · intro h
    by_contra hn
    have hmono := rounded_mono (mul_nonneg (by norm_num) (two_zpow_pos g).le) (not_lt.mp hn)
    rw [rounded_half_below hg] at hmono
    exact absurd h (not_lt.mpr hmono)
  · intro h
    have hbelow : Representable ((2 ^ 53 - 1 : ℕ) * 2 ^ g) := ⟨2 ^ 53 - 1, g, by norm_num, hg, rfl⟩
    have hnear := (le_abs_self _).trans (abs_rounded_sub_le_abs hq hbelow)
    have hp := two_zpow_pos g
    have hcast : ((2 ^ 53 - 1 : ℕ) : ℚ) * 2 ^ g = 2 ^ 53 * 2 ^ g - 2 ^ g := by
      push_cast
      ring
    rw [hcast] at hnear
    rw [sub_mul, one_div_mul_eq_div] at h
    obtain ⟨habs, _⟩ | ⟨habs, _⟩ := abs_cases (2 ^ 53 * 2 ^ g - 2 ^ g - q)
    all_goals
      rw [habs] at hnear
      linarith

/-- Half a unit above the largest float. -/
def overflow : ℚ := 2 ^ 1024 - 2 ^ 970

theorem rounded_lt_two_pow_1024_iff (hq : 0 ≤ q) : rounded q < 2 ^ 1024 ↔ q < overflow := by
  have hsplit : (2 : ℚ) ^ 1024 = 2 ^ 53 * 2 ^ (971 : ℤ) := by
    rw [← zpow_natCast, ← zpow_natCast, ← two_zpow_add]
    rfl
  have hhalf : overflow = (2 ^ 53 - 1 / 2) * 2 ^ (971 : ℤ) := by
    unfold overflow
    have h970 : (2 : ℚ) ^ (971 : ℤ) = 2 * 2 ^ 970 := by
      rw [← zpow_natCast, ← zpow_one_add₀ two_ne_zero]
      rfl
    rw [hsplit, h970]
    generalize (2 : ℚ) ^ 970 = t
    ring
  rw [hsplit, hhalf]
  exact rounded_lt_iff hq (by decide)

end Rounded

end SciCalc.Number
