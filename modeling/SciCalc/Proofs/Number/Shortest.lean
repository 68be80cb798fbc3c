import SciCalc.Proofs.Number.ReadBack

namespace SciCalc

open Float.Model Float.Model.UnpackedFloat Number

namespace Decimal

theorem length_toDigits_mul_pow {n : ℕ} (hn : 0 < n) (j : ℕ) :
    (Nat.toDigits 10 (n * 10 ^ j)).length = (Nat.toDigits 10 n).length + j := by
  have hiff : ∀ {m k : ℕ}, 0 < k → ((Nat.toDigits 10 m).length ≤ k ↔ m < 10 ^ k) := fun hk =>
    Nat.length_toDigits_le_iff (by decide) hk
  have hpos : ∀ m, 0 < (Nat.toDigits 10 m).length :=
    fun m => List.length_pos_iff.mpr Nat.toDigits_ne_nil
  apply le_antisymm
  · have h := (hiff (hpos n)).mp le_rfl
    rw [hiff (by have := hpos n; omega), pow_add]
    exact Nat.mul_lt_mul_of_pos_right h (by positivity)
  · have h := (hiff (hpos (n * 10 ^ j))).mp le_rfl
    generalize (Nat.toDigits 10 (n * 10 ^ j)).length = l at h
    have hj : j < l := by
      refine (Nat.pow_lt_pow_iff_right (by decide : 1 < 10)).mp (lt_of_le_of_lt ?_ h)
      exact Nat.le_mul_of_pos_left _ hn
    obtain ⟨k, rfl⟩ : ∃ k, l = k + j := ⟨l - j, by omega⟩
    rw [pow_add] at h
    have hk := (hiff (by omega : 0 < k)).mpr (Nat.lt_of_mul_lt_mul_right h)
    omega

/-- The decimals tried with `c` digits. -/
theorem mem_near {d e : Decimal} {size c : ℕ} :
    e ∈ d.near size c ↔ e = ⟨d.digits / 10 ^ (size - c), d.exp + (size - c : ℕ)⟩ ∨
      e = ⟨d.digits / 10 ^ (size - c) + 1, d.exp + (size - c : ℕ)⟩ := by
  unfold near
  simp only [Nat.pow_eq]
  split
  · simp
  · simp [or_comm]

theorem toFloat_whole (n : ℕ) : (⟨n, 0⟩ : Decimal).toFloat = nearest .positive n := by
  rw [toFloat_eq_nearest]
  simp [toRat]

/-- No other even number, and no other number of 53 bits, reads back as a whole number of 53
bits. -/
theorem eq_of_toFloat_eq {n c : ℕ} (hn : n ≤ 2 ^ 53) (hc : c ≤ 2 ^ 53 ∨ 2 ∣ c)
    (h : (⟨c, 0⟩ : Decimal).toFloat = nearest .positive n) : c = n := by
  have hrn := (representable_natCast hn).rounded_eq
  have hltn := rounded_natCast_lt hn
  rw [toFloat_whole] at h
  have hltc : rounded (c : ℚ) < 2 ^ 1024 := by
    rw [← isFinite_nearest .positive (Nat.cast_nonneg c), h]
    exact (isFinite_nearest .positive (Nat.cast_nonneg n)).mpr hltn
  have hround := (nearest_eq_iff .positive (Nat.cast_nonneg c) (Nat.cast_nonneg n) hltc hltn).mp h
  rw [hrn] at hround
  by_cases hsmall : c ≤ 2 ^ 53
  · rw [(representable_natCast hsmall).rounded_eq] at hround
    exact_mod_cast hround
  -- an even number above `2 ^ 53` is rounded to no less than the float above `2 ^ 53`
  have hnext : Representable ((2 ^ 53 + 2 : ℕ) : ℚ) :=
    ⟨2 ^ 52 + 1, 1, by decide, by decide, by push_cast; norm_num⟩
  have hle : 2 ^ 53 + 2 ≤ c := by
    obtain hc | ⟨k, rfl⟩ := hc
    · exact absurd hc hsmall
    · omega
  have hmono :=
    rounded_mono (Nat.cast_nonneg (2 ^ 53 + 2)) (by exact_mod_cast hle : ((2 ^ 53 + 2 : ℕ) : ℚ) ≤ c)
  rw [hnext.rounded_eq, hround] at hmono
  have habove : 2 ^ 53 + 2 ≤ n := by exact_mod_cast hmono
  omega

/-- Of the decimals tried with fewer digits than a whole number has, none but the number itself
reads back as it. -/
theorem plain_eq_of_mem_near {n j c l : ℕ} (hn : n ≤ 2 ^ 53) (hc : c < l) {e : Decimal}
    (he : e ∈ (⟨n * 10 ^ j, -(j : ℤ)⟩ : Decimal).near (l + j) c)
    (h : e.plain.toFloat = nearest .positive n) : e.plain = ⟨n, 0⟩ := by
  obtain ⟨i, hi⟩ : ∃ i, l - c = i + 1 := ⟨l - c - 1, by omega⟩
  have hsize : l + j - c = i + 1 + j := by omega
  have hplain : ∃ q, e.plain = ⟨q * 10 ^ (i + 1), 0⟩ := by
    have hexp : -(j : ℤ) + (i + 1 + j : ℕ) = (i + 1 : ℕ) := by
      push_cast
      ring
    have hwhole : ∀ q, (⟨q, ((i + 1 : ℕ) : ℤ)⟩ : Decimal).plain = ⟨q * 10 ^ (i + 1), 0⟩ := by
      intro q
      unfold plain
      rw [if_pos (Int.natCast_nonneg _)]
      rfl
    rw [mem_near, hsize, hexp] at he
    obtain rfl | rfl := he
    · exact ⟨_, hwhole _⟩
    · exact ⟨_, hwhole _⟩
  obtain ⟨q, hq⟩ := hplain
  have heven : 2 ∣ q * 10 ^ (i + 1) := by
    rw [pow_succ]
    exact Dvd.intro_left (q * 10 ^ i * 5) (by ring)
  rw [hq] at h ⊢
  rw [eq_of_toFloat_eq hn (Or.inr heven) h]

/-- A whole number is the first decimal tried with all its digits. -/
theorem near_whole (n j l : ℕ) :
    ∃ e, (⟨n * 10 ^ j, -(j : ℤ)⟩ : Decimal).near (l + j) l = [⟨n, 0⟩, e] := by
  have hsize : l + j - l = j := by omega
  have hpos : 0 < 10 ^ j := by positivity
  unfold near
  simp only [Nat.pow_eq, hsize, Nat.mul_div_cancel n hpos, Nat.mul_mod_left, mul_zero, if_pos hpos,
    neg_add_cancel]
  exact ⟨_, rfl⟩

end Decimal

/-- What is found where nothing else can have been found before. -/
private theorem findSome?_range'_eq {α : Type} {f : ℕ → Option α} {l k : ℕ} {a : α} (hl : 1 ≤ l)
    (hk : l ≤ k) (hbefore : ∀ c < l, ∀ b, f c = some b → b = a) (hat : f l = some a) :
    (List.range' 1 k).findSome? f = some a := by
  have hsplit : List.range' 1 k = List.range' 1 (l - 1) ++ l :: List.range' (l + 1) (k - l) := by
    have hlast : 1 + (l - 1) = l := by omega
    have hall : l - 1 + (k - l + 1) = k := by omega
    have happend := @List.range'_append_1 1 (l - 1) (k - l + 1)
    rw [hlast, hall, List.range'_succ] at happend
    exact happend.symm
  rw [hsplit, List.findSome?_append]
  cases hfound : (List.range' 1 (l - 1)).findSome? f with
  | none => simp [hat]
  | some b =>
    obtain ⟨c, hc, hb⟩ := List.exists_of_findSome?_eq_some hfound
    have hlt : c < l := by
      have h := List.mem_range'_1.mp hc
      omega
    rw [hbefore c hlt b hb]
    rfl

namespace Number

/-- A whole number of 53 bits is written with all its digits. -/
theorem shortest_whole {n j : ℕ} (hn : 0 < n) (hle : n ≤ 2 ^ 53) :
    shortest (nearest .positive n) ⟨n * 10 ^ j, -(j : ℤ)⟩ = ⟨n, 0⟩ := by
  have hpos : 0 < (Nat.toDigits 10 n).length := List.length_pos_iff.mpr Nat.toDigits_ne_nil
  have hl : (Nat.toDigits 10 n).length ≤ maxDigits := by
    rw [Nat.length_toDigits_le_iff (by decide) (by decide)]
    exact hle.trans_lt (by decide)
  unfold shortest
  simp only [Decimal.length_toDigits_mul_pow hn]
  generalize (Nat.toDigits 10 n).length = l at hpos hl
  rw [findSome?_range'_eq (a := ⟨n, 0⟩) hpos hl]
  · rfl
  · intro c hc b hb
    obtain ⟨e, he, rfl⟩ := List.mem_map.mp (List.mem_of_find?_eq_some hb)
    exact Decimal.plain_eq_of_mem_near hle hc he (by simpa using List.find?_some hb)
  · obtain ⟨e, he⟩ := Decimal.near_whole n j l
    have hplain : (⟨n, 0⟩ : Decimal).plain = ⟨n, 0⟩ := by simp [Decimal.plain]
    rw [he, List.map_cons, hplain, List.find?_cons_of_pos (by simpa using Decimal.toFloat_whole n)]

theorem ofBinary_whole {n m : ℕ} {e : ℤ} (h : (n : ℚ) = m * 2 ^ e) :
    Decimal.ofBinary m e = ⟨n * 10 ^ (-e).toNat, -((-e).toNat : ℤ)⟩ := by
  have hrat := Decimal.toRat_ofBinary m e
  have hexp : (Decimal.ofBinary m e).exp = -((-e).toNat : ℤ) := by
    unfold Decimal.ofBinary
    split
    · simp only
      omega
    · simp only
      omega
  generalize (-e).toNat = j at hexp
  generalize Decimal.ofBinary m e = d at hrat hexp
  obtain ⟨digits, exp⟩ := d
  simp only at hexp
  subst hexp
  have hdigits : digits = n * 10 ^ j := by
    rw [← h] at hrat
    unfold Decimal.toRat at hrat
    simp only at hrat
    rw [zpow_neg, zpow_natCast, ← div_eq_mul_inv, div_eq_iff (by positivity)] at hrat
    exact_mod_cast hrat
  rw [hdigits]

/-- The text of a whole number of 53 bits is that of the integer. -/
theorem chars_of_whole {x : Float} (hx : x.isFinite = true) {n : ℕ} (hm : magnitude x = n)
    (hle : n ≤ 2 ^ 53) :
    chars x = signed (sign x) (Nat.toDigits 10 n) := by
  obtain ⟨hz, h0⟩ | ⟨m, e, h, hp, hv, _⟩ := parts_cases hx
  · have hn : n = 0 := by
      rw [hm] at h0
      exact_mod_cast h0
    unfold chars
    rw [hz, hn]
    rfl
  · rw [hm] at hv
    have hn : 0 < n := by
      have hpos : (0 : ℚ) < m * 2 ^ e := mul_pos (by exact_mod_cast h) (two_zpow_pos e)
      rw [← hv] at hpos
      exact_mod_cast hpos
    have habs : x.abs = nearest .positive n := by
      have hself := nearest_magnitude (x := x.abs) (by rwa [isFinite_abs])
      rw [sign_abs, magnitude_abs, hm] at hself
      exact hself.symm
    unfold chars
    rw [hp]
    simp only
    rw [ofBinary_whole hv, habs, shortest_whole hn hle]
    rfl

end Number

end SciCalc
