import SciCalc.Number.Shortest
import SciCalc.Proofs.Token.Lexeme
import SciCalc.Proofs.Number.Nearest

namespace SciCalc

open Float.Model Float.Model.UnpackedFloat Number

namespace Decimal

/-- The exact value. -/
def toRat (d : Decimal) : ℚ := d.digits * 10 ^ d.exp

theorem toRat_nonneg (d : Decimal) : 0 ≤ d.toRat :=
  mul_nonneg (Nat.cast_nonneg _) (zpow_pos (by norm_num) _).le

private theorem ten_zpow_neg (n : ℕ) : (10 : ℚ) ^ (-(n : ℤ)) = 1 / 10 ^ n := by
  rw [zpow_neg, zpow_natCast, one_div]

theorem toRat_ofBinary (m : ℕ) (e : ℤ) : (ofBinary m e).toRat = m * 2 ^ e := by
  unfold ofBinary toRat
  split
  · rename_i he
    have hz : (2 : ℚ) ^ e = 2 ^ e.toNat := by
      rw [← zpow_natCast]
      congr 1
      omega
    rw [hz]
    simp
  · rename_i he
    have hz : e = -((-e).toNat : ℤ) := by omega
    generalize (-e).toNat = k at hz
    subst hz
    rw [ten_zpow_neg, zpow_neg, zpow_natCast]
    have h10 : (10 : ℚ) ^ k = 5 ^ k * 2 ^ k := by
      rw [← mul_pow]
      norm_num
    have h5 : (5 : ℚ) ^ k ≠ 0 := by positivity
    rw [h10, Nat.pow_eq]
    push_cast
    field_simp

private theorem toRat_dropZeros (places digits : ℕ) :
    (dropZeros places digits).toRat = digits * 10 ^ (-(places : ℤ)) := by
  induction places generalizing digits with
  | zero => rfl
  | succ p ih =>
    unfold dropZeros
    split
    · rename_i hd
      have hq : (digits : ℚ) = 10 * (digits / 10 : ℕ) := by
        have h := Nat.div_add_mod digits 10
        rw [hd, add_zero] at h
        exact_mod_cast h.symm
      rw [ih, ten_zpow_neg, ten_zpow_neg, hq, pow_succ]
      field_simp
    · rfl

theorem toRat_plain (d : Decimal) : d.plain.toRat = d.toRat := by
  unfold plain
  split
  · rename_i he
    have hz : (10 : ℚ) ^ d.exp = 10 ^ d.exp.toNat := by
      rw [← zpow_natCast]
      congr 1
      omega
    unfold toRat
    rw [hz]
    simp
  · rename_i he
    rw [toRat_dropZeros]
    unfold toRat
    congr 2
    omega

private theorem ofScientific_eq_shape_of_nonneg {m : ℕ} {e : ℤ} (hm : 0 < m) (he : 0 ≤ e)
    {h : 0 < m <<< 53} {h' : 0 < 10 ^ e.toNat} :
    UnpackedFloat.mul .binary64 (.finite .positive (m <<< 53) (-53) h)
      (.finite .positive (10 ^ e.toNat) 0 h') = shape .positive (m * 10 ^ e) := by
  have hpos : 0 < m * 2 ^ 53 * 10 ^ e.toNat := by positivity
  have hposq : (0 : ℚ) < ((m * 2 ^ 53 * 10 ^ e.toNat : ℕ) : ℚ) := by exact_mod_cast hpos
  have hbits : 52 ≤ (m * 2 ^ 53 * 10 ^ e.toNat).log2 := by
    rw [Nat.le_log2 (by omega)]
    calc 2 ^ 52 ≤ 1 * 2 ^ 53 * 1 := by decide
      _ ≤ m * 2 ^ 53 * 10 ^ e.toNat :=
          Nat.mul_le_mul (Nat.mul_le_mul_right _ hm) (Nat.one_le_pow _ _ (by decide))
  have hz : (10 : ℚ) ^ e = 10 ^ e.toNat := by
    rw [← zpow_natCast]
    congr 1
    omega
  change roundWithAccuracy .binary64 .positive (m <<< 53 * 10 ^ e.toNat) (-53 + 0) .exact = _
  rw [Nat.shiftLeft_eq, roundWithAccuracy_eq_shape _ (Reads.exact rfl) hposq (Or.inl hbits), hz]
  congr 1
  have h53 : (2 : ℚ) ^ (-53 + 0 : ℤ) = 1 / 2 ^ 53 := by norm_num
  rw [h53]
  push_cast
  ring

private theorem toRat_lt_of_exp_lt {m : ℕ} {e : ℤ} (he : e < -((2 ^ 11 : ℤ) + m.log2)) :
    (m : ℚ) * 10 ^ e < 2 ^ (-1075 : ℤ) := by
  have h1 : (m : ℚ) < 2 ^ ((m.log2 : ℤ) + 1) := by
    have h := Nat.lt_log2_self (n := m)
    exact_mod_cast h
  have h2 : (10 : ℚ) ^ e ≤ 2 ^ e := by
    have hz : e = -((-e).toNat : ℤ) := by omega
    rw [hz, zpow_neg, zpow_neg, zpow_natCast, zpow_natCast]
    exact inv_anti₀ (by positivity) (pow_le_pow_left₀ (by norm_num) (by norm_num) _)
  calc (m : ℚ) * 10 ^ e ≤ m * 2 ^ e := mul_le_mul_of_nonneg_left h2 (Nat.cast_nonneg m)
    _ < 2 ^ ((m.log2 : ℤ) + 1) * 2 ^ e := mul_lt_mul_of_pos_right h1 (two_zpow_pos e)
    _ = 2 ^ ((m.log2 : ℤ) + 1 + e) := (two_zpow_add _ _).symm
    _ ≤ 2 ^ (-1075 : ℤ) := two_zpow_le (by omega)

private theorem le_toRat_of_lt_exp {m : ℕ} {e : ℤ} (hm : 0 < m) (he : 2 ^ 11 < e) :
    (2 : ℚ) ^ 1024 ≤ m * 10 ^ e := by
  have h1 : (1 : ℚ) ≤ m := by exact_mod_cast hm
  have h2 : (2 : ℚ) ^ e ≤ 10 ^ e := by
    have hz : e = (e.toNat : ℤ) := by omega
    rw [hz, zpow_natCast, zpow_natCast]
    exact pow_le_pow_left₀ (by norm_num) (by norm_num) _
  have h3 : (2 : ℚ) ^ (1024 : ℤ) ≤ 2 ^ e := two_zpow_le (by omega)
  rw [show (2 : ℚ) ^ (1024 : ℤ) = 2 ^ 1024 from zpow_natCast 2 1024] at h3
  have h4 : (0 : ℚ) ≤ 10 ^ e := (zpow_pos (by norm_num) e).le
  calc (2 : ℚ) ^ 1024 ≤ 10 ^ e := h3.trans h2
    _ = 1 * 10 ^ e := (one_mul _).symm
    _ ≤ m * 10 ^ e := mul_le_mul_of_nonneg_right h1 h4

/-- A decimal is read as the float nearest to its value. -/
theorem toFloat_eq_nearest (d : Decimal) : d.toFloat = nearest .positive d.toRat := by
  obtain ⟨m, e⟩ := d
  have hq := toRat_nonneg ⟨m, e⟩
  unfold toFloat
  change ofParts (UnpackedFloat.ofScientific .binary64 m e) = _
  unfold toRat at hq ⊢
  simp only at hq ⊢
  unfold UnpackedFloat.ofScientific
  split_ifs with hm hlarge hsmall he
  · subst hm
    unfold nearest
    rw [Nat.cast_zero, zero_mul, shape_zero]
  · apply parts_injective
    have hle :=
      representable_two_pow_1024.le_rounded (le_toRat_of_lt_exp (Nat.pos_of_ne_zero hm) hlarge)
    rw [parts_ofParts_infinity, parts_nearest_large _ hq hle]
  · unfold nearest
    rw [shape_of_rounded_eq_zero _ hq (rounded_of_lt hq (toRat_lt_of_exp_lt hsmall))]
  · unfold nearest
    rw [← ofScientific_eq_shape_of_nonneg (Nat.pos_of_ne_zero hm) he]
    rfl
  · unfold nearest
    rw [div_finite]
    congr 2
    have hz : e = -((-e).toNat : ℤ) := by omega
    generalize (-e).toNat = k at hz
    rw [hz, zpow_neg, zpow_natCast, zpow_zero, mul_one, mul_one, div_eq_mul_inv]
    push_cast
    rfl

end Decimal

namespace Number

theorem toFloat_shortest_abs {x : Float} {s : Sign} {m : ℕ} {e : ℤ} {h : 0 < m}
    (hx : parts x = .finite s m e h) : (shortest x.abs (.ofBinary m e)).toFloat = x.abs := by
  obtain hs | hs := toFloat_shortest x.abs (.ofBinary m e)
  · exact hs
  · have hc := (canonical_of_parts hx).1
    have ha : parts x.abs = .finite .positive m e h := by
      rw [parts_abs, hx]
      rfl
    rw [hs, Decimal.toFloat_eq_nearest, Decimal.toRat_plain, Decimal.toRat_ofBinary]
    unfold nearest
    rw [hc.shape_eq h, ← ha, ofParts_parts]

/-- A finite number is written as the digits of a decimal that reads back as its absolute value. -/
theorem exists_chars_eq {x : Float} (hx : x.isFinite = true) :
    ∃ d : Decimal, d.exp ≤ 0 ∧ chars x = signed (sign x) d.chars ∧ d.toFloat = x.abs := by
  obtain ⟨hz, _⟩ | ⟨m, e, h, hp, _⟩ := parts_cases hx
  · refine ⟨⟨0, 0⟩, le_rfl, ?_, ?_⟩
    · unfold chars
      rw [hz]
      rfl
    · apply parts_injective
      rw [parts_abs, hz]
      rfl
  · refine ⟨shortest x.abs (.ofBinary m e), shortest_exp _ _, ?_, toFloat_shortest_abs hp⟩
    unfold chars
    rw [hp]

end Number

/-- What a numeral does not go on with: no digit, point or exponent. -/
def EndsNumeral (rest : List Char) : Prop :=
  ∀ c, rest.head? = some c → c.isDigit = false ∧ c ≠ '.' ∧ c ≠ 'e' ∧ c ≠ 'E'

namespace EndsNumeral

variable {rest : List Char}

theorem nil : EndsNumeral [] := by
  intro c hc
  cases hc

theorem scan?_eq (h : EndsNumeral rest) : Exponent.scan? rest = none := by
  cases rest with
  | nil => rfl
  | cons c cs =>
    have hc := (h c rfl).2.2
    simp [Exponent.scan?, hc.1, hc.2]

/-- A numeral without an exponent is scanned up to what ends it. -/
theorem scan_append (h : EndsNumeral rest) {n : Numeral} (hn : n.WellFormed)
    (he : n.exponent = none) :
    Numeral.scan (n.chars ++ rest) = n := by
  obtain ⟨whole, fraction, exponent⟩ := n
  cases he
  have hs := Numeral.scan_append fraction rest hn.whole hn.fraction (fun c hc => (h c hc).1)
    (fun _ hc => (h '.' hc).2.1 rfl)
  rw [h.scan?_eq] at hs
  simpa [Numeral.chars] using hs

end EndsNumeral

theorem Decimal.isDigit_of_mem_toDigits {n : ℕ} {c : Char} (h : c ∈ Nat.toDigits 10 n) :
    c.isDigit = true :=
  Nat.isDigit_of_mem_toDigits (by decide) (by decide) h

/-- A numeral without an exponent, with digits in front of the point and, if there is one, behind
it. -/
structure Numeral.Plain (n : Numeral) : Prop extends n.WellFormed where
  exponent_eq : n.exponent = none
  whole_ne_nil : n.whole ≠ []
  fraction_ne_nil : n.fraction ≠ some []

theorem Decimal.exists_numeral (d : Decimal) : ∃ n : Numeral, n.Plain ∧ n.chars = d.chars := by
  have hw : ∀ k, ∀ c ∈ Nat.toDigits 10 k, c.isDigit = true := fun _ _ => isDigit_of_mem_toDigits
  have hne : ∀ k, Nat.toDigits 10 k ≠ [] := fun _ => Nat.toDigits_ne_nil
  by_cases hp : (-d.exp).toNat = 0
  · refine ⟨⟨Nat.toDigits 10 d.digits, none, none⟩,
      ⟨⟨hw _, by simp, .inl (hne _), by simp⟩, rfl, hne _, by simp⟩, ?_⟩
    simp [Numeral.chars, Numeral.mantissa, Decimal.chars, hp]
  · generalize hf : (Nat.toDigits 10 (d.digits % Nat.pow 10 (-d.exp).toNat)).leftpad
      (-d.exp).toNat '0' = fraction
    have hfd : ∀ c ∈ fraction, c.isDigit = true := by
      intro c hm
      rw [← hf, List.leftpad, List.mem_append] at hm
      obtain hm | hm := hm
      · rw [List.eq_of_mem_replicate hm]
        rfl
      · exact isDigit_of_mem_toDigits hm
    have hfn : fraction ≠ [] := by
      rw [← hf]
      simp [List.leftpad]
    refine ⟨⟨Nat.toDigits 10 (d.digits / Nat.pow 10 (-d.exp).toNat), some fraction, none⟩,
      ⟨⟨hw _, ?_, .inl (hne _), by simp⟩, rfl, hne _, by simpa using hfn⟩, ?_⟩
    · intro ds hds
      cases hds
      exact hfd
    · simp only [Numeral.chars, Numeral.mantissa, Decimal.chars, if_neg hp, hf, List.append_nil]

theorem Decimal.exists_chars_eq_cons (d : Decimal) :
    ∃ c cs, d.chars = c :: cs ∧ c.isDigit = true := by
  obtain ⟨n, hn, hc⟩ := d.exists_numeral
  obtain ⟨c, ds, hw⟩ := List.exists_cons_of_ne_nil hn.whole_ne_nil
  rw [← hc, Numeral.chars, Numeral.mantissa, hw]
  exact ⟨c, _, rfl, hn.whole c (by simp [hw])⟩

/-- The numeral that is spelled like a decimal stands for it. -/
theorem Numeral.WellFormed.toDecimal_eq {n : Numeral} {d : Decimal} (hn : n.WellFormed)
    (hd : d.exp ≤ 0) (hc : n.chars = d.chars) : n.toDecimal = d := by
  have hread := Numeral.toDecimal_scan_chars hd
  rwa [← hc, hn.scan_chars] at hread

/-- A decimal is scanned as one numeral, and as the same one, whatever ends it. -/
theorem Decimal.exists_scan_eq {d : Decimal} (h : d.exp ≤ 0) :
    ∃ n : Numeral, n.hasDigits = true ∧ n.mantissa = d.chars ∧ n.chars = d.chars ∧ n.toDecimal = d ∧
      ∀ rest, EndsNumeral rest → Numeral.scan (d.chars ++ rest) = n := by
  obtain ⟨n, hn, hc⟩ := d.exists_numeral
  refine ⟨n, Numeral.hasDigits_iff.mpr hn.ne_nil, ?_, hc, hn.toDecimal_eq h hc, ?_⟩
  · rw [← hc, Numeral.chars, hn.exponent_eq, List.append_nil]
  · intro rest hr
    rw [← hc]
    exact hr.scan_append hn.toWellFormed hn.exponent_eq

namespace Token

theorem numeral_chars {d : Decimal} (h : d.exp ≤ 0) {rest : List Char} (hr : EndsNumeral rest) :
    numeral (d.chars ++ rest) = .ok (.num d.toFloat, d.chars.length - 1) := by
  obtain ⟨n, hd, hm, hc, hv, hs⟩ := Decimal.exists_scan_eq h
  have hpoint : rest.head? ≠ some '.' := by
    intro hp
    exact (hr '.' hp).2.1 rfl
  rw [numeral_eq]
  simp only [hs rest hr, hd, hm, hc, List.drop_left, Bool.true_and]
  rw [if_pos (by simpa using hpoint)]
  unfold Numeral.toFloat
  rw [hv]

/-- A decimal is read as one number in front of whatever ends it. -/
theorem readOn_chars {d : Decimal} (h : d.exp ≤ 0) (p : ℕ) {rest : List Char}
    (hr : EndsNumeral rest) :
    readOn [] p (d.chars ++ rest) =
      (readOn [] (p + d.chars.length) rest).map (.num d.toFloat :: ·) := by
  obtain ⟨c, cs, hd, hc⟩ := d.exists_chars_eq_cons
  have hn := numeral_chars h hr
  rw [hd, List.cons_append, List.length_cons, Nat.add_sub_cancel] at hn
  have hl : lexeme p c (cs ++ rest) = .ok (.num d.toFloat, cs.length) := by
    unfold lexeme
    rw [ofSign?_of_isDigit hc]
    simp only [isAlpha_of_isDigit hc, hc]
    exact hn
  rw [hd, List.cons_append, readOn_token (isBlank_of_isDigit hc) hl, List.length_cons]
  congr 2
  omega

end Token

end SciCalc
