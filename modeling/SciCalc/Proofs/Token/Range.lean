import SciCalc.Proofs.Number.NotFinite
import SciCalc.Proofs.Number.ReadBack
import SciCalc.Proofs.Token.MaximalMunch

namespace SciCalc

open Number

namespace Decimal

variable {d : Decimal}

theorem sign_toFloat (d : Decimal) : sign d.toFloat = .positive := by
  rw [toFloat_eq_nearest, sign_nearest _ d.toRat_nonneg]

theorem isFinite_toFloat_iff : d.toFloat.isFinite = true ↔ d.toRat < overflow := by
  rw [toFloat_eq_nearest, isFinite_nearest _ d.toRat_nonneg,
    rounded_lt_two_pow_1024_iff d.toRat_nonneg]

theorem toFloat_eq_infinity (h : overflow ≤ d.toRat) : d.toFloat = infinity := by
  have hlarge : 2 ^ 1024 ≤ rounded d.toRat := by
    rw [← not_lt, rounded_lt_two_pow_1024_iff d.toRat_nonneg]
    exact not_lt.mpr h
  apply parts_injective
  rw [toFloat_eq_nearest, parts_nearest_large _ d.toRat_nonneg hlarge]
  rfl

theorem isNaN_toFloat (d : Decimal) : d.toFloat.isNaN = false := by
  obtain h | h := lt_or_ge d.toRat overflow
  · exact isNaN_of_isFinite (isFinite_toFloat_iff.mpr h)
  · rw [toFloat_eq_infinity h]
    decide +kernel

end Decimal

namespace Token

variable {cs l rest : List Char} {t : Token} {ts : List Token}

/-- What a word is called: small letters, and neither constant. -/
structure IsName (w : String) : Prop where
  ne_empty : w ≠ ""
  isLower : ∀ c ∈ w.toList, c.isLower = true
  ne_pi : w ≠ "pi"
  ne_euler : w ≠ "e"

theorem isName_lowered {letters : List Char} (hne : letters ≠ [])
    (ha : ∀ c ∈ letters, c.isAlpha = true) (hpi : lowered letters ≠ "pi")
    (he : lowered letters ≠ "e") : IsName (lowered letters) where
  ne_empty := by
    intro h
    have hnil := String.toList_eq_nil_iff.mpr h
    rw [lowered, String.toList_ofList, List.map_eq_nil_iff] at hnil
    exact hne hnil
  isLower := by
    intro c hc
    rw [lowered, String.toList_ofList] at hc
    obtain ⟨d, hd, rfl⟩ := List.mem_map.mp hc
    rw [Char.isLower_toLower_eq_isAlpha]
    exact ha d hd
  ne_pi := hpi
  ne_euler := he

theorem isName_sqrt : IsName "sqrt" where
  ne_empty := by decide
  isLower := by simp
  ne_pi := by decide
  ne_euler := by decide

/-- The only sign that stands for a word is the root. -/
theorem Lexeme.isName {w : String} (h : Lexeme l (.word w)) : IsName w := by
  cases h with
  | @sign c _ hs =>
    have hw : c = '√' ∧ w = "sqrt" := by simpa [signs] using hs
    rw [hw.2]
    exact isName_sqrt
  | word hne ha hpi he => exact isName_lowered hne ha hpi he

theorem Lexeme.exists_numeral {x : Float} (h : Lexeme l (.num x)) :
    ∃ n : Numeral, n.WellFormed ∧ n.chars = l ∧ x = n.toFloat := by
  cases h with
  | @sign c _ hs =>
    have hnone : (c, Token.num x) ∉ signs := by simp [signs]
    exact absurd hs hnone
  | number hn => exact ⟨_, hn, rfl, rfl⟩

theorem Lexeme.longest (h : Lexeme l t) : Longest l t l :=
  ⟨h, List.prefix_rfl, fun _ _ _ hp => hp.length_le⟩

/-- Behind the mantissa of a numeral stands its exponent, which begins with no point. -/
theorem Lexeme.not_secondPoint (h : Lexeme l t) (m : List Char) : ¬SecondPoint m l := by
  rintro ⟨n, hn, hl, rfl, hp⟩
  obtain ⟨hchars, _⟩ := hl.unique h.longest
  rw [← hchars, Numeral.chars, List.prefix_append_right_inj] at hp
  obtain ⟨r, hr⟩ := hp
  cases hx : n.exponent with
  | none =>
    rw [hx] at hr
    cases hr
  | some x =>
    rw [hx] at hr
    have hhead : (x.chars ++ []).head? = some '.' := by
      rw [List.append_nil]
      exact (congrArg List.head? hr).symm
    exact ((hn.exponent x hx).head_ne [] '.' hhead).2 rfl

/-- The text of one token is read as that token. -/
theorem Lexeme.reads (h : Lexeme l t) : Reads l [t] [] := by
  have hl : Longest l t (l ++ []) := by
    rw [List.append_nil]
    exact h.longest
  have hp : ∀ m, ¬SecondPoint m (l ++ []) := by
    rw [List.append_nil]
    exact h.not_secondPoint
  have hr := Reads.lexeme hl hp (.done [])
  rwa [List.append_nil] at hr

/-- Every token that is read is that of a lexeme in the text. -/
theorem Reads.exists_lexeme (h : Reads cs ts rest) (ht : t ∈ ts) : ∃ l, Lexeme l t ∧ l <:+: cs := by
  induction h with
  | done rest => cases ht
  | @blank c cs rest ts hb h ih =>
    obtain ⟨l, hl, hin⟩ := ih ht
    exact ⟨l, hl, hin.trans (List.suffix_cons c cs).isInfix⟩
  | @lexeme l cs rest u ts hl hp h ih =>
    obtain rfl | ht := List.mem_cons.mp ht
    · exact ⟨l, hl.lexeme, (List.prefix_append l cs).isInfix⟩
    · obtain ⟨l', hl', hin⟩ := ih ht
      exact ⟨l', hl', hin.trans (List.suffix_append l cs).isInfix⟩

/-- The tokens of a text: a number is no `NaN`, has no sign and is the value of a numeral in the
text, infinite if that is at least `overflow` and finite otherwise; a word is a name in small
letters. So a numeral that is too large is not refused, but stands for infinity. -/
theorem ofString_range (s : String) (ts : List Token) (h : ofString s = .ok ts) :
    (∀ x, .num x ∈ ts → x.isNaN = false ∧ sign x = .positive ∧
      ∃ n : Numeral, n.WellFormed ∧ n.chars <:+: s.toList ∧ x = n.toFloat ∧
        (x.isFinite = true ↔ n.toDecimal.toRat < overflow) ∧
        (overflow ≤ n.toDecimal.toRat → x = infinity)) ∧
    (∀ w, .word w ∈ ts → IsName w) ∧
    ∀ n : Numeral, n.WellFormed → overflow ≤ n.toDecimal.toRat →
      ofString (String.ofList n.chars) = .ok [.num infinity] := by
  have hr := reads_of_ofChars h
  refine ⟨fun x hx => ?_, fun w hw => ?_, fun n hn hlarge => ?_⟩
  · obtain ⟨l, hl, hin⟩ := hr.exists_lexeme hx
    obtain ⟨n, hn, rfl, rfl⟩ := hl.exists_numeral
    exact ⟨n.toDecimal.isNaN_toFloat, n.toDecimal.sign_toFloat, n, hn, hin, rfl,
      Decimal.isFinite_toFloat_iff, Decimal.toFloat_eq_infinity⟩
  · obtain ⟨l, hl, _⟩ := hr.exists_lexeme hw
    exact hl.isName
  · have hinf : n.toFloat = infinity := Decimal.toFloat_eq_infinity hlarge
    have hone := (Lexeme.number hn).reads
    rw [hinf] at hone
    rw [ofString, String.toList_ofList]
    exact hone.ofChars_eq

/-- The root, a number, a name and a number that is too large. -/
theorem ofString_range_root :
    ofString "√2e-1x1e309" = .ok [.word "sqrt", .num 0.2, .word "x", .num infinity] ∧
    IsName "sqrt" ∧ IsName "x" ∧
    infinity.isNaN = false ∧ sign infinity = .positive ∧ sign 0.2 = .positive ∧
    ofString "1e309" = .ok [.num infinity] := by
  have h : ofString "√2e-1x1e309" = .ok [.word "sqrt", .num 0.2, .word "x", .num infinity] := by
    decide +kernel
  obtain ⟨hnum, hword, hlarge⟩ := ofString_range _ _ h
  have hinf := hnum infinity (by simp)
  have hover : overflow ≤ (⟨1, 309⟩ : Decimal).toRat := by
    have hpow : (2 : ℚ) ^ 1024 ≤ 10 ^ 309 := by
      have hnat : 2 ^ 1024 ≤ 10 ^ 309 := by decide +kernel
      exact_mod_cast hnat
    have hsub : overflow ≤ 2 ^ 1024 := sub_le_self _ (by positivity)
    calc overflow ≤ 10 ^ 309 := hsub.trans hpow
      _ = (⟨1, 309⟩ : Decimal).toRat := by simp [Decimal.toRat]
  have hd : (Numeral.scan ['1', 'e', '3', '0', '9']).toDecimal = ⟨1, 309⟩ := by decide
  have hone := hlarge (Numeral.scan ['1', 'e', '3', '0', '9']) (Numeral.wellFormed_scan (by decide))
    (hd ▸ hover)
  have hchars : String.ofList (Numeral.scan ['1', 'e', '3', '0', '9']).chars = "1e309" := by decide
  rw [hchars] at hone
  exact ⟨h, hword "sqrt" (by simp), hword "x" (by simp), hinf.1, hinf.2.1, (hnum 0.2 (by simp)).2.1,
    hone⟩

/-- A numeral with too many digits is a number token and not finite. -/
theorem large_literal_not_refused :
    ofString "1e999" = .ok [.num infinity] ∧ infinity.isFinite = false :=
  ⟨by decide +kernel, by decide +kernel⟩

end Token

end SciCalc
