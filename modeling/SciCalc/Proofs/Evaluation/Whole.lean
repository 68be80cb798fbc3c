import SciCalc.Calculator
import SciCalc.Proofs.Number.Whole
import SciCalc.Proofs.Number.Shortest
import SciCalc.Proofs.Evaluation.Numeral

namespace SciCalc

open Number

theorem Number.toString_eq (n : ℤ) :
    toString n = String.ofList (signed (signOf n) (Nat.toDigits 10 n.natAbs)) := by
  cases n with
  | ofNat m => rfl
  | negSucc m =>
    have hs : signOf (Int.negSucc m) = .negative := if_pos (Int.negSucc_lt_zero m)
    rw [hs, ← String.toList_inj, String.toList_ofList]
    change ("-" ++ String.ofList (Nat.toDigits 10 (m + 1))).toList = '-' :: Nat.toDigits 10 (m + 1)
    simp only [String.toList_append, String.toList_ofList]
    rfl

/-- The text of an integer of 53 bits, as a number and as an integer. -/
theorem Number.text_ofInt {n : ℤ} (hle : n.natAbs ≤ 2 ^ 53) : text (ofInt n) = toString n := by
  rw [text, chars_of_whole (isFinite_ofInt hle) (magnitude_ofInt hle) hle, sign_ofInt, toString_eq]

theorem value?_toString {n : ℤ} (hle : n.natAbs ≤ 2 ^ 53) (m : AngleMode) :
    value? m (toString n) = some (toTenDecimals (ofInt n)) := by
  rw [← text_ofInt hle, value?, evaluate_text m (isFinite_ofInt hle)]
  rfl

/-- What is shown of an integer is the text of the integer rounded to ten decimals. -/
theorem equals_expression_of_toString {n : ℤ} (hle : n.natAbs ≤ 2 ^ 53) {k : Calculator}
    (hk : k.expression = toString n) : k.equals.expression = text (toTenDecimals (ofInt n)) := by
  rw [Calculator.equals_expression, Calculator.result, hk, value?_toString hle]
  exact resultText_eq_text (toTenDecimals_ne_negative_zero (isFinite_ofInt hle))

/-- An integer of 53 bits is the value of its text, in both modes, and is shown as that text when it
has been evaluated, exactly if it does not stray; and exactly then does rounding to ten decimals
keep a number, of either sign, with its absolute value. -/
theorem whole_kept_iff (n : ℤ) (hle : n.natAbs ≤ 2 ^ 53) :
    (∀ m, value? m (toString n) = some (ofInt n) ↔ ¬Strays n.natAbs) ∧
    (∀ k : Calculator, k.expression = toString n →
      (k.equals.expression = toString n ↔ ¬Strays n.natAbs)) ∧
    ∀ x : Float, x.isFinite = true → parts x ≠ .zero .negative → magnitude x = n.natAbs →
      (toTenDecimals x = x ↔ ¬Strays n.natAbs) := by
  refine ⟨fun m => ?_, fun k hk => ?_, fun x hx hz hm => ?_⟩
  · rw [value?_toString hle, Option.some_inj]
    exact toTenDecimals_ofInt_iff hle
  · rw [equals_expression_of_toString hle hk, ← text_ofInt hle, ← toTenDecimals_ofInt_iff hle]
    constructor
    · exact text_inj (isFinite_toTenDecimals (isFinite_ofInt hle)) (isFinite_ofInt hle)
    · intro h
      rw [h]
  · exact toTenDecimals_eq_self_iff_not_strays hx hz hm hle

/-- The largest number of 32 bits is kept with a minus sign in front. -/
theorem whole_kept_iff_max :
    value? .degrees (toString (-4294967295 : ℤ)) = some (ofInt (-4294967295)) ∧
    ({ expression := "-4294967295" } : Calculator).equals.expression = "-4294967295" := by
  obtain ⟨hvalue, hshown, _⟩ := whole_kept_iff (-4294967295) (by decide)
  exact ⟨(hvalue .degrees).mpr (by decide),
    (hshown { expression := "-4294967295" } (by decide)).mpr (by decide)⟩

/-- The smallest integer that strays loses a unit of the last decimal place that is shown. The
integers below it are all kept. -/
theorem whole_moved :
    value? .degrees (toString (922337205 : ℤ)) = some 922337204.9999999 ∧
    value? .degrees (toString (922337205 : ℤ)) ≠ some (ofInt 922337205) ∧
    ({ expression := "922337205" } : Calculator).equals.expression = "922337204.9999999" ∧
    ∀ n : ℤ, n.natAbs < 922337205 → ∀ m, value? m (toString n) = some (ofInt n) := by
  have hle : (922337205 : ℤ).natAbs ≤ 2 ^ 53 := by decide
  have hround : toTenDecimals (ofInt 922337205) = 922337204.9999999 := by decide +kernel
  refine ⟨?_, ?_, ?_, fun n hn m => ?_⟩
  · rw [value?_toString hle, hround]
  · rw [value?_toString hle, hround]
    decide +kernel
  · rw [equals_expression_of_toString hle (by decide), hround]
    decide +kernel
  · have hsmall : n.natAbs ≤ 2 ^ 53 := by omega
    have hkept : ¬Strays n.natAbs := fun hs => absurd hs.le (by omega)
    rw [value?_toString hsmall, (toTenDecimals_ofInt_iff hsmall).mpr hkept]

end SciCalc
