import SciCalc.Calculator
import SciCalc.Proofs.Evaluation.Numeral
import SciCalc.Proofs.Number.TenDecimals

namespace SciCalc

open Float.Model Float.Model.UnpackedFloat Number

/-- The text of a result has the value of the result rounded once more. -/
theorem value?_resultText {m : AngleMode} {s : String} {v : Float} (h : value? m s = some v)
    (m' : AngleMode) : value? m' (resultText (some v)) = some (toTenDecimals v) := by
  obtain ⟨x, hx, rfl⟩ := value?_eq_some h
  have ht := resultText_eq_text (toTenDecimals_ne_negative_zero hx)
  unfold value? SciCalc.resultText
  simp only
  rw [ht, evaluate_text m' (isFinite_toTenDecimals hx)]
  rfl

theorem value?_resultText_iff {m : AngleMode} {s : String} {v : Float} (h : value? m s = some v)
    (m' : AngleMode) : value? m' (resultText (some v)) = some v ↔ ¬Drifts (magnitude v) := by
  obtain ⟨x, hx, hv⟩ := value?_eq_some h
  have hiff := toTenDecimals_eq_self_iff hx
  rw [← hv] at hiff
  rw [value?_resultText h m', ← hiff]
  exact Option.some_inj

/-- Different results are shown as different texts. -/
theorem resultText_inj {m m' : AngleMode} {s s' : String} {v v' : Float} (h : value? m s = some v)
    (h' : value? m' s' = some v') (ht : resultText (some v) = resultText (some v')) : v = v' := by
  obtain ⟨x, hx, rfl⟩ := value?_eq_some h
  obtain ⟨x', hx', rfl⟩ := value?_eq_some h'
  change Number.resultText _ = Number.resultText _ at ht
  rw [resultText_eq_text (toTenDecimals_ne_negative_zero hx),
    resultText_eq_text (toTenDecimals_ne_negative_zero hx')] at ht
  exact text_inj (isFinite_toTenDecimals hx) (isFinite_toTenDecimals hx') ht

namespace Calculator

theorem run_equals_succ (k : Calculator) (n : Nat) :
    k.run (List.replicate (n + 1) .equals) = k.equals.run (List.replicate n .equals) := rfl

/-- A result that does not drift stays, however often it is evaluated. -/
theorem run_equals_of_not_drifts {m : AngleMode} {s : String} {v : Float} (h : value? m s = some v)
    (hd : ¬Drifts (magnitude v)) {k : Calculator} (hk : k.expression = resultText (some v))
    (n : Nat) :
    (k.run (List.replicate n .equals)).expression = resultText (some v) := by
  induction n generalizing k with
  | zero => exact hk
  | succ n ih =>
    rw [run_equals_succ]
    apply ih
    rw [equals_expression, result, hk, (value?_resultText_iff h k.mode).mpr hd]

end Calculator

/-- A shown result evaluates to itself, and stays shown however often it is evaluated, exactly when
it does not drift. -/
theorem reevaluation_iff (m : AngleMode) (s : String) (v : Float) (h : value? m s = some v) :
    (∀ m', value? m' (resultText (some v)) = some v ↔ ¬Drifts (magnitude v)) ∧
    ∀ k : Calculator, k.result = some v →
      ((∀ n, (k.equals.run (List.replicate n .equals)).expression = k.equals.expression) ↔
        ¬Drifts (magnitude v)) := by
  refine ⟨value?_resultText_iff h, ?_⟩
  intro k hk
  have hshown : k.equals.expression = resultText (some v) := by
    rw [Calculator.equals_expression, hk]
  constructor
  · intro hall hd
    have hone := hall 1
    rw [hshown, Calculator.run_equals_succ] at hone
    have hagain := value?_resultText hk k.equals.mode
    change k.equals.equals.expression = _ at hone
    rw [Calculator.equals_expression, Calculator.result, hshown, hagain] at hone
    have hv := resultText_inj hagain h hone
    have hiff := (value?_resultText_iff h k.equals.mode).mp
    rw [hagain, hv] at hiff
    exact hiff rfl hd
  · intro hd n
    rw [hshown]
    exact Calculator.run_equals_of_not_drifts h hd hshown n

/-- A quarter stays. -/
theorem reevaluation_quarter :
    value? .radians (resultText (some 0.25)) = some 0.25 ∧
    ∀ n,
      (({ expression := "0.25" } : Calculator).equals.run (List.replicate n .equals)).expression =
      ({ expression := "0.25" } : Calculator).equals.expression := by
  have h : value? .degrees "0.25" = some 0.25 := by
    have hv := value?_numeral .degrees .positive (d := ⟨25, -2⟩) (by decide) rfl
    have ht : toTenDecimals (withSign .positive (⟨25, -2⟩ : Decimal).toFloat) = 0.25 := by
      decide +kernel
    rw [ht] at hv
    exact hv
  have hd : ¬Drifts (magnitude 0.25) := by
    intro hd
    have hp : parts 0.25 = .finite .positive 4503599627370496 (-54) (by decide) := rfl
    have h18 := hd.1
    unfold magnitude at h18
    rw [hp] at h18
    norm_num at h18
  obtain ⟨hvalue, hsession⟩ := reevaluation_iff .degrees "0.25" 0.25 h
  exact ⟨(hvalue .radians).mpr hd, (hsession { expression := "0.25" } h).mpr hd⟩

/-- The result shown of a number typed with eleven decimals gains a unit when it is evaluated
again. -/
theorem reevaluation_drifting :
    value? .degrees "300000.54545454545" = some 300000.5454545455 ∧
    value? .degrees (resultText (some 300000.5454545455)) = some 300000.5454545456 ∧
    ({ expression := "300000.54545454545" } : Calculator).equals.expression = "300000.5454545455" ∧
    ({ expression := "300000.54545454545" } : Calculator).equals.equals.expression =
      "300000.5454545456" := by
  have h : value? .degrees "300000.54545454545" = some 300000.5454545455 := by
    have hv := value?_numeral .degrees .positive (d := ⟨30000054545454545, -11⟩) (by decide) rfl
    have ht : toTenDecimals (withSign .positive (⟨30000054545454545, -11⟩ : Decimal).toFloat) =
        300000.5454545455 := by decide +kernel
    rw [ht] at hv
    exact hv
  have hagain : value? .degrees (resultText (some 300000.5454545455)) = some 300000.5454545456 := by
    have ht : toTenDecimals 300000.5454545455 = 300000.5454545456 := by decide +kernel
    rw [value?_resultText h .degrees, ht]
  have hshown : ({ expression := "300000.54545454545" } : Calculator).equals.expression =
      resultText (some 300000.5454545455) := by
    rw [Calculator.equals_expression, Calculator.result, h]
  refine ⟨h, hagain, ?_, ?_⟩
  · rw [hshown]
    decide +kernel
  · rw [Calculator.equals_expression, Calculator.result, hshown]
    change resultText (value? .degrees _) = _
    rw [hagain]
    decide +kernel

end SciCalc
