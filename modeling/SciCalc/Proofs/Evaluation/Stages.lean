import SciCalc.Evaluation
import SciCalc.Proofs.Grammar.ViablePrefix
import SciCalc.Proofs.Token.Blank

namespace SciCalc

open Number

variable {m : AngleMode} {s : String} {ts : List Token} {e : Expr} {v : Float} {f : Fault}

/-- The tree of a text is the one that is evaluated, whatever blanks stand around the text. -/
theorem evaluate_of_ofTokens (m : AngleMode) (hts : Token.ofString s = .ok ts)
    (he : Expr.ofTokens ts = .ok e) : evaluate m s = (do
      let x ← e.eval m
      if x.isFinite then .ok (toTenDecimals x) else .error (.notFinite x)) := by
  have htrim := Token.ofChars_trim hts
  have hne : ¬(Text.trim s.toList).isEmpty = true := by
    intro hnil
    rw [List.isEmpty_iff.mp hnil] at htrim
    cases (Token.Reads.done []).ofChars_eq.symm.trans htrim
    cases he
  unfold evaluate
  simp only [if_neg hne, htrim, he, bind, Except.bind]

theorem value?_eq_some_iff (hts : Token.ofString s = .ok ts) (he : Expr.ofTokens ts = .ok e) :
    value? m s = some v ↔ ∃ x, e.eval m = .ok x ∧ x.isFinite = true ∧ toTenDecimals x = v := by
  unfold value?
  rw [evaluate_of_ofTokens m hts he]
  cases e.eval m with
  | error f => simp [Except.toOption, bind, Except.bind]
  | ok x => cases hx : x.isFinite <;> simp [Except.toOption, bind, Except.bind, hx]

theorem exists_tree_of_evaluate (h : evaluate m s = .ok v) :
    ∃ ts e, Token.ofString s = .ok ts ∧ Expr.ofTokens ts = .ok e := by
  unfold evaluate at h
  simp only at h
  split at h
  · cases h
  · obtain ⟨ts, hts, h⟩ := Grammar.exists_of_bind_eq_ok h
    obtain ⟨e, he, _⟩ := Grammar.exists_of_bind_eq_ok h
    exact ⟨ts, e, Token.ofChars_of_trim hts, he⟩

theorem exists_tree_of_value? (h : value? m s = some v) :
    ∃ ts e, Token.ofString s = .ok ts ∧ Expr.ofTokens ts = .ok e := by
  unfold value? at h
  cases hv : evaluate m s with
  | error f =>
    rw [hv] at h
    cases h
  | ok x => exact exists_tree_of_evaluate hv

theorem value?_eq_some (h : value? m s = some v) :
    ∃ x : Float, x.isFinite = true ∧ v = toTenDecimals x := by
  obtain ⟨ts, e, hts, he⟩ := exists_tree_of_value? h
  obtain ⟨x, _, hx, hv⟩ := (value?_eq_some_iff hts he).mp h
  exact ⟨x, hx, hv.symm⟩

/-- The value of a text depends on its tokens alone. -/
theorem value?_eq_some_of_tokens {s' : String}
    (h : ∀ ts, Token.ofString s = .ok ts → Token.ofString s' = .ok ts) (hv : value? m s = some v) :
    value? m s' = some v := by
  obtain ⟨ts, e, hts, he⟩ := exists_tree_of_value? hv
  rw [value?_eq_some_iff hts he] at hv
  rwa [value?_eq_some_iff (h ts hts) he]

theorem value?_congr {s' : String}
    (h : ∀ ts, Token.ofString s = .ok ts ↔ Token.ofString s' = .ok ts) (m : AngleMode) :
    value? m s = value? m s' := by
  ext v
  constructor
  · exact value?_eq_some_of_tokens fun ts => (h ts).mp
  · exact value?_eq_some_of_tokens fun ts => (h ts).mpr

theorem factorial_eq_error {x : Float} (h : factorial x = .error f) :
    f = .factorialOfFraction x := by
  unfold factorial at h
  split_ifs at h
  cases h
  rfl

/-- A tree has no value only for the factorial of a fraction in it. -/
theorem Expr.eval_eq_error (h : e.eval m = .error f) : ∃ x, f = .factorialOfFraction x := by
  induction e with
  | lit x => cases h
  | neg a ih =>
    obtain h | ⟨x, _, h⟩ := Grammar.exists_of_bind_eq_error h
    · exact ih h
    · cases h
  | factorial a ih =>
    obtain h | ⟨x, _, h⟩ := Grammar.exists_of_bind_eq_error h
    · exact ih h
    · exact ⟨x, factorial_eq_error h⟩
  | binary op a b iha ihb =>
    obtain h | ⟨x, _, h⟩ := Grammar.exists_of_bind_eq_error h
    · exact iha h
    · obtain h | ⟨y, _, h⟩ := Grammar.exists_of_bind_eq_error h
      · exact ihb h
      · cases h
  | call g a ih =>
    obtain h | ⟨x, _, h⟩ := Grammar.exists_of_bind_eq_error h
    · exact ih h
    · cases h

theorem evaluate_eq_error (h : evaluate m s = .error f) :
    (Text.trim s.toList = [] ∧ f = .emptyExpression) ∨
      Token.ofChars (Text.trim s.toList) = .error f ∨
      (∃ ts, Token.ofChars (Text.trim s.toList) = .ok ts ∧ Expr.ofTokens ts = .error f) ∨
      (∃ x, f = .factorialOfFraction x) ∨ ∃ x, f = .notFinite x := by
  unfold evaluate at h
  simp only at h
  split at h
  · rename_i hempty
    cases h
    exact .inl ⟨List.isEmpty_iff.mp hempty, rfl⟩
  · obtain h | ⟨ts, hts, h⟩ := Grammar.exists_of_bind_eq_error h
    · exact .inr (.inl h)
    · obtain h | ⟨e, _, h⟩ := Grammar.exists_of_bind_eq_error h
      · exact .inr (.inr (.inl ⟨ts, hts, h⟩))
      · obtain h | ⟨x, _, h⟩ := Grammar.exists_of_bind_eq_error h
        · exact .inr (.inr (.inr (.inl (Expr.eval_eq_error h))))
        · split at h <;> cases h
          exact .inr (.inr (.inr (.inr ⟨x, rfl⟩)))

end SciCalc
