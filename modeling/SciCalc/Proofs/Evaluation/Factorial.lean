import SciCalc.Proofs.Evaluation.Stages
import SciCalc.Proofs.Number.Order

namespace SciCalc

open Number

/-- A finite number above zero that is no integer. -/
def Number.IsFraction (x : Float) : Prop := x.isFinite = true ∧ 0 < toRat x ∧ ∀ n : ℕ, toRat x ≠ n

/-- An operand without a factorial. -/
def Number.IsRefused (x : Float) : Prop := IsFraction x ∨ x = infinity

theorem Number.not_isFraction_infinity : ¬IsFraction infinity := by
  rintro ⟨hx, _⟩
  rw [isFinite_infinity] at hx
  cases hx

section Value

variable {x : Float}

theorem factorial_of_isNaN_or_lt (h : x.isNaN = true ∨ x < 0) : factorial x = .ok nan := by
  unfold factorial
  rw [if_pos (by simpa using h)]

private theorem not_below (hn : x.isNaN = false) (hlt : ¬x < 0) : ¬(x.isNaN || x < 0) = true := by
  rw [hn, Bool.false_or, decide_eq_true_eq]
  exact hlt

theorem factorial_of_not_isWhole (hn : x.isNaN = false) (hlt : ¬x < 0) (hw : isWhole x = false) :
    factorial x = .error (.factorialOfFraction x) := by
  unfold factorial
  rw [if_neg (not_below hn hlt), if_pos (by rw [hw]; rfl)]

/-- The factorial of a natural number is the product up to it, and infinite above the bound. -/
theorem factorial_of_toRat_eq {n : ℕ} (hx : x.isFinite = true) (h : toRat x = n) :
    factorial x = .ok (if 170 < n then infinity else factorialProduct n) := by
  have hlt : ¬x < 0 := by
    rw [lt_zero_iff hx, h]
    exact (Nat.cast_nonneg n).not_gt
  have hw : isWhole x = true := by
    rw [isWhole_iff hx, ← toRat_eq_magnitude (h ▸ Nat.cast_nonneg n)]
    exact ⟨n, h⟩
  have hmax : maxFactorial < x ↔ 170 < n := by
    have hfinite : maxFactorial.isFinite = true := by decide +kernel
    have hvalue : toRat maxFactorial = (170 : ℕ) := by
      have hp : parts maxFactorial = .finite .positive 5981343255101440 (-45) (by decide) := rfl
      unfold toRat sign magnitude
      rw [hp]
      norm_num
    rw [lt_iff_toRat_lt hfinite hx, h, hvalue, Nat.cast_lt]
  unfold factorial
  rw [if_neg (not_below (isNaN_of_isFinite hx) hlt), if_neg (by rw [hw]; exact Bool.false_ne_true)]
  by_cases hn : 170 < n
  · rw [if_pos (hmax.mpr hn), if_pos hn]
  · rw [if_neg (hmax.not.mpr hn), if_neg hn, nearestInt_of_toRat_eq hx h]
    rfl

theorem factorial_of_isRefused (h : IsRefused x) :
    factorial x = .error (.factorialOfFraction x) := by
  obtain ⟨hx, hpos, hfraction⟩ | rfl := h
  · refine factorial_of_not_isWhole (isNaN_of_isFinite hx) ?_ (Bool.eq_false_iff.mpr fun hw => ?_)
    · rw [lt_zero_iff hx]
      exact hpos.not_gt
    · obtain ⟨n, hn⟩ := (isWhole_iff hx).mp hw
      exact hfraction n ((toRat_eq_magnitude hpos.le).trans hn)
  · exact factorial_of_not_isWhole rfl (by decide +kernel) rfl

/-- Every operand is refused, or is no number or below zero, or is a natural number. -/
theorem isRefused_or (x : Float) :
    IsRefused x ∨ (x.isNaN = true ∨ x < 0) ∨ x.isFinite = true ∧ ∃ n : ℕ, toRat x = n := by
  cases hx : x.isFinite with
  | false =>
    obtain hn | hi := (isFinite_eq_false_iff x).mp hx
    · exact .inr (.inl (.inl hn))
    · obtain hlt | rfl := lt_zero_or_eq_infinity hi
      · exact .inr (.inl (.inr hlt))
      · exact .inl (.inr rfl)
  | true =>
    by_cases hlt : toRat x < 0
    · exact .inr (.inl (.inr ((lt_zero_iff hx).mpr hlt)))
    by_cases hw : ∃ n : ℕ, toRat x = n
    · exact .inr (.inr ⟨rfl, hw⟩)
    · push Not at hlt hw
      have hpos : 0 < toRat x := lt_of_le_of_ne hlt fun h0 => hw 0 (by rw [← h0, Nat.cast_zero])
      exact .inl (.inl ⟨hx, hpos, hw⟩)

theorem factorial_eq_error_iff {f : Fault} :
    factorial x = .error f ↔ IsRefused x ∧ f = .factorialOfFraction x := by
  constructor
  · intro h
    obtain hr | hn | ⟨hx, n, hn⟩ := isRefused_or x
    · rw [factorial_of_isRefused hr] at h
      cases h
      exact ⟨hr, rfl⟩
    · rw [factorial_of_isNaN_or_lt hn] at h
      cases h
    · rw [factorial_of_toRat_eq hx hn] at h
      cases h
  · rintro ⟨hr, rfl⟩
    exact factorial_of_isRefused hr

end Value

namespace Expr

/-- The nodes of a tree in the order of evaluation: the operands from left to right, and a node
behind its operands. -/
def postorder : Expr → List Expr
  | lit x => [lit x]
  | neg a => a.postorder ++ [neg a]
  | factorial a => a.postorder ++ [factorial a]
  | binary op a b => a.postorder ++ b.postorder ++ [binary op a b]
  | call f a => a.postorder ++ [call f a]

/-- The node is the factorial of an operand that has the value `x`. -/
inductive IsFactorialOf (m : AngleMode) : Expr → Float → Prop
  | intro {a : Expr} {x : Float} (h : a.eval m = .ok x) : IsFactorialOf m (.factorial a) x

/-- The first factorial among the nodes whose operand has a value of the class `p` has the operand
`x`. -/
def First (m : AngleMode) (p : Float → Prop) (nodes : List Expr) (x : Float) : Prop :=
  ∃ front n back, nodes = front ++ n :: back ∧ n.IsFactorialOf m x ∧ p x ∧
    ∀ n' ∈ front, ∀ y, n'.IsFactorialOf m y → ¬p y

variable {m : AngleMode} {p q : Float → Prop} {nodes : List Expr} {e n : Expr} {x y : Float}
  {f : Fault}

theorem IsFactorialOf.unique (h : n.IsFactorialOf m x) (h' : n.IsFactorialOf m y) : x = y := by
  cases h with
  | intro hx =>
    cases h' with
    | intro hy => exact Except.ok.inj (hx.symm.trans hy)

namespace First

theorem holds (h : First m p nodes x) : p x := by
  obtain ⟨_, _, _, _, _, hp, _⟩ := h
  exact hp

theorem exists_mem (h : First m p nodes x) : ∃ n ∈ nodes, n.IsFactorialOf m x := by
  obtain ⟨front, n, back, rfl, hn, _⟩ := h
  exact ⟨n, by simp, hn⟩

theorem append (h : First m p nodes x) (rest : List Expr) : First m p (nodes ++ rest) x := by
  obtain ⟨front, n, back, rfl, hn, hp, hfront⟩ := h
  exact ⟨front, n, back ++ rest, by rw [List.append_assoc, List.cons_append], hn, hp, hfront⟩

theorem behind {before : List Expr} (hbefore : ∀ n ∈ before, ∀ y, n.IsFactorialOf m y → ¬p y)
    (h : First m p nodes x) : First m p (before ++ nodes) x := by
  obtain ⟨front, n, back, rfl, hn, hp, hfront⟩ := h
  refine ⟨before ++ front, n, back, (List.append_assoc _ _ _).symm, hn, hp, fun n' hn' => ?_⟩
  obtain hn' | hn' := List.mem_append.mp hn'
  · exact hbefore n' hn'
  · exact hfront n' hn'

theorem unique (h : First m p nodes x) (h' : First m p nodes y) : x = y := by
  obtain ⟨front, n, back, rfl, hn, hp, hfront⟩ := h
  obtain ⟨front', n', back', heq, hn', hp', hfront'⟩ := h'
  obtain ⟨mid, rfl, hmid⟩ | ⟨mid, rfl, hmid⟩ := List.append_eq_append_iff.mp heq
  · cases mid with
    | nil =>
      obtain ⟨rfl, _⟩ := List.cons.inj hmid
      exact hn.unique hn'
    | cons c mid =>
      obtain ⟨rfl, _⟩ := List.cons.inj hmid
      exact absurd hp (hfront' n (by simp) x hn)
  · cases mid with
    | nil =>
      obtain ⟨rfl, _⟩ := List.cons.inj hmid
      exact hn.unique hn'
    | cons c mid =>
      obtain ⟨rfl, _⟩ := List.cons.inj hmid
      exact absurd hp' (hfront n' (by simp) y hn')

/-- The first operand of a class is also the first of a smaller class that it belongs to. -/
theorem mono (h : First m p nodes x) (hq : ∀ y, q y → p y) (hx : q x) : First m q nodes x := by
  obtain ⟨front, n, back, rfl, hn, _, hfront⟩ := h
  exact ⟨front, n, back, rfl, hn, hx, fun n' hn' y hy hqy => hfront n' hn' y hy (hq y hqy)⟩

end First

/-- No factorial in a tree with a value is refused. -/
theorem not_isRefused_of_eval_eq_ok {v : Float} (h : e.eval m = .ok v) :
    ∀ n ∈ e.postorder, ∀ x, n.IsFactorialOf m x → ¬IsRefused x := by
  have hroot : ∀ (nodes : List Expr) (e : Expr),
      (∀ n ∈ nodes, ∀ x, n.IsFactorialOf m x → ¬IsRefused x) →
      (∀ x, e.IsFactorialOf m x → ¬IsRefused x) →
      ∀ n ∈ nodes ++ [e], ∀ x, n.IsFactorialOf m x → ¬IsRefused x := by
    intro nodes e hnodes he n hn
    obtain hn | hn := List.mem_append.mp hn
    · exact hnodes n hn
    · rw [List.mem_singleton.mp hn]
      exact he
  induction e generalizing v with
  | lit x => exact hroot [] (.lit x) (by simp) nofun
  | neg a ih =>
    obtain ⟨x, hx, _⟩ := Grammar.exists_of_bind_eq_ok h
    exact hroot _ _ (ih hx) nofun
  | factorial a ih =>
    obtain ⟨x, hx, h⟩ := Grammar.exists_of_bind_eq_ok h
    refine hroot _ _ (ih hx) fun y hy hr => ?_
    obtain rfl := hy.unique (.intro hx)
    rw [factorial_of_isRefused hr] at h
    cases h
  | binary op a b iha ihb =>
    obtain ⟨x, hx, h⟩ := Grammar.exists_of_bind_eq_ok h
    obtain ⟨y, hy, _⟩ := Grammar.exists_of_bind_eq_ok h
    refine hroot _ _ (fun n hn => ?_) nofun
    obtain hn | hn := List.mem_append.mp hn
    · exact iha hx n hn
    · exact ihb hy n hn
  | call g a ih =>
    obtain ⟨x, hx, _⟩ := Grammar.exists_of_bind_eq_ok h
    exact hroot _ _ (ih hx) nofun

/-- A fault is that of the first factorial that is refused. -/
theorem exists_first_of_eval_eq_error (h : e.eval m = .error f) :
    ∃ x, First m IsRefused e.postorder x ∧ f = .factorialOfFraction x := by
  induction e with
  | lit x => cases h
  | neg a ih =>
    obtain h | ⟨x, _, h⟩ := Grammar.exists_of_bind_eq_error h
    · obtain ⟨x, hx, hf⟩ := ih h
      exact ⟨x, hx.append _, hf⟩
    · cases h
  | factorial a ih =>
    obtain h | ⟨x, hx, h⟩ := Grammar.exists_of_bind_eq_error h
    · obtain ⟨x, hx, hf⟩ := ih h
      exact ⟨x, hx.append _, hf⟩
    · obtain ⟨hr, hf⟩ := factorial_eq_error_iff.mp h
      exact ⟨x,
        First.behind (not_isRefused_of_eval_eq_ok hx) ⟨[], _, [], rfl, .intro hx, hr, by simp⟩, hf⟩
  | binary op a b iha ihb =>
    obtain h | ⟨x, hx, h⟩ := Grammar.exists_of_bind_eq_error h
    · obtain ⟨x, hx, hf⟩ := iha h
      exact ⟨x, (hx.append _).append _, hf⟩
    · obtain h | ⟨y, _, h⟩ := Grammar.exists_of_bind_eq_error h
      · obtain ⟨y, hy, hf⟩ := ihb h
        exact ⟨y, (hy.behind (not_isRefused_of_eval_eq_ok hx)).append _, hf⟩
      · cases h
  | call g a ih =>
    obtain h | ⟨x, _, h⟩ := Grammar.exists_of_bind_eq_error h
    · obtain ⟨x, hx, hf⟩ := ih h
      exact ⟨x, hx.append _, hf⟩
    · cases h

/-- Where a factorial is refused, there is a first one. -/
theorem exists_first_of_mem (hn : n ∈ e.postorder) (hx : n.IsFactorialOf m x) (hr : IsRefused x) :
    ∃ y, First m IsRefused e.postorder y ∧ e.eval m = .error (.factorialOfFraction y) := by
  cases h : e.eval m with
  | ok v => exact absurd hr (not_isRefused_of_eval_eq_ok h n hn x hx)
  | error f =>
    obtain ⟨y, hy, rfl⟩ := exists_first_of_eval_eq_error h
    exact ⟨y, hy, rfl⟩

theorem eval_eq_error_iff :
    e.eval m = .error f ↔ ∃ x, First m IsRefused e.postorder x ∧ f = .factorialOfFraction x := by
  refine ⟨exists_first_of_eval_eq_error, ?_⟩
  rintro ⟨x, hx, rfl⟩
  obtain ⟨n, hn, hnx⟩ := hx.exists_mem
  obtain ⟨y, hy, h⟩ := exists_first_of_mem hn hnx hx.holds
  rw [h, hx.unique hy]

/-- If the first operand that is refused is not infinite, it is the first fraction. -/
theorem first_isFraction_iff (h : ¬First m IsRefused e.postorder infinity) :
    First m IsFraction e.postorder x ↔ First m IsRefused e.postorder x := by
  have hfraction : ∀ {y}, First m IsRefused e.postorder y → First m IsFraction e.postorder y := by
    intro y hy
    obtain hr | rfl := hy.holds
    · exact hy.mono (fun _ => .inl) hr
    · exact absurd hy h
  refine ⟨fun hx => ?_, hfraction⟩
  obtain ⟨n, hn, hnx⟩ := hx.exists_mem
  obtain ⟨y, hy, _⟩ := exists_first_of_mem hn hnx (.inl hx.holds)
  rwa [hx.unique (hfraction hy)]

end Expr

/-- Evaluation fails exactly if a factorial is refused, and the fault is that of the first one that
is, in the order of evaluation. That only fractions are refused is true of a tree exactly if the
first operand that is refused is not infinite. Of all other operands there is a factorial: `NaN` of
no number and below zero, and of a natural number the product up to it, which is infinite above
170. -/
theorem evaluation_fails_iff (m : AngleMode) (e : Expr) :
    (∀ f, e.eval m = .error f ↔
      ∃ x, Expr.First m IsRefused e.postorder x ∧ f = .factorialOfFraction x) ∧
    ((∀ f, e.eval m = .error f ↔
        ∃ x, Expr.First m IsFraction e.postorder x ∧ f = .factorialOfFraction x) ↔
      ¬Expr.First m IsRefused e.postorder infinity) ∧
    ∀ x, IsRefused x ∧ factorial x = .error (.factorialOfFraction x) ∨
      (x.isNaN = true ∨ x < 0) ∧ factorial x = .ok nan ∨
      ∃ n : ℕ, x.isFinite = true ∧ toRat x = n ∧
        factorial x = .ok (if 170 < n then infinity else factorialProduct n) := by
  refine ⟨fun f => Expr.eval_eq_error_iff, ⟨?_, ?_⟩, fun x => ?_⟩
  · intro hclaim hfirst
    obtain ⟨x, hx, hf⟩ := (hclaim _).mp (Expr.eval_eq_error_iff.mpr ⟨_, hfirst, rfl⟩)
    obtain rfl := Fault.factorialOfFraction.inj hf
    exact not_isFraction_infinity hx.holds
  · intro hnot f
    simp only [Expr.eval_eq_error_iff, Expr.first_isFraction_iff hnot]
  · obtain hr | hn | ⟨hx, n, hn⟩ := isRefused_or x
    · exact .inl ⟨hr, factorial_of_isRefused hr⟩
    · exact .inr (.inl ⟨hn, factorial_of_isNaN_or_lt hn⟩)
    · exact .inr (.inr ⟨n, hx, hn, factorial_of_toRat_eq hx hn⟩)

/-- The factorial of the infinity `1/0` is refused as that of a fraction, although infinity is no
fraction and above every bound. -/
theorem factorial_of_infinity_refused :
    Token.ofString "(1/0)!" = .ok [.openParen, .num 1, .slash, .num 0, .closeParen, .bang] ∧
    Expr.ofTokens [.openParen, .num 1, .slash, .num 0, .closeParen, .bang] =
      .ok (.factorial (.binary .div (.lit 1) (.lit 0))) ∧
    (∀ n ∈ (Expr.factorial (.binary .div (.lit 1) (.lit 0))).postorder, ∀ x,
      n.IsFactorialOf .degrees x → x = infinity ∧ ¬IsFraction x ∧ maxFactorial < x) ∧
    (Expr.factorial (.binary .div (.lit 1) (.lit 0))).eval .degrees =
      .error (.factorialOfFraction infinity) := by
  have hmax : maxFactorial < infinity := by decide +kernel
  refine ⟨by decide +kernel, by decide +kernel, ?_, rfl⟩
  intro n hn x hx
  simp only [Expr.postorder, List.cons_append, List.nil_append, List.mem_cons, List.not_mem_nil,
    or_false] at hn
  obtain rfl | rfl | rfl | rfl := hn <;> cases hx
  rename_i hx
  obtain rfl : x = infinity := (Except.ok.inj hx).symm
  exact ⟨rfl, not_isFraction_infinity, hmax⟩

end SciCalc
