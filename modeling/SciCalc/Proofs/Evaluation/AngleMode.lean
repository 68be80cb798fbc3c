import SciCalc.Proofs.Evaluation.Stages

namespace SciCalc

/-- The functions that a tree calls. -/
def Expr.funcs : Expr → List Func
  | lit _ => []
  | neg a => a.funcs
  | factorial a => a.funcs
  | binary _ a b => a.funcs ++ b.funcs
  | call f a => f :: a.funcs

theorem Expr.funcs_iterate_factorial (n : ℕ) (a : Expr) :
    (Expr.factorial^[n] a).funcs = a.funcs := by
  induction n with
  | zero => rfl
  | succ n ih =>
    rw [Function.iterate_succ_apply']
    exact ih

/-- The mode enters a tree by its trigonometric functions alone. -/
theorem Expr.eval_eq_of_not_isTrig {e : Expr} (h : ∀ f ∈ e.funcs, f.isTrig = false)
    (m n : AngleMode) :
    e.eval m = e.eval n := by
  induction e with
  | lit x => rfl
  | neg a ih =>
    unfold Expr.eval
    rw [ih h]
  | factorial a ih =>
    unfold Expr.eval
    rw [ih h]
  | binary op a b iha ihb =>
    unfold Expr.eval
    rw [iha fun f hf => h f (List.mem_append_left _ hf),
      ihb fun f hf => h f (List.mem_append_right _ hf)]
  | call f a ih =>
    unfold Expr.eval
    rw [ih fun g hg => h g (List.mem_cons_of_mem f hg),
      funext (Func.apply_of_not_isTrig (h f List.mem_cons_self) m n)]

namespace Grammar

/-- The functions of the tree that a phrase goes on with. -/
def Symbol.funcs : Symbol → List Func
  | rest _ a => a.funcs
  | _ => []

theorem Layer.funcs_operand (l : Layer) : l.operand.funcs = [] := by
  cases l <;> rfl

/-- A function that is called is named by one of the tokens, unless the tree before them calls
it. -/
theorem Derives.mem_of_funcs {s : Symbol} {u : List Token} {e : Expr} {d : ℕ} (h : Derives s u e d)
    {f : Func} (hf : f ∈ e.funcs) : f ∈ s.funcs ∨ .word f.name ∈ u := by
  have hoperand : ∀ {l : Layer} {w : List Token}, f ∈ l.operand.funcs ∨ .word f.name ∈ w →
      Token.word f.name ∈ w := by
    intro l w hw
    rw [l.funcs_operand] at hw
    exact hw.resolve_left List.not_mem_nil
  induction h with
  | chain _ _ ihu ihv =>
    right
    obtain ha | hv := ihv hf
    · exact List.mem_append_left _ (hoperand (ihu ha))
    · exact List.mem_append_right _ hv
  | done => exact .inl hf
  | more _ _ _ ihu ihv =>
    obtain hab | hv := ihv hf
    · obtain ha | hb := List.mem_append.mp hab
      · exact .inl ha
      · exact .inr (List.mem_cons_of_mem _ (List.mem_append_left _ (hoperand (ihu hb))))
    · exact .inr (List.mem_cons_of_mem _ (List.mem_append_right _ hv))
  | negative _ ih => exact (ih hf).imp_right (List.mem_cons_of_mem _)
  | positive _ ih => exact (ih hf).imp_right (List.mem_cons_of_mem _)
  | unsigned _ ih => exact ih hf
  | base _ ih => exact ih hf
  | raised _ _ ihu ihv =>
    obtain ha | hb := List.mem_append.mp hf
    · exact (ihu ha).imp_right (List.mem_append_left _)
    · exact (ihv hb).imp_right fun hv => List.mem_append_right _ (List.mem_cons_of_mem _ hv)
  | bangs n _ ih =>
    rw [Expr.funcs_iterate_factorial] at hf
    exact (ih hf).imp_right (List.mem_append_left _)
  | num => cases hf
  | pi => cases hf
  | euler => cases hf
  | bracketed _ ih =>
    exact (ih hf).imp_right fun hu => List.mem_cons_of_mem _ (List.mem_append_left _ hu)
  | call _ ih =>
    obtain rfl | ha := List.mem_cons.mp hf
    · exact .inr List.mem_cons_self
    · refine (ih ha).imp_right fun hu => ?_
      exact List.mem_cons_of_mem _ (List.mem_cons_of_mem _ (List.mem_append_left _ hu))

theorem mem_of_funcs {ts : List Token} {e : Expr} (h : Expr.ofTokens ts = .ok e) {f : Func}
    (hf : f ∈ e.funcs) : .word f.name ∈ ts := by
  obtain ⟨d, hd, _⟩ := derives_of_ofTokens h
  exact (hd.mem_of_funcs hf).resolve_left List.not_mem_nil

end Grammar

/-- A text that names a trigonometric function or its inverse. -/
def Trigonometric (s : String) : Prop :=
  ∃ ts, Token.ofString s = .ok ts ∧ ∃ f : Func, f.isTrig = true ∧ .word f.name ∈ ts

/-- In both modes a text that names no such function has the same value or the same fault. -/
theorem evaluate_eq_of_not_trigonometric {s : String} (h : ¬Trigonometric s) (m n : AngleMode) :
    evaluate m s = evaluate n s := by
  unfold evaluate
  simp only
  split
  · rfl
  cases hts : Token.ofChars (Text.trim s.toList) with
  | error f => simp only [bind, Except.bind]
  | ok ts =>
    cases he : Expr.ofTokens ts with
    | error f => simp only [he, bind, Except.bind]
    | ok e =>
      have hfuncs : ∀ f ∈ e.funcs, f.isTrig = false := by
        intro f hf
        rw [← Bool.not_eq_true]
        exact fun ht => h ⟨ts, Token.ofChars_of_trim hts, f, ht, Grammar.mem_of_funcs he hf⟩
      simp only [he, bind, Except.bind, Expr.eval_eq_of_not_isTrig hfuncs m n]

end SciCalc
