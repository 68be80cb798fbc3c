import SciCalc.Proofs.Evaluation.Stages
import SciCalc.Proofs.Number.NotFinite

namespace SciCalc

open Number

/-- The operands, not both finite, of which a quotient or a power is finite. -/
inductive BinaryOp.Absorbs : BinaryOp → Float → Float → Prop
  | quotient {x y : Float} (hx : x.isFinite = true) (hy : y.isInf = true) : Absorbs .div x y
  | power {x y : Float} (h : FinitePower x y) : Absorbs .pow x y

/-- Of the functions the arctangent alone has limits at the infinities. -/
def Func.Absorbs (f : Func) (x : Float) : Prop := f = .atan ∧ x.isInf = true

theorem BinaryOp.isFinite_apply_iff (op : BinaryOp) {x y : Float}
    (h : x.isFinite = false ∨ y.isFinite = false) :
    (op.apply x y).isFinite = true ↔ op.Absorbs x y := by
  have hnot : ¬(x.isFinite = true ∧ y.isFinite = true) := by
    rintro ⟨hx, hy⟩
    simp [hx, hy] at h
  cases op with
  | add => exact ⟨fun hf => absurd (finite_of_add hf) hnot, fun ha => nomatch ha⟩
  | sub => exact ⟨fun hf => absurd (finite_of_sub hf) hnot, fun ha => nomatch ha⟩
  | mul => exact ⟨fun hf => absurd (finite_of_mul hf) hnot, fun ha => nomatch ha⟩
  | div =>
    refine (isFinite_div_iff h).trans ⟨fun hf => .quotient hf.1 hf.2, fun ha => ?_⟩
    cases ha with
    | quotient hx hy => exact ⟨hx, hy⟩
  | pow =>
    refine (isFinite_pow_iff h).trans ⟨.power, fun ha => ?_⟩
    cases ha with
    | power hp => exact hp

theorem BinaryOp.Absorbs.not_both {op : BinaryOp} {x y : Float} (h : op.Absorbs x y) :
    x.isFinite = false ∨ y.isFinite = false := by
  cases h with
  | quotient _ hy => exact .inr (isFinite_of_isInf hy)
  | power hp => exact hp.not_both

namespace AngleMode

theorem finite_of_toRadians {m : AngleMode} {x : Float} (h : (m.toRadians x).isFinite = true) :
    x.isFinite = true := by
  cases m with
  | degrees => exact (finite_of_mul h).1
  | radians => exact h

theorem finite_of_ofRadians {m : AngleMode} {x : Float} (h : (m.ofRadians x).isFinite = true) :
    x.isFinite = true := by
  cases m with
  | degrees => exact (finite_of_mul h).1
  | radians => exact h

end AngleMode

theorem Func.isFinite_atan (m : AngleMode) {x : Float} (hx : x.isInf = true) :
    (atan.apply m x).isFinite = true := by
  have hlimit : ∀ m : AngleMode, (m.ofRadians (-(pi / 2))).isFinite = true ∧
      (m.ofRadians (pi / 2)).isFinite = true := by
    intro m
    cases m <;> decide +kernel
  change (m.ofRadians (withLimits (-(pi / 2)) (pi / 2) Float.atan x)).isFinite = true
  obtain h | h := withLimits_of_isInf hx
  · rw [h]
    exact (hlimit m).1
  · rw [h]
    exact (hlimit m).2

theorem Func.isFinite_apply_iff (m : AngleMode) (f : Func) {x : Float} (hx : x.isFinite = false) :
    (f.apply m x).isFinite = true ↔ f.Absorbs x := by
  have hx' : x.isFinite ≠ true := Bool.eq_false_iff.mp hx
  have hrad : (m.toRadians x).isFinite = false :=
    Bool.eq_false_iff.mpr (mt AngleMode.finite_of_toRadians hx')
  have hlimits : ∀ {low high y : Float} {g : Float → Float}, low.isFinite = false →
      high.isFinite = false → y.isFinite = false → (withLimits low high g y).isFinite ≠ true :=
    fun hl hh hy => Bool.eq_false_iff.mp (isFinite_withLimits hl hh hy)
  cases f
  case atan =>
    refine ⟨fun hf => ⟨rfl, ?_⟩, fun ha => isFinite_atan m ha.2⟩
    exact isInf_of_withLimits hx (AngleMode.finite_of_ofRadians hf)
  -- an angle is taken from the unit of the mode before the limits, and brought into it behind them
  all_goals refine ⟨fun hf => ?_, fun ha => nomatch ha.1⟩
  · exact absurd hf (hlimits isFinite_nan isFinite_nan hrad)
  · exact absurd hf (hlimits isFinite_nan isFinite_nan hrad)
  · exact absurd hf (hlimits isFinite_nan isFinite_nan hrad)
  · exact absurd (AngleMode.finite_of_ofRadians hf) (hlimits isFinite_nan isFinite_nan hx)
  · exact absurd (AngleMode.finite_of_ofRadians hf) (hlimits isFinite_nan isFinite_nan hx)
  · exact absurd (finite_of_sqrt hf) hx'
  · exact absurd hf (hlimits isFinite_nan isFinite_infinity hx)
  · exact absurd hf (hlimits isFinite_nan isFinite_infinity hx)

theorem isFinite_of_isWhole {x : Float} (h : isWhole x = true) : x.isFinite = true := by
  rw [isFinite_eq]
  unfold isWhole at h
  cases hp : parts x <;> rw [hp] at h <;> first | rfl | cases h

theorem finite_of_factorial {x y : Float} (h : factorial x = .ok y) (hy : y.isFinite = true) :
    x.isFinite = true := by
  unfold factorial at h
  split_ifs at h with hneg hwhole hmax
  · cases h
    rw [isFinite_nan] at hy
    cases hy
  all_goals exact isFinite_of_isWhole (by simpa using hwhole)

namespace Expr

/-- The trees right below the root. -/
inductive Operand : Expr → Expr → Prop
  | neg (a : Expr) : Operand a (.neg a)
  | factorial (a : Expr) : Operand a (.factorial a)
  | left (op : BinaryOp) (a b : Expr) : Operand a (.binary op a b)
  | right (op : BinaryOp) (a b : Expr) : Operand b (.binary op a b)
  | argument (f : Func) (a : Expr) : Operand a (.call f a)

/-- The parts of a tree: the tree itself, and the parts of its operands. -/
def Within : Expr → Expr → Prop := Relation.ReflTransGen Operand

/-- An operand is not finite, and the value of the node is. -/
inductive Absorbs (m : AngleMode) : Expr → Prop
  | binary {op : BinaryOp} {a b : Expr} {x y : Float} (ha : a.eval m = .ok x)
      (hb : b.eval m = .ok y)
      (h : op.Absorbs x y) : Absorbs m (.binary op a b)
  | call {f : Func} {a : Expr} {x : Float} (ha : a.eval m = .ok x) (h : f.Absorbs x) :
      Absorbs m (.call f a)

variable {m : AngleMode} {a b t e : Expr} {x y : Float}

theorem absorbs_binary_iff {op : BinaryOp} (ha : a.eval m = .ok x) (hb : b.eval m = .ok y) :
    (binary op a b).Absorbs m ↔ op.Absorbs x y := by
  refine ⟨fun h => ?_, .binary ha hb⟩
  cases h with
  | binary ha' hb' h =>
    cases ha.symm.trans ha'
    cases hb.symm.trans hb'
    exact h

theorem absorbs_call_iff {f : Func} (ha : a.eval m = .ok x) :
    (call f a).Absorbs m ↔ f.Absorbs x := by
  refine ⟨fun h => ?_, .call ha⟩
  cases h with
  | call ha' h =>
    cases ha.symm.trans ha'
    exact h

/-- A node has a value only if its operands have one; and if that of an operand is not finite, then
that of the node is finite exactly when it absorbs the operand. -/
theorem Operand.eval_eq_ok (h : Operand a e) (he : e.eval m = .ok y) :
    ∃ x, a.eval m = .ok x ∧ (x.isFinite = false → (y.isFinite = true ↔ e.Absorbs m)) := by
  cases h with
  | neg a =>
    obtain ⟨x, hx, h⟩ := Grammar.exists_of_bind_eq_ok he
    cases h
    refine ⟨x, hx, fun hf => ⟨fun h => ?_, fun h => nomatch h⟩⟩
    rw [isFinite_neg, hf] at h
    cases h
  | factorial a =>
    obtain ⟨x, hx, h⟩ := Grammar.exists_of_bind_eq_ok he
    refine ⟨x, hx, fun hf => ⟨fun hy => ?_, fun h => nomatch h⟩⟩
    rw [finite_of_factorial h hy] at hf
    cases hf
  | left op a b =>
    obtain ⟨x, hx, h⟩ := Grammar.exists_of_bind_eq_ok he
    obtain ⟨z, hz, h⟩ := Grammar.exists_of_bind_eq_ok h
    cases h
    exact ⟨x, hx, fun hf => (op.isFinite_apply_iff (.inl hf)).trans (absorbs_binary_iff hx hz).symm⟩
  | right op b a =>
    obtain ⟨z, hz, h⟩ := Grammar.exists_of_bind_eq_ok he
    obtain ⟨x, hx, h⟩ := Grammar.exists_of_bind_eq_ok h
    cases h
    exact ⟨x, hx, fun hf => (op.isFinite_apply_iff (.inr hf)).trans (absorbs_binary_iff hz hx).symm⟩
  | argument f a =>
    obtain ⟨x, hx, h⟩ := Grammar.exists_of_bind_eq_ok he
    cases h
    exact ⟨x, hx, fun hf => (f.isFinite_apply_iff m hf).trans (absorbs_call_iff hx).symm⟩

theorem Absorbs.exists_operand (h : e.Absorbs m) :
    ∃ a x, Operand a e ∧ a.eval m = .ok x ∧ x.isFinite = false := by
  cases h with
  | @binary op a b x y ha hb h =>
    obtain hx | hy := h.not_both
    · exact ⟨a, x, .left op a b, ha, hx⟩
    · exact ⟨b, y, .right op a b, hb, hy⟩
  | @call f a x ha h => exact ⟨a, x, .argument f a, ha, isFinite_of_isInf h.2⟩

/-- Between a tree without a finite value and a finite value around it there is a node that
absorbs. -/
theorem Within.exists_absorbs (h : t.Within e) (ht : t.eval m = .ok x) (hx : x.isFinite = false)
    (he : e.eval m = .ok y) (hy : y.isFinite = true) :
    ∃ n, t.Within n ∧ n.Within e ∧ n.Absorbs m := by
  induction h generalizing y with
  | refl =>
    cases ht.symm.trans he
    rw [hx] at hy
    cases hy
  | @tail a e hta hae ih =>
    obtain ⟨z, hz, hiff⟩ := hae.eval_eq_ok he
    cases hf : z.isFinite with
    | true =>
      obtain ⟨n, htn, hna, hn⟩ := ih hz hf
      exact ⟨n, htn, hna.tail hae, hn⟩
    | false => exact ⟨e, hta.tail hae, .refl, (hiff hf).mp hy⟩

end Expr

/-- Every part of an expression without a finite value leaves the expression without a value,
exactly when the expression has none or no node absorbs an operand. -/
theorem failed_part_iff (m : AngleMode) (s : String) (ts : List Token) (e : Expr)
    (hts : Token.ofString s = .ok ts) (he : Expr.ofTokens ts = .ok e) :
    (∀ (t : Expr) (x : Float),
      t.Within e → t.eval m = .ok x → x.isFinite = false → value? m s = none) ↔
      value? m s = none ∨ ∀ n : Expr, n.Within e → ¬n.Absorbs m := by
  constructor
  · intro hall
    rw [or_iff_not_imp_left]
    intro hv n hne hn
    obtain ⟨a, x, hae, ha, hx⟩ := hn.exists_operand
    exact hv (hall a x (.head hae hne) ha hx)
  · rintro (hv | hnone) t x hte ht hx
    · exact hv
    · by_contra hv
      obtain ⟨v, hv⟩ := Option.ne_none_iff_exists'.mp hv
      obtain ⟨y, hy, hfinite, _⟩ := (value?_eq_some_iff hts he).mp hv
      obtain ⟨n, _, hne, hn⟩ := hte.exists_absorbs ht hx hy hfinite
      exact hnone n hne hn

/-- A sum with an infinity has no value. -/
theorem failed_part_sum :
    (∀ (t : Expr) (x : Float), t.Within (.binary .add (.lit 1) (.binary .div (.lit 1) (.lit 0))) →
        t.eval .degrees = .ok x → x.isFinite = false → value? .degrees "1+1/0" = none) ∧
      value? .degrees "1+1/0" = none := by
  have hts : Token.ofString "1+1/0" = .ok [.num 1, .plus, .num 1, .slash, .num 0] := by
    decide +kernel
  have he : Expr.ofTokens [.num 1, .plus, .num 1, .slash, .num 0] =
      .ok (.binary .add (.lit 1) (.binary .div (.lit 1) (.lit 0))) := by decide +kernel
  have hv : value? .degrees "1+1/0" = none := by decide +kernel
  exact ⟨(failed_part_iff .degrees _ _ _ hts he).mpr (.inl hv), hv⟩

/-- The quotient of one by an infinity is zero, and the division by zero inside it goes
unnoticed. -/
theorem failed_part_unnoticed :
    Token.ofString "1/(1/0)" =
        .ok [.num 1, .slash, .openParen, .num 1, .slash, .num 0, .closeParen] ∧
      Expr.ofTokens [.num 1, .slash, .openParen, .num 1, .slash, .num 0, .closeParen] =
        .ok (.binary .div (.lit 1) (.binary .div (.lit 1) (.lit 0))) ∧
      (Expr.binary .div (.lit 1) (.lit 0)).Within
        (.binary .div (.lit 1) (.binary .div (.lit 1) (.lit 0))) ∧
      (Expr.binary .div (.lit 1) (.lit 0)).eval .degrees = .ok infinity ∧
      infinity.isFinite = false ∧
      value? .degrees "1/(1/0)" = some 0 := by
  refine ⟨by decide +kernel, by decide +kernel, .single (.right _ _ _), rfl, isFinite_infinity, ?_⟩
  decide +kernel

end SciCalc
