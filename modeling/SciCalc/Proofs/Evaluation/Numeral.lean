import SciCalc.Proofs.Evaluation.Stages
import SciCalc.Proofs.Grammar.Rendering

namespace SciCalc

open Float.Model Float.Model.UnpackedFloat Number

namespace Number

def withSign : Sign → Float → Float
  | .positive, x => x
  | .negative, x => -x

def signedTokens : Sign → Float → List Token
  | .positive, x => [.num x]
  | .negative, x => [.minus, .num x]

def signedTree : Sign → Float → Expr
  | .positive, x => .lit x
  | .negative, x => .neg (.lit x)

theorem withSign_abs {x : Float} (hx : x.isFinite = true) : withSign (sign x) x.abs = x := by
  cases hs : sign x with
  | positive => exact abs_eq_self hx hs
  | negative => exact neg_abs_eq_self hx hs

theorem isFinite_withSign (s : Sign) {x : Float} (hx : x.isFinite = true) :
    (withSign s x).isFinite = true := by
  cases s with
  | positive => exact hx
  | negative => rwa [withSign, isFinite_neg]

theorem ofTokens_signedTokens (s : Sign) (x : Float) :
    Expr.ofTokens (signedTokens s x) = .ok (signedTree s x) := by
  have h1 : 1 ≤ maxHeight := by decide
  have h2 : 2 ≤ maxHeight := by decide
  cases s with
  | positive =>
    exact Grammar.ofTokens_of_derives_of_le (Grammar.derives_signs 0 x).sum_of_signed (by decide) h1
  | negative =>
    exact Grammar.ofTokens_of_derives_of_le (Grammar.derives_signs 1 x).sum_of_signed (by decide) h2

theorem eval_signedTree (m : AngleMode) (s : Sign) (x : Float) :
    (signedTree s x).eval m = .ok (withSign s x) := by
  cases s <;> rfl

theorem ofChars_signed (s : Sign) {d : Decimal} (hd : d.exp ≤ 0) :
    Token.ofChars (signed s d.chars) = .ok (signedTokens s d.toFloat) := by
  have hnum : Token.Lexes d.chars [.num d.toFloat] [] :=
    fun p => ⟨_, Token.readOn_chars hd p EndsNumeral.nil⟩
  cases s with
  | positive => exact hnum.ofChars_eq
  | negative =>
    have hm : Token.Lexes ['-'] [.minus] (d.chars ++ []) := Token.lexes_sign rfl rfl
    exact (hm.append hnum).ofChars_eq

theorem ofString_signed (s : Sign) {d : Decimal} (hd : d.exp ≤ 0) :
    Token.ofString (String.ofList (signed s d.chars)) = .ok (signedTokens s d.toFloat) := by
  rw [Token.ofString, String.toList_ofList, ofChars_signed s hd]

/-- The value of a numeral is its number, to ten decimals. -/
theorem evaluate_numeral (m : AngleMode) (s : Sign) {d : Decimal} (hd : d.exp ≤ 0)
    (hf : d.toFloat.isFinite = true) :
    evaluate m (String.ofList (signed s d.chars)) = .ok (toTenDecimals (withSign s d.toFloat)) := by
  rw [evaluate_of_ofTokens m (ofString_signed s hd) (ofTokens_signedTokens s _), eval_signedTree]
  exact if_pos (isFinite_withSign s hf)

theorem value?_numeral (m : AngleMode) (s : Sign) {d : Decimal} (hd : d.exp ≤ 0)
    (hf : d.toFloat.isFinite = true) :
    value? m (String.ofList (signed s d.chars)) = some (toTenDecimals (withSign s d.toFloat)) := by
  unfold value?
  rw [evaluate_numeral m s hd hf]
  rfl

theorem exists_plain_text {x : Float} (hx : x.isFinite = true) :
    ∃ (s : Sign) (n : Numeral), n.Plain ∧ (text x).toList = signed s n.chars := by
  obtain ⟨d, _, hc, _⟩ := exists_chars_eq hx
  obtain ⟨n, hn, hnc⟩ := d.exists_numeral
  exact ⟨sign x, n, hn, by rw [text, String.toList_ofList, hc, hnc]⟩

/-- The text of a finite number is read as a tree, and the value of the tree is the number. -/
theorem exists_tree_text {x : Float} (hx : x.isFinite = true) :
    ∃ ts e, Token.ofString (text x) = .ok ts ∧ Expr.ofTokens ts = .ok e ∧
    ∀ m, e.eval m = .ok x := by
  obtain ⟨d, hd, hc, hv⟩ := exists_chars_eq hx
  refine ⟨_, _, ?_, ofTokens_signedTokens (sign x) d.toFloat, fun m => ?_⟩
  · rw [text, hc, ofString_signed (sign x) hd]
  · rw [eval_signedTree, hv, withSign_abs hx]

/-- The value of the text of a finite number is that number, to ten decimals. -/
theorem evaluate_text (m : AngleMode) {x : Float} (hx : x.isFinite = true) :
    evaluate m (text x) = .ok (toTenDecimals x) := by
  obtain ⟨ts, e, hts, he, hval⟩ := exists_tree_text hx
  rw [evaluate_of_ofTokens m hts he, hval m]
  exact if_pos hx

/-- Finite numbers with the same text are the same. -/
theorem text_inj {x y : Float} (hx : x.isFinite = true) (hy : y.isFinite = true)
    (h : text x = text y) :
    x = y := by
  obtain ⟨ts, e, hts, he, hval⟩ := exists_tree_text hx
  obtain ⟨us, e', hus, he', hval'⟩ := exists_tree_text hy
  rw [h, hus] at hts
  cases hts
  rw [he'] at he
  cases he
  exact Except.ok.inj ((hval .degrees).symm.trans (hval' .degrees))

theorem parts_of_beq_zero {x : Float} (h : (x == 0) = true) : ∃ s, parts x = .zero s := by
  change (parts x).beq (.zero .positive) = true at h
  cases hp : parts x with
  | zero s => exact ⟨s, rfl⟩
  | notANumber =>
    rw [hp] at h
    cases h
  | infinity s =>
    rw [hp] at h
    cases s <;> cases h
  | finite s m e hm =>
    rw [hp] at h
    cases s <;> cases h

/-- The sign of a zero is all that the text of a result leaves out. -/
theorem resultText_eq_text {x : Float} (h : parts x ≠ .zero .negative) : resultText x = text x := by
  unfold resultText
  split
  · rename_i hz
    obtain ⟨s, hs⟩ := parts_of_beq_zero hz
    cases s with
    | negative => exact absurd hs h
    | positive =>
      unfold text chars
      rw [hs]
      rfl
  · rfl

theorem resultText_eq (x : Float) : resultText x = text (if x == 0 then 0 else x) := by
  unfold resultText
  split
  · decide +kernel
  · rfl

theorem toTenDecimals_of_beq_zero {x : Float} (h : (x == 0) = true) : toTenDecimals x = 0 := by
  obtain ⟨s, hs⟩ := parts_of_beq_zero h
  rw [← ofParts_parts x, hs]
  cases s <;> decide +kernel

/-- The text of a finite result is a plain numeral, with a minus sign in front or without one. It is
read as a tree whose value is the number, a zero as the positive one, and evaluated to the number to
ten decimals. -/
theorem resultText_read_back (x : Float) (hx : x.isFinite = true) :
    (∃ (s : Sign) (n : Numeral), n.Plain ∧ (resultText x).toList = signed s n.chars) ∧
    ∀ m : AngleMode,
      (∃ ts e, Token.ofString (resultText x) = .ok ts ∧ Expr.ofTokens ts = .ok e ∧
        e.eval m = .ok (if x == 0 then 0 else x)) ∧
      value? m (resultText x) = some (toTenDecimals x) := by
  have hfinite : (if x == 0 then 0 else x).isFinite = true := by
    split
    · decide +kernel
    · exact hx
  have hround : toTenDecimals (if x == 0 then 0 else x) = toTenDecimals x := by
    split
    · rename_i hz
      rw [toTenDecimals_of_beq_zero hz]
      decide +kernel
    · rfl
  rw [resultText_eq]
  refine ⟨exists_plain_text hfinite, fun m => ⟨?_, ?_⟩⟩
  · obtain ⟨ts, e, hts, he, hval⟩ := exists_tree_text hfinite
    exact ⟨ts, e, hts, he, hval m⟩
  · unfold value?
    rw [evaluate_text m hfinite, hround]
    rfl

/-- Minus a half is shown with a sign and a fraction. -/
theorem resultText_read_back_minus_half :
    resultText (-0.5) = "-0.5" ∧ (∃ ts e, Token.ofString (resultText (-0.5)) = .ok ts ∧
      Expr.ofTokens ts = .ok e ∧ e.eval .degrees = .ok (-0.5)) := by
  have h := (resultText_read_back (-0.5) (by decide +kernel)).2 .degrees
  have hne : ((-0.5 : Float) == 0) = false := by decide +kernel
  rw [hne, if_neg Bool.false_ne_true] at h
  exact ⟨by decide +kernel, h.1⟩

end Number

end SciCalc
