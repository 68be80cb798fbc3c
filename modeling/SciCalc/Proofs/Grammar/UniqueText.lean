import SciCalc.Proofs.Evaluation.Numeral

namespace SciCalc

open Float.Model Float.Model.UnpackedFloat Number

/-- Two texts that go on as far as `p` holds have the same first part and the same rest. -/
theorem append_inj_of_all {p : Char → Bool} {l l' r r' : List Char} (hl : ∀ c ∈ l, p c = true)
    (hl' : ∀ c ∈ l', p c = true) (hr : ∀ c, r.head? = some c → p c = false)
    (hr' : ∀ c, r'.head? = some c → p c = false) (h : l ++ r = l' ++ r') : l = l' ∧ r = r' := by
  obtain ⟨ht, hd⟩ := Numeral.takeWhile_all hl hr
  obtain ⟨ht', hd'⟩ := Numeral.takeWhile_all hl' hr'
  rw [h, ht'] at ht
  rw [h, hd'] at hd
  exact ⟨ht.symm, hd.symm⟩

theorem endsPart_of_isDigit {c : Char} (h : c.isDigit = true) : endsPart c = false := by
  rw [← Bool.not_eq_true]
  intro hends
  obtain rfl | rfl | rfl := endsPart_cases hends
  all_goals cases h

namespace Number

variable {x y : Float}

theorem abs_abs (x : Float) : x.abs.abs = x.abs := by
  apply parts_injective
  rw [parts_abs, parts_abs]
  cases parts x <;> rfl

/-- A number is written as its absolute value, behind its sign. -/
theorem chars_eq_signed (x : Float) : chars x = signed (sign x) (chars x.abs) := by
  have habs := parts_abs x
  unfold sign
  cases hp : parts x <;> simp [chars, hp, habs, UnpackedFloat.abs, abs_abs, signed]

/-- An infinity without a sign is written as a word, and so is what is no number. -/
theorem chars_abs_cases (x : Float) :
    (x.isFinite = true ∧ ∃ d : Decimal, chars x.abs = d.chars) ∨
      (x.abs = nan ∧ chars x.abs = ['N', 'a', 'N']) ∨
      (x.abs = infinity ∧ chars x.abs = ['i', 'n', 'f']) := by
  cases hx : x.isFinite with
  | true =>
    obtain ⟨d, _, hd, _⟩ := exists_chars_eq (x := x.abs) (by rwa [isFinite_abs])
    rw [sign_abs] at hd
    exact .inl ⟨rfl, d, hd⟩
  | false =>
    have habs := parts_abs x
    rw [isFinite_eq] at hx
    cases hp : parts x with
    | notANumber =>
      have hnan : x.abs = nan := by
        apply parts_injective
        rw [habs, hp]
        rfl
      exact .inr (.inl ⟨hnan, by rw [hnan]; rfl⟩)
    | infinity s =>
      have hinf : x.abs = infinity := by
        apply parts_injective
        rw [habs, hp]
        rfl
      exact .inr (.inr ⟨hinf, by rw [hinf]; rfl⟩)
    | zero s => simp [hp, UnpackedFloat.isFinite] at hx
    | finite s m e h => simp [hp, UnpackedFloat.isFinite] at hx

theorem chars_abs_eq_cons (x : Float) :
    ∃ c cs, chars x.abs = c :: cs ∧ (c.isDigit = true ∨ c = 'N' ∨ c = 'i') := by
  obtain ⟨_, d, hd⟩ | ⟨_, h⟩ | ⟨_, h⟩ := chars_abs_cases x
  · obtain ⟨c, cs, hc, hdigit⟩ := d.exists_chars_eq_cons
    exact ⟨c, cs, hd.trans hc, .inl hdigit⟩
  · exact ⟨_, _, h, by simp⟩
  · exact ⟨_, _, h, by simp⟩

theorem chars_abs_inj (h : chars x.abs = chars y.abs) : x.abs = y.abs := by
  have hword : ∀ d : Decimal, ∀ cs, d.chars ≠ 'N' :: cs ∧ d.chars ≠ 'i' :: cs := by
    intro d cs
    obtain ⟨c, ds, hc, hdigit⟩ := d.exists_chars_eq_cons
    constructor
    all_goals
      intro he
      obtain ⟨rfl, _⟩ := List.cons.inj (hc.symm.trans he)
      cases hdigit
  obtain ⟨hx, d, hd⟩ | ⟨hx, hn⟩ | ⟨hx, hi⟩ := chars_abs_cases x
  · obtain ⟨hy, _⟩ | ⟨hy, hn⟩ | ⟨hy, hi⟩ := chars_abs_cases y
    · exact text_inj (by rwa [isFinite_abs]) (by rwa [isFinite_abs]) (by rw [text, text, h])
    · exact absurd (hd.symm.trans (h.trans hn)) (hword d _).1
    · exact absurd (hd.symm.trans (h.trans hi)) (hword d _).2
  · obtain ⟨_, d, hd⟩ | ⟨hy, _⟩ | ⟨_, hi⟩ := chars_abs_cases y
    · exact absurd (hd.symm.trans (h.symm.trans hn)) (hword d _).1
    · rw [hx, hy]
    · exact absurd (hn.symm.trans (h.trans hi)) (by simp)
  · obtain ⟨_, d, hd⟩ | ⟨_, hn⟩ | ⟨hy, _⟩ := chars_abs_cases y
    · exact absurd (hd.symm.trans (h.symm.trans hi)) (hword d _).2
    · exact absurd (hi.symm.trans (h.trans hn)) (by simp)
    · rw [hx, hy]

theorem eq_of_sign_abs (hs : sign x = sign y) (ha : x.abs = y.abs) : x = y := by
  have hparts : (parts x).abs = (parts y).abs := by rw [← parts_abs, ha, parts_abs]
  unfold sign at hs
  apply parts_injective
  cases hx : parts x <;> cases hy : parts y <;> simp_all [UnpackedFloat.abs]

/-- A text with a sign is not one without. -/
theorem chars_ne_minus (hs : sign x = .positive) (cs : List Char) : chars x ≠ '-' :: cs := by
  intro h
  obtain ⟨c, ds, hc, hhead⟩ := chars_abs_eq_cons x
  rw [chars_eq_signed, hs] at h
  obtain ⟨rfl, _⟩ := List.cons.inj (hc.symm.trans h)
  exact absurd hhead (by decide)

theorem chars_inj (h : chars x = chars y) : x = y := by
  have hx := chars_eq_signed x
  have hy := chars_eq_signed y
  cases hs : sign x with
  | positive =>
    cases ht : sign y with
    | positive =>
      rw [hs] at hx
      rw [ht] at hy
      exact eq_of_sign_abs (hs.trans ht.symm) (chars_abs_inj (hx.symm.trans (h.trans hy)))
    | negative =>
      rw [ht] at hy
      exact absurd (h.trans hy) (chars_ne_minus hs _)
  | negative =>
    rw [hs] at hx
    cases ht : sign y with
    | positive => exact absurd (h.symm.trans hx) (chars_ne_minus ht _)
    | negative =>
      rw [ht] at hy
      have htail := (List.cons.inj (hx.symm.trans (h.trans hy))).2
      exact eq_of_sign_abs (hs.trans ht.symm) (chars_abs_inj htail)

theorem endsPart_of_mem_chars {c : Char} (h : c ∈ chars x) : endsPart c = false := by
  have habs : ∀ c ∈ chars x.abs, endsPart c = false := by
    obtain ⟨_, d, hd⟩ | ⟨_, hn⟩ | ⟨_, hi⟩ := chars_abs_cases x
    · obtain ⟨n, hn, hchars⟩ := d.exists_numeral
      rw [hd, ← hchars]
      intro c hc
      obtain hdigit | hmem := hn.isDigit_or_mem c hc
      · exact endsPart_of_isDigit hdigit
      · have hall : ∀ c ∈ ['.', 'e', 'E', '+', '-'], endsPart c = false := by simp [endsPart]
        exact hall c hmem
    · rw [hn]
      simp [endsPart]
    · rw [hi]
      simp [endsPart]
  rw [chars_eq_signed] at h
  cases hs : sign x with
  | positive =>
    rw [hs] at h
    exact habs c h
  | negative =>
    rw [hs] at h
    obtain rfl | h := List.mem_cons.mp h
    · rfl
    · exact habs c h

end Number

/-- A part of the text of a tree ends here. -/
def EndsPart (r : List Char) : Prop := ∀ c, r.head? = some c → endsPart c = true

theorem endsPart_cons {c : Char} (hc : endsPart c = true) (r : List Char) : EndsPart (c :: r) := by
  intro d hd
  cases hd
  exact hc

/-- In front of what ends it, the text of a number is that of no other. -/
theorem Number.chars_append_inj {x y : Float} {r r' : List Char} (hr : EndsPart r)
    (hr' : EndsPart r') (h : chars x ++ r = chars y ++ r') : x = y ∧ r = r' := by
  have hp : ∀ z, ∀ c ∈ chars z, (!endsPart c) = true := by
    intro z c hc
    rw [endsPart_of_mem_chars hc]
    rfl
  have hends : ∀ r, EndsPart r → ∀ c, r.head? = some c → (!endsPart c) = false := by
    intro r hr c hc
    rw [hr c hc]
    rfl
  obtain ⟨hchars, hrest⟩ := append_inj_of_all (hp x) (hp y) (hends r hr) (hends r' hr') h
  exact ⟨chars_inj hchars, hrest⟩

namespace Func

variable {f g : Func} {r r' : List Char}

theorem isAlpha_of_mem_name {c : Char} (h : c ∈ f.name.toList) : c.isAlpha = true := by
  have hall : f.name.toList.all Char.isAlpha = true := by cases f <;> rfl
  exact List.all_eq_true.mp hall c h

theorem name_append_inj (h : f.name.toList ++ '(' :: r = g.name.toList ++ '(' :: r') :
    f = g ∧ r = r' := by
  have hends : ∀ r : List Char, ∀ c, ('(' :: r).head? = some c → c.isAlpha = false := by
    intro r c hc
    cases hc
    rfl
  obtain ⟨hname, hrest⟩ :=
    append_inj_of_all (fun _ => isAlpha_of_mem_name) (fun _ => isAlpha_of_mem_name)
    (hends r) (hends r') h
  exact ⟨name_inj (String.toList_inj.mp hname), (List.cons.inj hrest).2⟩

end Func

/-- An operator is written as one character. -/
theorem BinaryOp.symbol_append_inj {op op' : BinaryOp} {r r' : List Char}
    (h : op.symbol.toList ++ r = op'.symbol.toList ++ r') : op = op' ∧ r = r' := by
  have hone : ∀ op : BinaryOp, ∃ c, op.symbol.toList = [c] := by
    intro op
    cases op <;> exact ⟨_, rfl⟩
  obtain ⟨c, hc⟩ := hone op
  obtain ⟨c', hc'⟩ := hone op'
  rw [hc, hc'] at h
  obtain ⟨rfl, hrest⟩ := List.cons.inj h
  have hsymbol : op.symbol.toList = op'.symbol.toList := hc.trans hc'.symm
  refine ⟨?_, hrest⟩
  cases op <;> cases op' <;> first | rfl | cases hsymbol

/-- How a text starts. -/
inductive Opening where
  | literal | name | bracket
  deriving DecidableEq

def opening (c : Char) : Opening :=
  if c.isDigit || c = 'N' || c = 'i' || c = '-' then .literal
  else if c = '(' then .bracket
  else .name

namespace Expr

variable {a b : Expr} {x : Float} {r r' : List Char}

def opening : Expr → Opening
  | lit _ => .literal
  | call _ _ => .name
  | neg _ | factorial _ | binary _ _ _ => .bracket

theorem text_lit (x : Float) : (lit x).text.toList = Number.chars x := String.toList_ofList

/-- The first character of a text tells literals, calls and the nodes in brackets apart. -/
theorem exists_opening (e : Expr) :
    ∃ c cs, e.text.toList = c :: cs ∧ SciCalc.opening c = e.opening := by
  cases e with
  | lit x =>
    rw [text_lit, Number.chars_eq_signed]
    obtain ⟨c, cs, hc, hhead⟩ := Number.chars_abs_eq_cons x
    cases sign x with
    | positive =>
      refine ⟨c, cs, hc, ?_⟩
      obtain hdigit | rfl | rfl := hhead <;> simp [SciCalc.opening, opening, *]
    | negative => exact ⟨'-', _, rfl, rfl⟩
  | call f a =>
    have hf : ∃ c cs, f.name.toList = c :: cs ∧ SciCalc.opening c = .name := by
      cases f <;> exact ⟨_, _, rfl, rfl⟩
    obtain ⟨c, cs, hc, hopen⟩ := hf
    exact ⟨c, cs ++ '(' :: (a.text.toList ++ [')']), by simp [text, hc], hopen⟩
  | neg a => exact ⟨'(', '-' :: (a.text.toList ++ [')']), by simp [text], rfl⟩
  | factorial a => exact ⟨'(', a.text.toList ++ ['!', ')'], by simp [text], rfl⟩
  | binary op a b =>
    exact ⟨'(', a.text.toList ++ ' ' :: (op.symbol.toList ++ ' ' :: (b.text.toList ++ [')'])),
      by simp [text], rfl⟩

theorem opening_eq (h : a.text.toList ++ r = b.text.toList ++ r') : a.opening = b.opening := by
  obtain ⟨c, cs, ha, hc⟩ := a.exists_opening
  obtain ⟨d, ds, hb, hd⟩ := b.exists_opening
  rw [ha, hb] at h
  obtain ⟨rfl, _⟩ := List.cons.inj h
  exact hc.symm.trans hd

theorem lit_of_opening (h : a.opening = .literal) : ∃ x, a = lit x := by
  cases a with
  | lit x => exact ⟨x, rfl⟩
  | _ => cases h

theorem lit_append_inj (hr : EndsPart r) (hr' : EndsPart r')
    (h : Number.chars x ++ r = b.text.toList ++ r') : lit x = b ∧ r = r' := by
  rw [← text_lit] at h
  obtain ⟨y, rfl⟩ := lit_of_opening (opening_eq h).symm
  rw [text_lit, text_lit] at h
  obtain ⟨rfl, hrest⟩ := Number.chars_append_inj hr hr' h
  exact ⟨rfl, hrest⟩

/-- A minus sign inside brackets that close behind its operand is no literal's. -/
theorem minus_append_ne {c : Char} (hc : endsPart c = true) (hne : c ≠ ')') :
    '-' :: (a.text.toList ++ ')' :: r) ≠ b.text.toList ++ c :: r' := by
  intro h
  have hlit : b.opening = .literal := by
    obtain ⟨d, ds, hb, hd⟩ := b.exists_opening
    rw [hb] at h
    obtain ⟨rfl, _⟩ := List.cons.inj h
    exact hd.symm
  obtain ⟨y, rfl⟩ := lit_of_opening hlit
  have hy := Number.chars_eq_signed y
  rw [text_lit] at h
  cases hs : sign y with
  | positive =>
    obtain ⟨d, ds, hd, _⟩ := Number.chars_abs_eq_cons y
    rw [hs] at hy
    have hcons : Number.chars y = d :: ds := hy.trans hd
    rw [hcons] at h
    obtain ⟨rfl, _⟩ := List.cons.inj h
    exact Number.chars_ne_minus hs ds hcons
  | negative =>
    rw [hy, hs] at h
    have htail := (List.cons.inj h).2
    have hrest := (lit_append_inj (endsPart_cons hc _) (endsPart_cons rfl _) htail.symm).2
    exact hne (List.cons.inj hrest).1

theorem text_neg_append (a : Expr) (r : List Char) :
    (neg a).text.toList ++ r = '(' :: '-' :: (a.text.toList ++ ')' :: r) := by
  simp [text]

theorem text_factorial_append (a : Expr) (r : List Char) :
    (factorial a).text.toList ++ r = '(' :: (a.text.toList ++ '!' :: ')' :: r) := by
  simp [text]

theorem text_binary_append (op : BinaryOp) (a b : Expr) (r : List Char) :
    (binary op a b).text.toList ++ r =
      '(' :: (a.text.toList ++ ' ' ::
        (op.symbol.toList ++ ' ' :: (b.text.toList ++ ')' :: r))) := by
  simp [text]

theorem text_call_append (f : Func) (a : Expr) (r : List Char) :
    (call f a).text.toList ++ r = f.name.toList ++ '(' :: (a.text.toList ++ ')' :: r) := by
  simp [text]

/-- In front of what ends it, the text of a tree is that of no other. -/
theorem text_append_inj (hr : EndsPart r) (hr' : EndsPart r')
    (h : a.text.toList ++ r = b.text.toList ++ r') : a = b ∧ r = r' := by
  have hopen := opening_eq h
  have hclose : ∀ r, EndsPart (')' :: r) := endsPart_cons rfl
  have hbang : ∀ r, EndsPart ('!' :: r) := endsPart_cons rfl
  have hblank : ∀ r, EndsPart (' ' :: r) := endsPart_cons rfl
  -- What stands in front of `r` tells nothing about `r'`, so the rests vary with the subtrees.
  induction a generalizing b r r' with
  | lit x =>
    rw [text_lit] at h
    exact lit_append_inj hr hr' h
  | call f a ih =>
    cases b with
    | call g b =>
      rw [text_call_append, text_call_append] at h
      obtain ⟨rfl, harg⟩ := Func.name_append_inj h
      obtain ⟨rfl, hrest⟩ := ih (hclose r) (hclose r') harg (opening_eq harg)
      exact ⟨rfl, (List.cons.inj hrest).2⟩
    | _ => cases hopen
  | neg a ih =>
    rw [text_neg_append] at h
    cases b with
    | neg b =>
      rw [text_neg_append] at h
      have harg := (List.cons.inj (List.cons.inj h).2).2
      obtain ⟨rfl, hrest⟩ := ih (hclose r) (hclose r') harg (opening_eq harg)
      exact ⟨rfl, (List.cons.inj hrest).2⟩
    | factorial b =>
      rw [text_factorial_append] at h
      exact absurd (List.cons.inj h).2 (minus_append_ne rfl (by decide))
    | binary op b b' =>
      rw [text_binary_append] at h
      exact absurd (List.cons.inj h).2 (minus_append_ne rfl (by decide))
    | _ => cases hopen
  | factorial a ih =>
    rw [text_factorial_append] at h
    cases b with
    | neg b =>
      rw [text_neg_append] at h
      exact absurd (List.cons.inj h).2.symm (minus_append_ne rfl (by decide))
    | factorial b =>
      rw [text_factorial_append] at h
      have harg := (List.cons.inj h).2
      obtain ⟨rfl, hrest⟩ := ih (hbang _) (hbang _) harg (opening_eq harg)
      exact ⟨rfl, (List.cons.inj (List.cons.inj hrest).2).2⟩
    | binary op b b' =>
      rw [text_binary_append] at h
      have harg := (List.cons.inj h).2
      cases (ih (hbang _) (hblank _) harg (opening_eq harg)).2
    | _ => cases hopen
  | binary op a a' iha iha' =>
    rw [text_binary_append] at h
    cases b with
    | neg b =>
      rw [text_neg_append] at h
      exact absurd (List.cons.inj h).2.symm (minus_append_ne rfl (by decide))
    | factorial b =>
      rw [text_factorial_append] at h
      have harg := (List.cons.inj h).2
      cases (iha (hblank _) (hbang _) harg (opening_eq harg)).2
    | binary op' b b' =>
      rw [text_binary_append] at h
      have harg := (List.cons.inj h).2
      obtain ⟨rfl, hsymbol⟩ := iha (hblank _) (hblank _) harg (opening_eq harg)
      obtain ⟨rfl, hblanked⟩ := BinaryOp.symbol_append_inj (List.cons.inj hsymbol).2
      have harg' := (List.cons.inj hblanked).2
      obtain ⟨rfl, hrest⟩ := iha' (hclose r) (hclose r') harg' (opening_eq harg')
      exact ⟨rfl, (List.cons.inj hrest).2⟩
    | _ => cases hopen

/-- Two trees have the same text only when they are the same: the same nodes and, at the leaves, the
same bits, all that are no number taken as one. -/
theorem text_eq_text_iff (a b : Expr) : a.text = b.text ↔ a = b := by
  constructor
  · intro h
    have hends : EndsPart [] := fun c hc => by cases hc
    have happend : a.text.toList ++ [] = b.text.toList ++ [] := by rw [h]
    exact (text_append_inj hends hends happend).1
  · intro h
    rw [h]

/-- A negation stands in brackets, and a negative number does not. -/
example : (neg (lit 1)).text = "(-1)" ∧ (lit (-1)).text = "-1" ∧ (lit (-0)).text = "-0" := by
  decide +kernel

end Expr

end SciCalc
