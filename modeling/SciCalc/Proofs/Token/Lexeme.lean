import SciCalc.Proofs.Token.Numeral

namespace SciCalc.Token

/-- The signs of a single character. -/
def signs : List (Char × Token) :=
  [('(', .openParen), (')', .closeParen), ('+', .plus), ('-', .minus), ('−', .minus), ('*', .star),
    ('×', .star), ('/', .slash), ('÷', .slash), ('^', .caret), ('!', .bang), ('π', .pi),
    ('√', .word "sqrt")]

def lowered (letters : List Char) : String := String.ofList (letters.map Char.toLower)

/-- The texts of one token. -/
inductive Lexeme : List Char → Token → Prop
  | sign {c : Char} {t : Token} (h : (c, t) ∈ signs) : Lexeme [c] t
  | doubleStar : Lexeme ['*', '*'] .caret
  | pi {letters : List Char} (ha : ∀ c ∈ letters, c.isAlpha = true) (hl : lowered letters = "pi") :
      Lexeme letters .pi
  | euler {letters : List Char} (ha : ∀ c ∈ letters, c.isAlpha = true)
      (hl : lowered letters = "e") :
      Lexeme letters .euler
  | word {letters : List Char} (hne : letters ≠ []) (ha : ∀ c ∈ letters, c.isAlpha = true)
      (hpi : lowered letters ≠ "pi") (he : lowered letters ≠ "e") :
      Lexeme letters (.word (lowered letters))
  | number {n : Numeral} (h : n.WellFormed) : Lexeme n.chars (.num n.toFloat)

/-- The longest lexeme in front of `cs` is `l`, and its token is `t`. -/
structure Longest (l : List Char) (t : Token) (cs : List Char) : Prop where
  lexeme : Lexeme l t
  front : l <+: cs
  length_le : ∀ l' t', Lexeme l' t' → l' <+: cs → l'.length ≤ l.length

/-- The longest lexeme in front of `cs` is a number with the mantissa `m`, and a point stands right
behind the mantissa. -/
def SecondPoint (m cs : List Char) : Prop :=
  ∃ n : Numeral, n.WellFormed ∧ Longest n.chars (.num n.toFloat) cs ∧ n.mantissa = m ∧
  m ++ ['.'] <+: cs

/-- What is wrong with a text, at `position`, that does not start with a blank. -/
inductive Unreadable (position : ℕ) : List Char → Fault → Prop
  | char {c : Char} {cs : List Char} (hb : Text.isBlank c = false) (hp : c ≠ '.')
      (h : ∀ l t, Lexeme l t → ¬l <+: c :: cs) :
      Unreadable position (c :: cs) (.unexpectedChar c position)
  | point {cs : List Char} (h : ∀ l t, Lexeme l t → ¬l <+: '.' :: cs) :
      Unreadable position ('.' :: cs) (.invalidNumber (String.ofList ('.' :: cs.take 1)))
  | secondPoint {m cs : List Char} (h : SecondPoint m cs) :
      Unreadable position cs (.invalidNumber (String.ofList (m ++ ['.'])))

theorem digit_bounds {c : Char} (h : c.isDigit = true) : 48 ≤ c.toNat ∧ c.toNat ≤ 57 := by
  simp only [Char.isDigit, Bool.and_eq_true, decide_eq_true_eq] at h
  exact ⟨h.1, h.2⟩

theorem letter_bounds {c : Char} (h : c.isAlpha = true) :
    65 ≤ c.toNat ∧ c.toNat ≤ 90 ∨ 97 ≤ c.toNat ∧ c.toNat ≤ 122 := by
  simp only [Char.isAlpha, Char.isUpper, Char.isLower, Bool.or_eq_true, Bool.and_eq_true,
    decide_eq_true_eq] at h
  exact h

theorem isAlpha_of_isDigit {c : Char} (h : c.isDigit = true) : c.isAlpha = false := by
  by_contra hn
  have hd := digit_bounds h
  have ha := letter_bounds (Bool.of_not_eq_false hn)
  omega

theorem isBlank_of_isDigit {c : Char} (h : c.isDigit = true) : Text.isBlank c = false := by
  have hb := digit_bounds h
  simp [Text.isBlank]
  omega

theorem isBlank_of_isAlpha {c : Char} (h : c.isAlpha = true) : Text.isBlank c = false := by
  have hb := letter_bounds h
  simp [Text.isBlank]
  omega

theorem class_of_sign {c : Char} {t : Token} (h : (c, t) ∈ signs) :
    c.isAlpha = false ∧ c.isDigit = false ∧ c ≠ '.' ∧ Text.isBlank c = false := by
  have hall : ∀ p ∈ signs, p.1.isAlpha = false ∧ p.1.isDigit = false ∧ p.1 ≠ '.' ∧
      Text.isBlank p.1 = false := by decide
  exact hall _ h

theorem sign_unique {c : Char} {t t' : Token} (h : (c, t) ∈ signs) (h' : (c, t') ∈ signs) :
    t = t' := by
  have hall : ∀ p ∈ signs, ∀ q ∈ signs, p.1 = q.1 → p.2 = q.2 := by decide
  exact hall _ h _ h' rfl

theorem ofSign?_eq_some {c : Char} {cs : List Char} {t : Token} {k : ℕ}
    (h : ofSign? c cs = some (t, k)) :
    (c = '*' ∧ cs.head? = some '*' ∧ t = .caret ∧ k = 1) ∨
      ((c, t) ∈ signs ∧ ¬(c = '*' ∧ cs.head? = some '*') ∧ k = 0) := by
  unfold ofSign? at h
  split at h
  case h_13 =>
    split at h <;> cases h
    · exact .inl ⟨rfl, ‹_›, rfl, rfl⟩
    · exact .inr ⟨by decide, by simpa using ‹_›, rfl⟩
  case h_14 => cases h
  all_goals
    cases h
    exact .inr ⟨by decide, by simp, rfl⟩

theorem ofSign?_eq_none {c : Char} {cs : List Char} (h : ofSign? c cs = none) (t : Token) :
    (c, t) ∉ signs := by
  unfold ofSign? at h
  split at h
  case h_13 => split at h <;> cases h
  case h_14 => simp_all [signs]
  all_goals cases h

section Head

variable {c : Char} {cs : List Char} {t : Token}

theorem Lexeme.of_letters {letters : List Char} (hne : letters ≠ [])
    (ha : ∀ c ∈ letters, c.isAlpha = true) : Lexeme letters (ofWord (lowered letters)) := by
  unfold ofWord
  split_ifs with hpi he
  · exact .pi ha hpi
  · exact .euler ha he
  · exact .word hne ha hpi he

theorem Lexeme.cases_head (h : Lexeme (c :: cs) t) :
    (cs = [] ∧ (c, t) ∈ signs) ∨ (c = '*' ∧ cs = ['*'] ∧ t = .caret) ∨
      ((∀ d ∈ c :: cs, d.isAlpha = true) ∧ t = ofWord (lowered (c :: cs))) ∨
      ((c.isDigit = true ∨ c = '.') ∧
        ∃ n : Numeral, n.WellFormed ∧ n.chars = c :: cs ∧ t = .num n.toFloat) := by
  generalize hl : c :: cs = l at h
  cases h with
  | sign h =>
    cases hl
    exact .inl ⟨rfl, h⟩
  | doubleStar =>
    cases hl
    exact .inr (.inl ⟨rfl, rfl, rfl⟩)
  | pi ha hw =>
    refine .inr (.inr (.inl ⟨ha, ?_⟩))
    rw [hw]
    rfl
  | euler ha hw =>
    refine .inr (.inr (.inl ⟨ha, ?_⟩))
    rw [hw]
    rfl
  | word _ ha hpi he =>
    refine .inr (.inr (.inl ⟨ha, ?_⟩))
    rw [ofWord, if_neg hpi, if_neg he]
  | @number n hn =>
    obtain ⟨d, ds, hd, hc⟩ := hn.exists_chars_eq_cons
    obtain ⟨rfl, _⟩ := List.cons.inj (hl.trans hd)
    exact .inr (.inr (.inr ⟨hc, n, hn, rfl, rfl⟩))

theorem Lexeme.ne_nil {l : List Char} (h : Lexeme l t) : l ≠ [] := by
  intro hl
  cases h with
  | number hn =>
    obtain ⟨d, ds, hd, _⟩ := hn.exists_chars_eq_cons
    rw [hd] at hl
    cases hl
  | word hne => exact hne hl
  | pi _ hw =>
    subst hl
    exact absurd hw (by decide)
  | euler _ hw =>
    subst hl
    exact absurd hw (by decide)
  | _ => cases hl

theorem Lexeme.of_sign {t' : Token} (h : Lexeme (c :: cs) t) (hc : (c, t') ∈ signs) :
    (cs = [] ∧ t = t') ∨ (c = '*' ∧ cs = ['*'] ∧ t = .caret) := by
  obtain ⟨ha, hd, hp, _⟩ := class_of_sign hc
  obtain ⟨hcs, hs⟩ | h | ⟨hl, _⟩ | ⟨hn, _⟩ := h.cases_head
  · exact .inl ⟨hcs, sign_unique hs hc⟩
  · exact .inr h
  · exact absurd (hl c List.mem_cons_self) (by simp [ha])
  · exact absurd hn (by simp [hd, hp])

theorem Lexeme.of_isAlpha (h : Lexeme (c :: cs) t) (hc : c.isAlpha = true) :
    (∀ d ∈ c :: cs, d.isAlpha = true) ∧ t = ofWord (lowered (c :: cs)) := by
  obtain ⟨_, hs⟩ | ⟨hs, _⟩ | h | ⟨hd | hp, _⟩ := h.cases_head
  · exact absurd hc (by simp [(class_of_sign hs).1])
  · exact absurd hc (by simp [hs])
  · exact h
  · exact absurd hc (by simp [isAlpha_of_isDigit hd])
  · exact absurd hc (by simp [hp])

theorem Lexeme.of_numeral (h : Lexeme (c :: cs) t) (hc : c.isDigit = true ∨ c = '.') :
    ∃ n : Numeral, n.WellFormed ∧ n.chars = c :: cs ∧ t = .num n.toFloat := by
  obtain ⟨_, hs⟩ | ⟨hs, _⟩ | ⟨ha, _⟩ | ⟨_, h⟩ := h.cases_head
  · obtain ⟨_, hd, hp, _⟩ := class_of_sign hs
    exact absurd hc (by simp [hd, hp])
  · exact absurd hc (by simp [hs])
  · have hca := ha c List.mem_cons_self
    obtain hd | hp := hc
    · exact absurd hca (by simp [isAlpha_of_isDigit hd])
    · exact absurd hca (by simp [hp])
  · exact h

/-- A lexeme is one token only. -/
theorem Lexeme.unique {l : List Char} {t' : Token} (h : Lexeme l t) (h' : Lexeme l t') :
    t = t' := by
  obtain ⟨c, cs, rfl⟩ := List.exists_cons_of_ne_nil h.ne_nil
  obtain ⟨hcs, hs⟩ | ⟨rfl, hcs, ht⟩ | ⟨ha, ht⟩ | ⟨hc, _⟩ := h.cases_head
  · obtain ⟨_, ht⟩ | ⟨_, hcs', _⟩ := h'.of_sign hs
    · exact ht.symm
    · exact absurd (hcs.symm.trans hcs') (by simp)
  · obtain ⟨hcs', _⟩ | ⟨_, _, ht'⟩ := h'.of_sign (show ('*', Token.star) ∈ signs by decide)
    · exact absurd (hcs.symm.trans hcs') (by simp)
    · rw [ht, ht']
  · rw [ht, (h'.of_isAlpha (ha c List.mem_cons_self)).2]
  · obtain ⟨n, hn, hl, ht⟩ := h.of_numeral hc
    obtain ⟨n', hn', hl', ht'⟩ := h'.of_numeral hc
    rw [ht, ht', hn.chars_inj hn' (hl.trans hl'.symm)]

/-- No character of a lexeme is blank. -/
theorem Lexeme.isBlank_eq_false {l : List Char} (h : Lexeme l t) :
    ∀ c ∈ l, Text.isBlank c = false := by
  intro c hc
  cases h with
  | sign hs =>
    rw [List.mem_singleton.mp hc]
    exact (class_of_sign hs).2.2.2
  | doubleStar =>
    obtain rfl : c = '*' := by simpa using hc
    rfl
  | pi ha _ => exact isBlank_of_isAlpha (ha c hc)
  | euler ha _ => exact isBlank_of_isAlpha (ha c hc)
  | word _ ha _ _ => exact isBlank_of_isAlpha (ha c hc)
  | number hn =>
    obtain hd | hp := hn.isDigit_or_mem c hc
    · exact isBlank_of_isDigit hd
    · simp only [List.mem_cons, List.not_mem_nil, or_false] at hp
      obtain rfl | rfl | rfl | rfl | rfl := hp
      all_goals rfl

end Head

namespace Longest

variable {c : Char} {l l' cs : List Char} {t t' : Token}

theorem unique (h : Longest l t cs) (h' : Longest l' t' cs) : l = l' ∧ t = t' := by
  have hle := h'.length_le l t h.lexeme h.front
  have hge := h.length_le l' t' h'.lexeme h'.front
  obtain rfl := (List.prefix_of_prefix_length_le h.front h'.front hle).eq_of_length (by omega)
  exact ⟨rfl, h.lexeme.unique h'.lexeme⟩

theorem sign (hc : (c, t) ∈ signs) (hs : ¬(c = '*' ∧ cs.head? = some '*')) :
    Longest [c] t (c :: cs) where
  lexeme := .sign hc
  front := ⟨cs, rfl⟩
  length_le := by
    intro l u hl hp
    obtain ⟨d, ds, rfl⟩ := List.exists_cons_of_ne_nil hl.ne_nil
    obtain ⟨rfl, htail⟩ := List.cons_prefix_cons.mp hp
    obtain ⟨rfl, _⟩ | ⟨rfl, rfl, _⟩ := hl.of_sign hc
    · exact Nat.le_refl 1
    · obtain ⟨rest, rfl⟩ := htail
      exact absurd ⟨rfl, rfl⟩ hs

theorem doubleStar (cs : List Char) : Longest ['*', '*'] .caret ('*' :: '*' :: cs) where
  lexeme := .doubleStar
  front := ⟨cs, rfl⟩
  length_le := by
    intro l u hl hp
    obtain ⟨d, ds, rfl⟩ := List.exists_cons_of_ne_nil hl.ne_nil
    obtain ⟨rfl, _⟩ := List.cons_prefix_cons.mp hp
    obtain ⟨rfl, _⟩ | ⟨_, rfl, _⟩ := hl.of_sign (show ('*', Token.star) ∈ signs by decide)
    · simp
    · exact Nat.le_refl 2

theorem letters (hc : c.isAlpha = true) :
    Longest (c :: cs.takeWhile Char.isAlpha) (ofWord (lowered (c :: cs.takeWhile Char.isAlpha)))
      (c :: cs) where
  lexeme := by
    apply Lexeme.of_letters (List.cons_ne_nil _ _)
    intro d hd
    obtain rfl | hd := List.mem_cons.mp hd
    · exact hc
    · exact List.mem_takeWhile_imp hd
  front := List.cons_prefix_cons.mpr ⟨rfl, List.takeWhile_prefix _⟩
  length_le := by
    intro l u hl hp
    obtain ⟨d, ds, rfl⟩ := List.exists_cons_of_ne_nil hl.ne_nil
    obtain ⟨rfl, ⟨rest, rfl⟩⟩ := List.cons_prefix_cons.mp hp
    have hds : ∀ e ∈ ds, e.isAlpha = true :=
      fun e he => (hl.of_isAlpha hc).1 e (List.mem_cons_of_mem d he)
    rw [List.takeWhile_append_of_pos hds]
    simp

theorem number (hc : c.isDigit = true ∨ c = '.') (hd : (Numeral.scan (c :: cs)).hasDigits = true) :
    Longest (Numeral.scan (c :: cs)).chars (.num (Numeral.scan (c :: cs)).toFloat) (c :: cs) where
  lexeme := .number (Numeral.wellFormed_scan hd)
  front := Numeral.chars_scan _
  length_le := by
    intro l u hl hp
    obtain ⟨d, ds, rfl⟩ := List.exists_cons_of_ne_nil hl.ne_nil
    obtain ⟨rfl, _⟩ := List.cons_prefix_cons.mp hp
    obtain ⟨n, hn, hnl, _⟩ := hl.of_numeral hc
    obtain ⟨rest, hrest⟩ := hp
    rw [← hnl] at hrest ⊢
    rw [← hrest]
    exact (hn.prefix_scan rest).2.length_le

end Longest

/-- Without a digit no number starts. -/
theorem not_lexeme_of_not_hasDigits {c : Char} {cs : List Char} (hc : c.isDigit = true ∨ c = '.')
    (hd : (Numeral.scan (c :: cs)).hasDigits = false) {l : List Char} {t : Token}
    (hl : Lexeme l t) :
    ¬l <+: c :: cs := by
  intro hp
  obtain ⟨d, ds, rfl⟩ := List.exists_cons_of_ne_nil hl.ne_nil
  obtain ⟨rfl, _⟩ := List.cons_prefix_cons.mp hp
  obtain ⟨n, hn, hnl, _⟩ := hl.of_numeral hc
  obtain ⟨rest, hrest⟩ := hp
  have hscan := (hn.prefix_scan rest).1
  rw [hnl, hrest, hd] at hscan
  cases hscan

theorem mantissa_of_not_hasDigits {c : Char} {cs : List Char} (hc : c.isDigit = true ∨ c = '.')
    (hd : (Numeral.scan (c :: cs)).hasDigits = false) :
    c = '.' ∧ (Numeral.scan (c :: cs)).mantissa = ['.'] := by
  have hnot := Numeral.hasDigits_iff.not.mp (Bool.eq_false_iff.mp hd)
  push Not at hnot
  obtain ⟨hw, hf⟩ := hnot
  have hdigit : ¬c.isDigit = true := by
    intro hc
    simp [Numeral.scan, hc] at hw
  obtain rfl := hc.resolve_left hdigit
  have hfraction : (Numeral.scan ('.' :: cs)).fraction = some (cs.takeWhile Char.isDigit) := rfl
  rw [hfraction, Option.getD_some] at hf
  rw [Numeral.mantissa, hw, hfraction, hf]
  exact ⟨rfl, rfl⟩

theorem SecondPoint.head {m cs : List Char} {c : Char} (h : SecondPoint m (c :: cs)) :
    c.isDigit = true ∨ c = '.' := by
  obtain ⟨n, hn, hl, _⟩ := h
  obtain ⟨d, ds, hd, hc⟩ := hn.exists_chars_eq_cons
  have hf := hl.front
  rw [hd] at hf
  exact (List.cons_prefix_cons.mp hf).1 ▸ hc

/-- The mantissa that a second point spoils is the one that is scanned. -/
theorem secondPoint_iff {m cs : List Char} {c : Char} (hc : c.isDigit = true ∨ c = '.')
    (hd : (Numeral.scan (c :: cs)).hasDigits = true) :
    SecondPoint m (c :: cs) ↔ m = (Numeral.scan (c :: cs)).mantissa ∧
      ((c :: cs).drop m.length).head? = some '.' := by
  have hn := Numeral.wellFormed_scan hd
  have hl := Longest.number hc hd
  have hpoint : ∀ m, m <+: c :: cs →
      (m ++ ['.'] <+: c :: cs ↔ ((c :: cs).drop m.length).head? = some '.') := by
    rintro m ⟨rest, hrest⟩
    rw [← hrest, List.prefix_append_right_inj, List.drop_left]
    cases rest with
    | nil => simp
    | cons d ds => simp [eq_comm]
  have hmantissa := Numeral.mantissa_scan (c :: cs)
  constructor
  · rintro ⟨n', hn', hl', rfl, hp⟩
    obtain rfl := hn'.chars_inj hn (hl'.unique hl).1
    exact ⟨rfl, (hpoint _ hmantissa).mp hp⟩
  · rintro ⟨rfl, hp⟩
    exact ⟨_, hn, hl, rfl, (hpoint _ hmantissa).mpr hp⟩

theorem SecondPoint.front {m cs : List Char} (h : SecondPoint m cs) : m ++ ['.'] <+: cs := by
  obtain ⟨_, _, _, _, hp⟩ := h
  exact hp

section Outcome

variable {p : ℕ} {c : Char} {cs : List Char} {t : Token} {k : ℕ} {f : Fault}

private theorem longest_of_numeral (hc : c.isDigit = true ∨ c = '.')
    (h : numeral (c :: cs) = .ok (t, k)) :
    Longest (c :: cs.take k) t (c :: cs) ∧ k ≤ cs.length ∧ ∀ m, ¬SecondPoint m (c :: cs) := by
  rw [numeral_eq] at h
  split at h
  · rename_i hd
    simp only [Bool.and_eq_true, decide_eq_true_eq] at hd
    cases h
    have hl := Longest.number hc hd.1
    obtain ⟨d, ds, hds, _⟩ := (Numeral.wellFormed_scan hd.1).exists_chars_eq_cons
    have htake := List.prefix_iff_eq_take.mp hl.front
    have hlen := hl.front.length_le
    rw [hds, List.length_cons, List.take_succ_cons] at htake
    rw [hds, List.length_cons, List.length_cons] at hlen
    rw [hds, List.length_cons, Nat.add_sub_cancel, ← htake, ← hds]
    refine ⟨hl, Nat.le_of_succ_le_succ hlen, fun m hm => ?_⟩
    obtain ⟨rfl, hm⟩ := (secondPoint_iff hc hd.1).mp hm
    exact hd.2 hm
  · cases h

/-- The token found is that of the longest lexeme, which ends where the token's characters do. -/
theorem longest_of_lexeme (h : lexeme p c cs = .ok (t, k)) :
    Longest (c :: cs.take k) t (c :: cs) ∧ k ≤ cs.length ∧ ∀ m, ¬SecondPoint m (c :: cs) := by
  unfold lexeme at h
  split at h
  · rename_i found hfound
    cases h
    obtain ⟨rfl, hhead, rfl, rfl⟩ | ⟨hs, hstar, rfl⟩ := ofSign?_eq_some hfound
    · cases cs with
      | nil => cases hhead
      | cons d ds =>
        cases hhead
        exact ⟨Longest.doubleStar ds, by simp, fun m hm => absurd hm.head (by decide)⟩
    · obtain ⟨_, hd, hp, _⟩ := class_of_sign hs
      exact ⟨Longest.sign hs hstar, by simp, fun m hm => absurd hm.head (by simp [hd, hp])⟩
  · split_ifs at h with ha hc
    · cases h
      have hletters := List.takeWhile_prefix Char.isAlpha (l := cs)
      rw [← List.prefix_iff_eq_take.mp hletters]
      refine ⟨Longest.letters ha, hletters.length_le, fun m hm => ?_⟩
      obtain hd | rfl := hm.head
      · exact absurd ha (by simp [isAlpha_of_isDigit hd])
      · exact absurd ha (by decide)
    · exact longest_of_numeral (by simpa using hc) h

private theorem unreadable_of_numeral (hc : c.isDigit = true ∨ c = '.')
    (h : numeral (c :: cs) = .error f) : Unreadable p (c :: cs) f := by
  rw [numeral_eq] at h
  split at h
  · cases h
  · rename_i hd
    cases h
    cases hdigits : (Numeral.scan (c :: cs)).hasDigits with
    | false =>
      obtain ⟨rfl, hm⟩ := mantissa_of_not_hasDigits hc hdigits
      rw [hm]
      exact .point fun l t => not_lexeme_of_not_hasDigits hc hdigits
    | true =>
      have hpoint : ((c :: cs).drop (Numeral.scan (c :: cs)).mantissa.length).head? = some '.' := by
        simpa [hdigits] using hd
      have hsecond := (secondPoint_iff hc hdigits).mpr ⟨rfl, hpoint⟩
      have htake := List.prefix_iff_eq_take.mp hsecond.front
      rw [List.length_append, List.length_singleton] at htake
      rw [← htake]
      exact .secondPoint hsecond

theorem unreadable_of_lexeme (hb : Text.isBlank c = false) (h : lexeme p c cs = .error f) :
    Unreadable p (c :: cs) f := by
  unfold lexeme at h
  split at h
  · cases h
  · rename_i hs
    split_ifs at h with ha hc
    · exact unreadable_of_numeral (by simpa using hc) h
    · have hc : ¬(c.isDigit = true ∨ c = '.') := by simpa using hc
      cases h
      refine .char hb (fun hp => hc (.inr hp)) fun l t hl hp => ?_
      obtain ⟨d, ds, rfl⟩ := List.exists_cons_of_ne_nil hl.ne_nil
      obtain ⟨rfl, _⟩ := List.cons_prefix_cons.mp hp
      obtain ⟨_, hmem⟩ | ⟨rfl, _⟩ | ⟨hletters, _⟩ | ⟨hn, _⟩ := hl.cases_head
      · exact ofSign?_eq_none hs t hmem
      · exact ofSign?_eq_none hs .star (by decide)
      · exact ha (hletters d List.mem_cons_self)
      · exact hc hn

theorem Unreadable.exists_eq_cons {ds : List Char} (h : Unreadable p ds f) :
    ∃ c cs, ds = c :: cs ∧ Text.isBlank c = false := by
  cases h with
  | @char c cs hb => exact ⟨c, cs, rfl, hb⟩
  | @point cs => exact ⟨'.', cs, rfl, rfl⟩
  | secondPoint hm =>
    obtain ⟨n, hn, hl, _⟩ := hm
    obtain ⟨c, cs, hc, _⟩ := hn.exists_chars_eq_cons
    obtain ⟨rest, hrest⟩ := hl.front
    refine ⟨c, cs ++ rest, by rw [← hrest, hc, List.cons_append], ?_⟩
    exact hl.lexeme.isBlank_eq_false c (by simp [hc])

/-- Where something is wrong, no lexeme is taken. -/
theorem Unreadable.secondPoint_of_longest {l ds : List Char} (h : Unreadable p ds f)
    (hl : Longest l t ds) : ∃ m, SecondPoint m ds := by
  cases h with
  | char _ _ hn => exact absurd hl.front (hn l t hl.lexeme)
  | point hn => exact absurd hl.front (hn l t hl.lexeme)
  | secondPoint hm => exact ⟨_, hm⟩

theorem Unreadable.unique {f' : Fault} {ds : List Char} (h : Unreadable p ds f)
    (h' : Unreadable p ds f') : f = f' := by
  cases h with
  | char _ hp hn =>
    cases h' with
    | char => rfl
    | point => exact absurd rfl hp
    | secondPoint hm =>
      obtain ⟨n, _, hl, _⟩ := hm
      exact absurd hl.front (hn _ _ hl.lexeme)
  | point hn =>
    cases h' with
    | char _ hp => exact absurd rfl hp
    | point => rfl
    | secondPoint hm =>
      obtain ⟨n, _, hl, _⟩ := hm
      exact absurd hl.front (hn _ _ hl.lexeme)
  | secondPoint hm =>
    obtain ⟨n, hn, hl, rfl, _⟩ := hm
    cases h' with
    | char _ _ hnone => exact absurd hl.front (hnone _ _ hl.lexeme)
    | point hnone => exact absurd hl.front (hnone _ _ hl.lexeme)
    | secondPoint hm' =>
      obtain ⟨n', hn', hl', rfl, _⟩ := hm'
      rw [hn.chars_inj hn' (hl.unique hl').1]

/-- The longest lexeme is found, if no second point spoils it. -/
theorem lexeme_of_longest {l rest : List Char} (p : ℕ) (hl : Longest l t (l ++ rest))
    (hp : ∀ m, ¬SecondPoint m (l ++ rest)) :
    ∃ c ds, l = c :: ds ∧ Text.isBlank c = false ∧
    lexeme p c (ds ++ rest) = .ok (t, ds.length) := by
  obtain ⟨c, ds, rfl⟩ := List.exists_cons_of_ne_nil hl.lexeme.ne_nil
  have hb := hl.lexeme.isBlank_eq_false c List.mem_cons_self
  refine ⟨c, ds, rfl, hb, ?_⟩
  rw [List.cons_append] at hl hp
  cases h : lexeme p c (ds ++ rest) with
  | error f =>
    obtain ⟨m, hm⟩ := (unreadable_of_lexeme hb h).secondPoint_of_longest hl
    exact absurd hm (hp m)
  | ok found =>
    obtain ⟨u, k⟩ := found
    obtain ⟨hfound, hk, _⟩ := longest_of_lexeme h
    obtain ⟨hcs, rfl⟩ := hl.unique hfound
    have hlen := congrArg List.length hcs
    simp only [List.length_cons, List.length_take] at hlen
    have hkd : k = ds.length := by omega
    rw [hkd]

theorem lexeme_of_unreadable {ds : List Char} (h : Unreadable p ds f) :
    ∃ c cs, ds = c :: cs ∧ Text.isBlank c = false ∧ lexeme p c cs = .error f := by
  obtain ⟨c, cs, rfl, hb⟩ := h.exists_eq_cons
  refine ⟨c, cs, rfl, hb, ?_⟩
  cases hl : lexeme p c cs with
  | error f' => rw [h.unique (unreadable_of_lexeme hb hl)]
  | ok found =>
    obtain ⟨hfound, _, hp⟩ := longest_of_lexeme hl
    obtain ⟨m, hm⟩ := h.secondPoint_of_longest hfound
    exact absurd hm (hp m)

theorem ofSign?_of_isDigit (h : c.isDigit = true) (cs : List Char) : ofSign? c cs = none := by
  cases hs : ofSign? c cs with
  | none => rfl
  | some found =>
    obtain ⟨rfl, _⟩ | ⟨hmem, _⟩ := ofSign?_eq_some hs
    · cases h
    · rw [(class_of_sign hmem).2.1] at h
      cases h

end Outcome

end SciCalc.Token
