import SciCalc.Proofs.Token.Blank
import SciCalc.Proofs.Token.Seam

namespace SciCalc

/-- The plain sign in the place of a typographic one. -/
def plainSign (c : Char) : Char := if c = '−' then '-' else if c = '÷' then '/' else c

/-- The same fault in the text with the plain signs. -/
def Fault.plain : Fault → Fault
  | .invalidNumber text => .invalidNumber (text.map plainSign)
  | f => f

theorem plainSign_cases (c : Char) : c = '−' ∨ c = '÷' ∨ plainSign c = c := by
  unfold plainSign
  split_ifs with hm hd
  · exact .inl hm
  · exact .inr (.inl hd)
  · exact .inr (.inr rfl)

theorem plainSign_eq_self {c : Char} (hm : c ≠ '−') (hd : c ≠ '÷') : plainSign c = c := by
  rw [plainSign, if_neg hm, if_neg hd]

theorem ofList_map (cs : List Char) :
    String.ofList (cs.map plainSign) = (String.ofList cs).map plainSign := by
  rw [← String.toList_inj, String.toList_map, String.toList_ofList, String.toList_ofList]

/-- A class of characters without signs. -/
def SignFree (p : Char → Bool) : Prop :=
  p '−' = false ∧ p '÷' = false ∧ p '-' = false ∧ p '/' = false

theorem signFree_isDigit : SignFree Char.isDigit := ⟨rfl, rfl, rfl, rfl⟩

theorem signFree_isAlpha : SignFree Char.isAlpha := ⟨rfl, rfl, rfl, rfl⟩

theorem signFree_isBlank : SignFree Text.isBlank := ⟨rfl, rfl, rfl, rfl⟩

namespace SignFree

variable {p : Char → Bool}

theorem apply_plainSign (hp : SignFree p) (c : Char) : p (plainSign c) = p c := by
  obtain ⟨hminus, hdivision, hplain, hslash⟩ := hp
  obtain rfl | rfl | hc := plainSign_cases c
  · exact hplain.trans hminus.symm
  · exact hslash.trans hdivision.symm
  · rw [hc]

theorem plainSign_eq_self (hp : SignFree p) {c : Char} (hc : p c = true) : plainSign c = c := by
  obtain ⟨hminus, hdivision, _, _⟩ := hp
  obtain rfl | rfl | h := plainSign_cases c
  · exact absurd hc (by simp [hminus])
  · exact absurd hc (by simp [hdivision])
  · exact h

theorem takeWhile_map (hp : SignFree p) (cs : List Char) :
    (cs.map plainSign).takeWhile p = cs.takeWhile p := by
  rw [List.takeWhile_map, funext hp.apply_plainSign (f := p ∘ plainSign)]
  conv => rhs; rw [← List.map_id (cs.takeWhile p)]
  exact List.map_congr_left fun c hc => hp.plainSign_eq_self (List.mem_takeWhile_imp hc)

theorem dropWhile_map (hp : SignFree p) (cs : List Char) :
    (cs.map plainSign).dropWhile p = (cs.dropWhile p).map plainSign := by
  rw [List.dropWhile_map, funext hp.apply_plainSign (f := p ∘ plainSign)]

end SignFree

theorem plainSign_eq_iff {c : Char} (hc : SignFree (· == c)) (d : Char) :
    plainSign d = c ↔ d = c := by
  simpa using hc.apply_plainSign d

theorem head?_map_plainSign {c : Char} (hc : SignFree (· == c)) (cs : List Char) :
    (cs.map plainSign).head? = some c ↔ cs.head? = some c := by
  cases cs with
  | nil => simp
  | cons d ds => simp [plainSign_eq_iff hc]

/-- What would be an exponent with the plain minus sign. -/
def TypographicExponent (cs : List Char) : Prop :=
  ∃ marker d rest, (marker = 'e' ∨ marker = 'E') ∧ d.isDigit = true ∧
  cs = marker :: '−' :: d :: rest

theorem TypographicExponent.exists_exponent {cs : List Char} (h : TypographicExponent cs) :
    ∃ x : Exponent, x.WellFormed ∧ x.chars <+: cs.map plainSign := by
  obtain ⟨marker, d, rest, hm, hd, rfl⟩ := h
  have hmarker : plainSign marker = marker := by obtain rfl | rfl := hm <;> rfl
  refine ⟨⟨marker, ['-'], [d]⟩, ⟨hm, by simp, by simp, by simpa using hd⟩, rest.map plainSign, ?_⟩
  rw [List.map_cons, List.map_cons, List.map_cons, hmarker, signFree_isDigit.plainSign_eq_self hd]
  rfl

theorem Exponent.scan?_map_plainSign {cs : List Char} (h : ¬TypographicExponent cs) :
    scan? (cs.map plainSign) = scan? cs := by
  cases cs with
  | nil => rfl
  | cons marker cs =>
    by_cases hm : marker = 'e' ∨ marker = 'E'
    · have hmarker : plainSign marker = marker := by obtain rfl | rfl := hm <;> rfl
      cases cs with
      | nil => simp [scan?, hmarker]
      | cons c cs =>
        obtain rfl | rfl | hc := plainSign_cases c
        -- the plain sign is part of an exponent only if a digit follows it
        · have hdigits : cs.takeWhile Char.isDigit = [] := by
            cases cs with
            | nil => rfl
            | cons d ds =>
              have hd : ¬d.isDigit = true := fun hd => h ⟨marker, d, ds, hm, hd, rfl⟩
              exact List.takeWhile_cons_of_neg hd
          have hplain : (cs.map plainSign).takeWhile Char.isDigit = [] := by
            rw [signFree_isDigit.takeWhile_map, hdigits]
          simp [scan?, plainSign, hplain]
        · simp [scan?, plainSign]
        · have hcons : (c :: cs).map plainSign = c :: cs.map plainSign := by rw [List.map_cons, hc]
          have hdigits : ∀ k, ((c :: cs.map plainSign).drop k).takeWhile Char.isDigit =
              ((c :: cs).drop k).takeWhile Char.isDigit := by
            intro k
            rw [← hcons, ← List.map_drop, signFree_isDigit.takeWhile_map]
          rw [List.map_cons, hmarker, hcons]
          simp only [scan?, hdigits, List.take_succ_cons, List.take_zero]
          rfl
    · have hmarker : ¬(plainSign marker = 'e' ∨ plainSign marker = 'E') := by
        rwa [plainSign_eq_iff ⟨rfl, rfl, rfl, rfl⟩, plainSign_eq_iff ⟨rfl, rfl, rfl, rfl⟩]
      simp [scan?, hm, hmarker]

namespace Numeral

theorem whole_scan_map_plainSign (cs : List Char) :
    (scan (cs.map plainSign)).whole = (scan cs).whole :=
  signFree_isDigit.takeWhile_map cs

theorem fraction_scan_map_plainSign (cs : List Char) :
    (scan (cs.map plainSign)).fraction = (scan cs).fraction := by
  change scanFraction ((cs.map plainSign).dropWhile Char.isDigit) =
    scanFraction (cs.dropWhile Char.isDigit)
  rw [signFree_isDigit.dropWhile_map]
  cases cs.dropWhile Char.isDigit with
  | nil => rfl
  | cons c ds =>
    by_cases hc : c = '.'
    · subst hc
      exact congrArg some (signFree_isDigit.takeWhile_map ds)
    · have hplain : plainSign c ≠ '.' := by rwa [ne_eq, plainSign_eq_iff ⟨rfl, rfl, rfl, rfl⟩]
      simp [scanFraction, hc, hplain]

theorem mantissa_scan_map_plainSign (cs : List Char) :
    (scan (cs.map plainSign)).mantissa = (scan cs).mantissa := by
  rw [mantissa, mantissa, whole_scan_map_plainSign, fraction_scan_map_plainSign]

theorem hasDigits_scan_map_plainSign (cs : List Char) :
    (scan (cs.map plainSign)).hasDigits = (scan cs).hasDigits := by
  rw [hasDigits, hasDigits, whole_scan_map_plainSign, fraction_scan_map_plainSign]

theorem scan_map_plainSign {cs : List Char}
    (h : ¬TypographicExponent (cs.drop (scan cs).mantissa.length)) :
    scan (cs.map plainSign) = scan cs := by
  have hexponent : (scan (cs.map plainSign)).exponent = (scan cs).exponent := by
    change Exponent.scan? ((cs.map plainSign).drop (scan (cs.map plainSign)).mantissa.length) =
      Exponent.scan? (cs.drop (scan cs).mantissa.length)
    rw [mantissa_scan_map_plainSign, ← List.map_drop, Exponent.scan?_map_plainSign h]
  have hwhole := whole_scan_map_plainSign cs
  have hfraction := fraction_scan_map_plainSign cs
  cases hs : scan (cs.map plainSign)
  cases ht : scan cs
  simp_all

/-- No numeral has a typographic sign in it. -/
theorem WellFormed.map_plainSign {n : Numeral} (h : n.WellFormed) :
    n.chars.map plainSign = n.chars := by
  conv => rhs; rw [← List.map_id n.chars]
  refine List.map_congr_left fun c hc => ?_
  obtain hdigit | hmem := h.isDigit_or_mem c hc
  · exact signFree_isDigit.plainSign_eq_self hdigit
  · apply plainSign_eq_self
    all_goals
      rintro rfl
      simp at hmem

end Numeral

namespace Token

variable {c : Char} {l cs rest : List Char} {t : Token} {ts : List Token}

/-- A number without an exponent is in front, and what follows it would be one with the plain minus
sign. -/
def CutNumber (cs : List Char) : Prop :=
  ∃ n : Numeral, ∃ rest, n.WellFormed ∧ n.exponent = none ∧ TypographicExponent rest ∧
  cs = n.chars ++ rest

/-- A number is cut at some place that is come to in reading the text. -/
def CutsNumber (cs : List Char) : Prop := ∃ ts rest, Reads cs ts rest ∧ CutNumber rest

theorem CutNumber.cutsNumber (h : CutNumber cs) : CutsNumber cs := ⟨[], cs, .done cs, h⟩

theorem CutsNumber.blank (hb : Text.isBlank c = true) (h : CutsNumber cs) :
    CutsNumber (c :: cs) := by
  obtain ⟨ts, rest, hr, h⟩ := h
  exact ⟨ts, rest, .blank hb hr, h⟩

theorem CutsNumber.lexeme (hl : Longest l t (l ++ cs)) (hp : ∀ m, ¬SecondPoint m (l ++ cs))
    (h : CutsNumber cs) :
    CutsNumber (l ++ cs) := by
  obtain ⟨ts, rest, hr, h⟩ := h
  exact ⟨t :: ts, rest, .lexeme hl hp hr, h⟩

theorem ofSign?_map_plainSign (c : Char) (cs : List Char) :
    ofSign? (plainSign c) (cs.map plainSign) = ofSign? c cs := by
  obtain rfl | rfl | hc := plainSign_cases c
  · rfl
  · rfl
  · rw [hc]
    unfold ofSign?
    simp only [head?_map_plainSign (c := '*') ⟨rfl, rfl, rfl, rfl⟩]

theorem cutNumber_of_scan (hd : (Numeral.scan cs).hasDigits = true)
    (hx : TypographicExponent (cs.drop (Numeral.scan cs).mantissa.length)) : CutNumber cs := by
  have hscan := Numeral.wellFormed_scan hd
  have hn : ({ Numeral.scan cs with exponent := none } : Numeral).WellFormed :=
    ⟨hscan.whole, hscan.fraction, hscan.ne_nil, by simp⟩
  refine ⟨_, _, hn, rfl, hx, ?_⟩
  rw [Numeral.chars, List.append_nil]
  exact (List.prefix_iff_eq_append.mp (Numeral.mantissa_scan cs)).symm

theorem numeral_map_plainSign (h : ¬CutNumber cs) :
    numeral (cs.map plainSign) = (numeral cs).mapError Fault.plain := by
  rw [numeral_eq, numeral_eq, Numeral.hasDigits_scan_map_plainSign,
    Numeral.mantissa_scan_map_plainSign, ← List.map_drop, ← List.map_take]
  simp only [ne_eq, head?_map_plainSign (c := '.') ⟨rfl, rfl, rfl, rfl⟩]
  split
  · rename_i hn
    simp only [Bool.and_eq_true] at hn
    rw [Numeral.scan_map_plainSign fun hx => h (cutNumber_of_scan hn.1 hx)]
    rfl
  · rw [ofList_map]
    rfl

/-- At a place where no number is cut, a text is read as with the plain signs. -/
theorem lexeme_map_plainSign (p : ℕ) (h : ¬CutNumber (c :: cs)) :
    lexeme p (plainSign c) (cs.map plainSign) = (lexeme p c cs).mapError Fault.plain := by
  unfold lexeme
  rw [ofSign?_map_plainSign]
  cases hs : ofSign? c cs with
  | some found => rfl
  | none =>
    have hc : plainSign c = c := by
      obtain rfl | rfl | hc := plainSign_cases c
      · cases hs
      · cases hs
      · exact hc
    have hnumeral := numeral_map_plainSign h
    rw [List.map_cons, hc] at hnumeral
    simp only [hc, signFree_isAlpha.takeWhile_map, hnumeral]
    split_ifs <;> rfl

/-- If no number is cut, a text has the tokens of the text with the plain signs, or the same
fault. -/
theorem readOn_map_plainSign (p : ℕ) (h : ¬CutsNumber cs) :
    readOn [] p (cs.map plainSign) = (readOn [] p cs).mapError Fault.plain := by
  induction hn : cs.length using Nat.strongRecOn generalizing p cs with
  | ind n ih =>
    cases cs with
    | nil => simp [readOn, Except.mapError]
    | cons c cs =>
      rw [List.map_cons]
      cases hb : Text.isBlank c with
      | true =>
        rw [readOn_blank p c cs hb, readOn_blank p _ _ (by rwa [signFree_isBlank.apply_plainSign])]
        exact ih cs.length (by simp at hn; omega) (p + 1) (fun hcut => h (hcut.blank hb)) rfl
      | false =>
        rw [readOn_lexeme p c cs hb,
          readOn_lexeme p _ _ (by rwa [signFree_isBlank.apply_plainSign]),
          lexeme_map_plainSign p (fun hcut => h hcut.cutsNumber)]
        cases hl : lexeme p c cs with
        | error f => rfl
        | ok found =>
          obtain ⟨t, k⟩ := found
          obtain ⟨hlong, _, hp⟩ := longest_of_lexeme hl
          have hsplit : c :: cs = (c :: cs.take k) ++ cs.drop k := by simp
          -- a number that is cut behind the lexeme is cut in the whole text
          have hrest : ¬CutsNumber (cs.drop k) := by
            intro hcut
            rw [hsplit] at hlong hp h
            exact h (hcut.lexeme hlong hp)
          have hread := ih (cs.drop k).length (by simp at hn ⊢; omega) (p + 1 + k) hrest rfl
          simp only [bind, Except.bind, Except.mapError, ← List.map_drop, hread]
          cases readOn [] (p + 1 + k) (cs.drop k) <;> rfl

theorem Longest.map_plainSign (hl : Longest l t (l ++ cs)) (hp : ∀ m, ¬SecondPoint m (l ++ cs))
    (h : ¬CutNumber (l ++ cs)) :
    Longest (l.map plainSign) t (l.map plainSign ++ cs.map plainSign) ∧
      ∀ m, ¬SecondPoint m (l.map plainSign ++ cs.map plainSign) := by
  obtain ⟨c, ds, rfl, _, hlex⟩ := lexeme_of_longest 0 hl hp
  rw [List.cons_append] at h
  have hplain := lexeme_map_plainSign 0 h
  rw [hlex] at hplain
  obtain ⟨hlong, _, hsecond⟩ := longest_of_lexeme hplain
  have htake : ((ds ++ cs).map plainSign).take ds.length = ds.map plainSign := by
    rw [List.map_append, List.take_left' (List.length_map _)]
  rw [htake] at hlong
  rw [← List.map_append]
  exact ⟨hlong, hsecond⟩

theorem Reads.map_plainSign (h : Reads cs ts rest) (hcut : ¬CutsNumber cs) :
    Reads (cs.map plainSign) ts (rest.map plainSign) := by
  induction h with
  | done rest => exact .done _
  | blank hb _ ih =>
    refine .blank (by rwa [signFree_isBlank.apply_plainSign]) (ih fun h => ?_)
    exact hcut (h.blank hb)
  | lexeme hl hp _ ih =>
    obtain ⟨hlong, hsecond⟩ := hl.map_plainSign hp fun h => hcut h.cutsNumber
    rw [List.map_append]
    refine .lexeme hlong hsecond (ih fun h => ?_)
    exact hcut (h.lexeme hl hp)

theorem endsMantissa_of_typographicExponent (h : TypographicExponent cs) : EndsMantissa cs := by
  obtain ⟨marker, d, rest, hm, hd, rfl⟩ := h
  constructor
  · intro c hc
    cases hc
    obtain rfl | rfl := hm <;> exact ⟨rfl, by decide⟩
  · intro x hx hfront
    obtain ⟨_, htail⟩ := List.cons_prefix_cons.mp hfront
    obtain ⟨e, es, hdigits⟩ := List.exists_cons_of_ne_nil hx.digits_ne_nil
    have he := hx.isDigit e (by simp [hdigits])
    -- behind the marker of an exponent stands a plain sign or a digit
    obtain hs | hs | hs := hx.sign
    all_goals
      rw [hs, hdigits] at htail
      have hhead := (List.cons_prefix_cons.mp htail).1
    · rw [hhead] at he
      cases he
    · cases hhead
    · cases hhead

/-- A letter in front of what is none is a word of its own. -/
theorem reads_letter (hc : c.isAlpha = true) (hcs : cs.takeWhile Char.isAlpha = []) :
    Reads (c :: cs) [ofWord (lowered [c])] cs := by
  have hlong : Longest (c :: cs.takeWhile Char.isAlpha) _ (c :: cs) := Longest.letters hc
  rw [hcs] at hlong
  refine .lexeme (l := [c]) hlong (fun m hm => ?_) (.done cs)
  obtain hdigit | rfl := hm.head
  · rw [isAlpha_of_isDigit hdigit] at hc
    cases hc
  · cases hc

/-- A number that is cut is read, and behind it the constant. -/
theorem CutNumber.reads (h : CutNumber cs) : ∃ x rest, Reads cs [.num x, .euler] rest := by
  obtain ⟨n, r, hn, hx, hr, rfl⟩ := h
  have hnum := reads_of_endsMantissa hn hx (endsMantissa_of_typographicExponent hr)
  obtain ⟨marker, d, rest, hm, hd, rfl⟩ := hr
  have hletter : marker.isAlpha = true := by obtain rfl | rfl := hm <;> rfl
  have hword : ofWord (lowered [marker]) = .euler := by obtain rfl | rfl := hm <;> decide
  have heuler : Reads (marker :: '−' :: d :: rest) [ofWord (lowered [marker])] _ :=
    reads_letter hletter rfl
  rw [hword] at heuler
  exact ⟨_, _, hnum.trans heuler⟩

/-- With the plain sign a number goes on where it was cut. -/
theorem CutsNumber.exists_reads (h : CutsNumber cs) :
    ∃ ts rest, Reads cs ts rest ∧ ¬Reads (cs.map plainSign) ts (rest.map plainSign) := by
  obtain ⟨ts, _, hr, n, r, hn, hx, hx', rfl⟩ := h
  by_contra! hall
  have hnum := reads_of_endsMantissa hn hx (endsMantissa_of_typographicExponent hx')
  obtain ⟨vs, hvs, hplain⟩ | ⟨vs, hvs, _⟩ := (hall _ _ hr).comparable (hall _ _ (hr.trans hnum))
  · obtain ⟨x, hwf, hfront⟩ := hx'.exists_exponent
    rw [List.map_append, hn.map_plainSign] at hplain
    exact not_exponent_of_reads hn hx hplain hwf hfront
  · have hlen := congrArg List.length hvs
    simp at hlen

theorem reads_map_plainSign_iff (cs : List Char) :
    (∀ ts rest, Reads cs ts rest → Reads (cs.map plainSign) ts (rest.map plainSign)) ↔
    ¬CutsNumber cs := by
  constructor
  · intro hall hcut
    obtain ⟨ts, rest, hr, hne⟩ := hcut.exists_reads
    exact hne (hall ts rest hr)
  · intro hcut ts rest hr
    exact hr.map_plainSign hcut

theorem ofString_map_plainSign {s : String} (h : ¬CutsNumber s.toList) :
    ofString (s.map plainSign) = (ofString s).mapError Fault.plain := by
  rw [ofString, ofString, String.toList_map]
  exact readOn_map_plainSign 0 h

/-- The tokens of a text in which a number is cut have that number in front of the constant. -/
theorem CutsNumber.exists_beside {s : String} (h : CutsNumber s.toList)
    (hts : ofString s = .ok ts) :
    ∃ x, [.num x, .euler] <:+: ts := by
  obtain ⟨us, rest, hr, hcut⟩ := h
  obtain ⟨x, r, hx⟩ := hcut.reads
  have hread := hr.trans hx
  obtain ⟨vs, rfl, _⟩ | ⟨vs, _, hnil⟩ := hread.comparable (reads_of_ofChars hts)
  · exact ⟨x, us, vs, by simp⟩
  · obtain rfl := List.suffix_nil.mp hnil.suffix
    rw [ofString, hread.ofChars_eq] at hts
    cases hts
    exact ⟨x, us, [], by simp⟩

end Token

end SciCalc
