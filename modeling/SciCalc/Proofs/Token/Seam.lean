import SciCalc.Proofs.Token.MaximalMunch

namespace SciCalc.Token

variable {b : Char} {l cs ds rest : List Char} {t : Token} {ts us : List Token}

/-- At some place that is come to in reading `cs`, the rest of `cs` and a part of `ds` are one
lexeme, or the rest of `cs` is a mantissa that a point of `ds` spoils. -/
def Joins (cs ds : List Char) : Prop :=
  ∃ ts rest, Reads cs ts rest ∧ rest ≠ [] ∧
    ((∃ u t, u ≠ [] ∧ u <+: ds ∧ Lexeme (rest ++ u) t) ∨ SecondPoint rest (rest ++ ds))

theorem Joins.blank (hb : Text.isBlank b = true) (h : Joins cs ds) : Joins (b :: cs) ds := by
  obtain ⟨ts, rest, hr, h⟩ := h
  exact ⟨ts, rest, .blank hb hr, h⟩

theorem Joins.lexeme (hl : Longest l t (l ++ cs)) (hp : ∀ m, ¬SecondPoint m (l ++ cs))
    (h : Joins cs ds) :
    Joins (l ++ cs) ds := by
  obtain ⟨ts, rest, hr, h⟩ := h
  exact ⟨t :: ts, rest, .lexeme hl hp hr, h⟩

/-- What is left stands at the end of what is read. -/
theorem Reads.suffix (h : Reads cs ts rest) : rest <:+ cs := by
  obtain ⟨front, rfl, _⟩ := h.readOn_eq
  exact List.suffix_append front rest

/-- The first step of a reading that takes something. -/
theorem Reads.cases_step (h : Reads cs ts rest) (hlen : rest.length < cs.length) :
    (∃ c cs', cs = c :: cs' ∧ Text.isBlank c = true ∧ Reads cs' ts rest) ∨
      ∃ l t cs' ts', cs = l ++ cs' ∧ Longest l t cs ∧ (∀ m, ¬SecondPoint m cs) ∧
      Reads cs' ts' rest := by
  cases h with
  | done => exact absurd hlen (Nat.lt_irrefl _)
  | blank hb h => exact .inl ⟨_, _, rfl, hb, h⟩
  | lexeme hl hp h => exact .inr ⟨_, _, _, _, rfl, hl, hp, h⟩

theorem Lexeme.isBlank_head (h : Lexeme l t) (rest : List Char) (c : Char) (cs : List Char)
    (he : l ++ rest = c :: cs) : Text.isBlank c = false := by
  obtain ⟨d, ds, rfl⟩ := List.exists_cons_of_ne_nil h.ne_nil
  obtain ⟨rfl, _⟩ := List.cons.inj he
  exact h.isBlank_eq_false d List.mem_cons_self

section Append

/-- A lexeme stays the longest one if none goes on behind the seam. -/
theorem Longest.append (hl : Longest l t cs) (h : ¬Joins cs ds) (hne : cs ≠ []) :
    Longest l t (cs ++ ds) where
  lexeme := hl.lexeme
  front := hl.front.trans (List.prefix_append cs ds)
  length_le := by
    intro l' t' hl' hf
    obtain hf | ⟨u, rfl⟩ := List.prefix_or_prefix_of_prefix hf (List.prefix_append cs ds)
    · exact hl.length_le l' t' hl' hf
    · rw [List.prefix_append_right_inj] at hf
      cases u with
      | nil => exact hl.length_le _ t' hl' (by simp)
      | cons c u => exact absurd ⟨[], cs, .done cs, hne, .inl ⟨_, t', by simp, hf, hl'⟩⟩ h

/-- A point that spoils a number in front of the seam stands in front of it too, if the texts are
not joined. -/
theorem SecondPoint.of_append {m : List Char} (hl : Longest l t cs) (h : ¬Joins cs ds)
    (hne : cs ≠ []) (hm : SecondPoint m (cs ++ ds)) : SecondPoint m cs := by
  obtain ⟨n, hn, hlong, rfl, hpoint⟩ := id hm
  obtain ⟨rfl, rfl⟩ := hlong.unique (hl.append h hne)
  obtain hf | hcs := List.prefix_or_prefix_of_prefix hpoint (List.prefix_append cs ds)
  · exact ⟨n, hn, hl, rfl, hf⟩
  · obtain heq | hcs := List.prefix_concat_iff.mp hcs
    · exact ⟨n, hn, hl, rfl, heq ▸ List.prefix_rfl⟩
    -- the mantissa reaches up to the seam
    · have hmantissa : n.mantissa <+: cs := (List.prefix_append _ _).trans hl.front
      obtain rfl := hmantissa.eq_of_length_le hcs.length_le
      exact absurd ⟨[], n.mantissa, .done _, hne, .inr hm⟩ h

theorem reads_append_of_not_joins (h : Reads cs ts []) (hj : ¬Joins cs ds) :
    Reads (cs ++ ds) ts ds := by
  generalize hrest : ([] : List Char) = rest at h
  induction h with
  | done rest =>
    subst hrest
    exact .done ds
  | blank hb _ ih => exact .blank hb (ih (fun h => hj (h.blank hb)) hrest)
  | @lexeme l cs rest t ts hl hp _ ih =>
    have hne : l ++ cs ≠ [] := by simp [hl.lexeme.ne_nil]
    rw [List.append_assoc]
    refine .lexeme ?_ (fun m hm => ?_) (ih (fun h => hj (h.lexeme hl hp)) hrest)
    · rw [← List.append_assoc]
      exact hl.append hj hne
    · rw [← List.append_assoc] at hm
      exact hp m (hm.of_append hl hj hne)

/-- If a text is read up to the seam, so is each of its ends that is come to in reading what is in
front. -/
theorem Reads.of_append (h : Reads cs us rest) (hds : Reads (cs ++ ds) ts ds) :
    ∃ ts', Reads (rest ++ ds) ts' ds := by
  induction h generalizing ts with
  | done => exact ⟨ts, hds⟩
  | @blank c cs rest us hb _ ih =>
    obtain ⟨d, cs', heq, _, hds⟩ | ⟨l, t, cs', ts', _, hl, _, _⟩ := hds.cases_step (by simp)
    · obtain ⟨rfl, rfl⟩ := List.cons.inj heq
      exact ih hds
    · obtain ⟨r, hr⟩ := hl.front
      rw [hl.lexeme.isBlank_head r _ _ hr] at hb
      cases hb
  | @lexeme l cs rest t us hl _ _ ih =>
    have hpos := List.length_pos_iff.mpr hl.lexeme.ne_nil
    obtain ⟨c, cs', heq, hb, _⟩ | ⟨l', t', cs', ts', heq, hl', _, hds⟩ :=
      hds.cases_step (by simp; omega)
    · rw [List.append_assoc] at heq
      rw [hl.lexeme.isBlank_head _ _ _ heq] at hb
      cases hb
    -- the lexeme that is taken does not reach behind the seam, and so is the same
    · have hlen := congrArg List.length heq
      have hsuffix := hds.suffix.length_le
      simp only [List.length_append] at hlen
      have hfront : l' <+: l ++ cs :=
        List.prefix_of_prefix_length_le hl'.front (List.prefix_append _ _)
          (by rw [List.length_append]; omega)
      have hle := hl.length_le l' t' hl'.lexeme hfront
      have hge := hl'.length_le l t hl.lexeme (hl.front.trans (List.prefix_append _ _))
      obtain rfl := (List.prefix_of_prefix_length_le hfront hl.front hle).eq_of_length (by omega)
      rw [List.append_assoc] at heq
      obtain rfl := List.append_cancel_left heq
      exact ih hds

/-- The tokens in front of a seam are read as without what stands behind it, exactly if the texts
are not joined. -/
theorem reads_append_iff (h : Reads cs ts []) : Reads (cs ++ ds) ts ds ↔ ¬Joins cs ds := by
  refine ⟨?_, reads_append_of_not_joins h⟩
  rintro hds ⟨us, rest, hr, hne, hjoin⟩
  have hpos := List.length_pos_iff.mpr hne
  obtain ⟨ts', hrest⟩ := hr.of_append hds
  obtain ⟨c, cs', heq, hb, _⟩ | ⟨l, t, cs', ts', heq, hl, hp, hcs⟩ :=
    hrest.cases_step (by simp; omega)
  · have hblank : Text.isBlank c = false := by
      obtain ⟨u, t, _, hu, hlex⟩ | hm := hjoin
      · obtain ⟨v, rfl⟩ := hu
        exact hlex.isBlank_head v c cs' (by rw [List.append_assoc, heq])
      · obtain ⟨n, _, hl, _⟩ := hm
        obtain ⟨v, hv⟩ := hl.front
        exact hl.lexeme.isBlank_head v c cs' (hv.trans heq)
    rw [hblank] at hb
    cases hb
  · obtain ⟨u, t', hu, hfront, hlex⟩ | hm := hjoin
    · have hle := hl.length_le _ t' hlex ((List.prefix_append_right_inj rest).mpr hfront)
      have hlen := congrArg List.length heq
      have hsuffix := hcs.suffix.length_le
      have hupos := List.length_pos_iff.mpr hu
      simp only [List.length_append] at hle hlen
      omega
    · exact hp rest hm

end Append

/-- Behind the longest lexeme nothing goes on with it. -/
theorem Longest.eq_nil {t' : Token} {u : List Char} (h : Longest l t (l ++ ds))
    (hl : Lexeme (l ++ u) t') (hu : u <+: ds) : u = [] := by
  have hle := h.length_le _ t' hl ((List.prefix_append_right_inj l).mpr hu)
  rw [List.length_append] at hle
  exact List.length_eq_zero_iff.mp (by omega)

/-- If reading stops at the seam behind a lexeme, that lexeme is the longest one, and no second
point spoils it. -/
theorem Reads.longest (h : Reads (l ++ ds) ts ds) (hl : Lexeme l t) :
    Longest l t (l ++ ds) ∧ ∀ m, ¬SecondPoint m (l ++ ds) := by
  have hpos := List.length_pos_iff.mpr hl.ne_nil
  obtain ⟨c, cs', heq, hb, _⟩ | ⟨l', t', cs', ts', heq, hl', hp, hcs⟩ :=
    h.cases_step (by simp; omega)
  · rw [hl.isBlank_head ds c cs' heq] at hb
    cases hb
  · refine ⟨⟨hl, List.prefix_append _ _, fun l'' t'' hlex hfront => ?_⟩, hp⟩
    have hle := hl'.length_le l'' t'' hlex hfront
    have hlen := congrArg List.length heq
    have hsuffix := hcs.suffix.length_le
    simp only [List.length_append] at hlen
    omega

/-- Of two readings of a text, one goes on with the other. -/
theorem Reads.comparable {rest' : List Char} (h : Reads cs ts rest) (h' : Reads cs us rest') :
    (∃ vs, us = ts ++ vs ∧ Reads rest vs rest') ∨ ∃ vs, ts = us ++ vs ∧ Reads rest' vs rest := by
  induction h generalizing us rest' with
  | done rest => exact .inl ⟨us, rfl, h'⟩
  | @blank c cs rest ts hb h ih =>
    generalize heq : c :: cs = ds at h'
    cases h' with
    | done => exact .inr ⟨ts, rfl, heq ▸ .blank hb h⟩
    | blank _ h' =>
      obtain ⟨rfl, rfl⟩ := List.cons.inj heq
      exact ih h'
    | lexeme hl' =>
      rw [hl'.lexeme.isBlank_head _ _ _ heq.symm] at hb
      cases hb
  | @lexeme l cs rest t ts hl hp h ih =>
    generalize heq : l ++ cs = ds at h'
    cases h' with
    | done => exact .inr ⟨t :: ts, rfl, heq ▸ .lexeme hl hp h⟩
    | blank hb =>
      rw [hl.lexeme.isBlank_head _ _ _ heq] at hb
      cases hb
    | lexeme hl' _ h' =>
      obtain ⟨rfl, rfl⟩ := (heq ▸ hl).unique hl'
      obtain rfl := List.append_cancel_left heq
      obtain ⟨vs, rfl, hvs⟩ | ⟨vs, rfl, hvs⟩ := ih h'
      · exact .inl ⟨vs, rfl, hvs⟩
      · exact .inr ⟨vs, rfl, hvs⟩

/-- What is no letter stands in signs and in numbers. -/
theorem Lexeme.cases_mem {c : Char} (h : Lexeme l t) (hc : c ∈ l) (ha : c.isAlpha = false) :
    l = [c] ∧ (c, t) ∈ signs ∨ l = ['*', '*'] ∨ ∃ n : Numeral, n.WellFormed ∧ n.chars = l := by
  have hnot : ¬∀ d ∈ l, d.isAlpha = true := fun hall => absurd (hall c hc) (by simp [ha])
  cases h with
  | sign hs =>
    obtain rfl := List.mem_singleton.mp hc
    exact .inl ⟨rfl, hs⟩
  | doubleStar => exact .inr (.inl rfl)
  | pi ha _ => exact absurd ha hnot
  | euler ha _ => exact absurd ha hnot
  | word _ ha _ _ => exact absurd ha hnot
  | number hn => exact .inr (.inr ⟨_, hn, rfl⟩)

/-- A sign that is part of no longer text of a token stands alone. -/
theorem Lexeme.eq_singleton_of_mem {c : Char} {t' : Token} (h : Lexeme l t) (hc : c ∈ l)
    (hs : (c, t') ∈ signs) (hne : c ∉ ['*', '+', '-']) : l = [c] := by
  obtain ⟨hletter, hdigit, hpoint, _⟩ := class_of_sign hs
  obtain ⟨hl, _⟩ | rfl | ⟨n, hn, rfl⟩ := h.cases_mem hc hletter
  · exact hl
  · obtain rfl : c = '*' := by simpa using hc
    exact absurd List.mem_cons_self hne
  · have he : c ≠ 'e' ∧ c ≠ 'E' := by
      constructor
      all_goals
        rintro rfl
        cases hletter
    obtain hd | hm := hn.isDigit_or_mem c hc
    · rw [hdigit] at hd
      cases hd
    · simp_all

/-- No text goes on with a sign of its own. -/
theorem not_joins_sign {c : Char} {t' : Token} (hs : (c, t') ∈ signs) (hne : c ∉ ['*', '+', '-']) :
    ¬Joins cs (c :: ds) := by
  rintro ⟨ts, rest, _, hrest, ⟨u, t, hu, hfront, hl⟩ | hm⟩
  · obtain ⟨d, u, rfl⟩ := List.exists_cons_of_ne_nil hu
    obtain ⟨rfl, _⟩ := List.cons_prefix_cons.mp hfront
    have hlen := congrArg List.length (hl.eq_singleton_of_mem (by simp) hs hne)
    have hpos := List.length_pos_iff.mpr hrest
    simp only [List.length_append, List.length_cons, List.length_nil] at hlen
    omega
  · have hpoint := hm.front
    rw [List.prefix_append_right_inj] at hpoint
    exact absurd (List.cons_prefix_cons.mp hpoint).1.symm (class_of_sign hs).2.2.1

section Digit

variable {d : Char} {n : Numeral}

/-- A digit behind the text goes on with a number: the text ends with one, or with one and an
exponent that has no digit yet. -/
def OpenNumber (cs : List Char) : Prop :=
  ∃ ts rest d, ∃ n : Numeral,
    Reads cs ts rest ∧ rest ≠ [] ∧ d.isDigit = true ∧ n.WellFormed ∧ n.chars = rest ++ [d]

theorem OpenNumber.getLast (h : OpenNumber cs) :
    ∃ c, cs.getLast? = some c ∧ (c.isDigit = true ∨ c ∈ ['.', 'e', 'E', '+', '-']) := by
  obtain ⟨ts, rest, d, n, hr, hne, _, hn, hchars⟩ := h
  obtain ⟨front, rfl⟩ := hr.suffix
  refine ⟨rest.getLast hne, ?_, hn.isDigit_or_mem _ ?_⟩
  · rw [List.getLast?_append_of_ne_nil _ hne, List.getLast?_eq_some_getLast hne]
  · rw [hchars]
    exact List.mem_append_left _ (List.getLast_mem hne)

/-- Only a number has a digit in it. -/
theorem Lexeme.exists_numeral_of_mem (h : Lexeme l t) (hd : d.isDigit = true) (hmem : d ∈ l) :
    ∃ n : Numeral, n.WellFormed ∧ n.chars = l := by
  obtain ⟨_, hs⟩ | rfl | hn := h.cases_mem hmem (isAlpha_of_isDigit hd)
  · rw [(class_of_sign hs).2.1] at hd
    cases hd
  · obtain rfl : d = '*' := by simpa using hmem
    cases hd
  · exact hn

/-- A text that starts with a digit is joined to the number in front that it goes on with. -/
theorem joins_digit_iff (hd : d.isDigit = true) : Joins cs (d :: ds) ↔ OpenNumber cs := by
  constructor
  · rintro ⟨ts, rest, hr, hne, ⟨u, t, hu, hfront, hl⟩ | hm⟩
    · obtain ⟨e, u, rfl⟩ := List.exists_cons_of_ne_nil hu
      obtain ⟨rfl, _⟩ := List.cons_prefix_cons.mp hfront
      obtain ⟨n, hn, hchars⟩ := hl.exists_numeral_of_mem hd (by simp)
      obtain ⟨m, hm, hmchars⟩ := hn.cut hchars hd hd
      exact ⟨ts, rest, _, m, hr, hne, hd, hm, hmchars⟩
    · have hpoint := hm.front
      rw [List.prefix_append_right_inj] at hpoint
      rw [← (List.cons_prefix_cons.mp hpoint).1] at hd
      cases hd
  · rintro ⟨ts, rest, e, n, hr, hne, he, hn, hchars⟩
    obtain ⟨m, hm, hmchars⟩ := hn.cut hchars he hd
    have hl : Lexeme (rest ++ [d]) (.num m.toFloat) := hmchars ▸ .number hm
    exact ⟨ts, rest, hr, hne, .inl ⟨[d], _, by simp, by simp, hl⟩⟩

/-- Nothing goes on with a mantissa that has a point: no digit, no second point and no exponent. -/
structure EndsMantissa (cs : List Char) : Prop where
  head : ∀ c, cs.head? = some c → c.isDigit = false ∧ c ≠ '.'
  exponent : ∀ x : Exponent, x.WellFormed → ¬x.chars <+: cs

section Mantissa

variable (hn : n.WellFormed) (hx : n.exponent = none)
include hn hx

theorem scan_of_endsMantissa (h : EndsMantissa ds) : Numeral.scan (n.chars ++ ds) = n := by
  have hexponent : Exponent.scan? ds = none := by
    cases hs : Exponent.scan? ds with
    | none => rfl
    | some x =>
      exact absurd (Exponent.chars_of_scan? hs) (h.exponent x (Exponent.wellFormed_of_scan? hs))
  obtain ⟨whole, fraction, _⟩ := n
  simp only at hx
  subst hx
  have hs := Numeral.scan_append fraction ds hn.whole hn.fraction (fun c hc => (h.head c hc).1)
    (fun _ hc => (h.head '.' hc).2 rfl)
  rwa [hexponent, ← List.append_nil (Numeral.mantissa _)] at hs

theorem reads_of_endsMantissa (h : EndsMantissa ds) :
    Reads (n.chars ++ ds) [.num n.toFloat] ds := by
  have hscan := scan_of_endsMantissa hn hx h
  obtain ⟨c, cs, hcs, hc⟩ := hn.exists_chars_eq_cons
  have hchars : n.chars = n.mantissa := by simp [Numeral.chars, hx]
  have hcons : n.chars ++ ds = c :: (cs ++ ds) := by rw [hcs, List.cons_append]
  have hd : (Numeral.scan (n.chars ++ ds)).hasDigits = true := by
    rw [hscan]
    exact Numeral.hasDigits_iff.mpr hn.ne_nil
  rw [hcons] at hd hscan
  have hl := Longest.number hc hd
  rw [hscan, ← hcons] at hl
  refine .lexeme hl (fun m hm => ?_) (.done ds)
  rw [hcons, secondPoint_iff hc hd, hscan, ← hcons] at hm
  obtain ⟨rfl, hpoint⟩ := hm
  rw [← hchars, List.drop_left] at hpoint
  exact (h.head '.' hpoint).2 rfl

/-- If reading stops behind a mantissa, no exponent stands there. -/
theorem not_exponent_of_reads (hr : Reads (n.chars ++ ds) ts ds) {x : Exponent}
    (hx' : x.WellFormed) :
    ¬x.chars <+: ds := by
  intro hfront
  have hm : ({ n with exponent := some x } : Numeral).WellFormed :=
    ⟨hn.whole, hn.fraction, hn.ne_nil, by simpa using hx'⟩
  have hchars : ({ n with exponent := some x } : Numeral).chars = n.chars ++ x.chars := by
    simp [Numeral.chars, hx, Numeral.mantissa]
  have hlex := Lexeme.number hm
  rw [hchars] at hlex
  cases (hr.longest (.number hn)).1.eq_nil hlex hfront

variable {fraction : List Char} (hf : n.fraction = some fraction)
include hf

theorem exists_numeral_digit {c : Char} (hc : c.isDigit = true) :
    ∃ m : Numeral, m.WellFormed ∧ m.chars = n.chars ++ [c] := by
  refine ⟨⟨n.whole, some (fraction ++ [c]), none⟩, ⟨hn.whole, ?_, by simp, by simp⟩, ?_⟩
  · intro _ he d hd
    cases he
    obtain hd | hd := List.mem_append.mp hd
    · exact hn.fraction fraction hf d hd
    · rwa [List.mem_singleton.mp hd]
  · simp [Numeral.chars, Numeral.mantissa, hf, hx]

/-- A mantissa with a point is read as a number of its own exactly if nothing behind goes on with
it. -/
theorem reads_numeral_iff : Reads (n.chars ++ ds) [.num n.toFloat] ds ↔ EndsMantissa ds := by
  refine ⟨fun hr => ?_, reads_of_endsMantissa hn hx⟩
  obtain ⟨hl, hp⟩ := hr.longest (.number hn)
  refine ⟨fun c hc => ⟨Bool.eq_false_iff.mpr fun hd => ?_, ?_⟩,
    fun x => not_exponent_of_reads hn hx hr⟩
  · obtain ⟨ds, rfl⟩ := List.head?_eq_some_iff.mp hc
    obtain ⟨m, hm, hchars⟩ := exists_numeral_digit hn hx hf hd
    have hlex := Lexeme.number hm
    rw [hchars] at hlex
    cases hl.eq_nil hlex (List.cons_prefix_cons.mpr ⟨rfl, List.nil_prefix⟩)
  · rintro rfl
    obtain ⟨ds, rfl⟩ := List.head?_eq_some_iff.mp hc
    exact hp n.chars ⟨n, hn, hl, by simp [Numeral.chars, hx], by simp⟩

end Mantissa

end Digit

end SciCalc.Token
