import SciCalc.Proofs.Token.MaximalMunch

namespace SciCalc

/-- What is wrong with a text when `n` characters are put in front of it. -/
def Fault.moved (n : ℕ) : Fault → Fault
  | .unexpectedChar c p => .unexpectedChar c (n + p)
  | f => f

namespace Token

variable {b c : Char} {l m cs ds w rest rest' : List Char} {t : Token} {ts us : List Token} {p : ℕ}
  {f : Fault}

/-- A text without a blank does not reach behind one. -/
theorem prefix_append_blank_iff (hl : ∀ c ∈ l, Text.isBlank c = false)
    (hb : Text.isBlank b = true) :
    l <+: cs ++ b :: w ↔ l <+: cs := by
  refine ⟨fun h => ?_, fun h => h.trans (List.prefix_append cs _)⟩
  obtain hle | ⟨r, rfl⟩ := List.prefix_or_prefix_of_prefix h (List.prefix_append cs (b :: w))
  · exact hle
  · rw [List.prefix_append_right_inj] at h
    cases r with
    | nil => simp
    | cons c r =>
      obtain ⟨rfl, _⟩ := List.cons_prefix_cons.mp h
      rw [hl c (by simp)] at hb
      cases hb

theorem Lexeme.prefix_append_blank_iff (h : Lexeme l t) (hb : Text.isBlank b = true) :
    l <+: cs ++ b :: w ↔ l <+: cs :=
  Token.prefix_append_blank_iff h.isBlank_eq_false hb

theorem longest_append_blank_iff (hb : Text.isBlank b = true) :
    Longest l t (cs ++ b :: w) ↔ Longest l t cs := by
  constructor
  · rintro ⟨hl, hf, hle⟩
    refine ⟨hl, (hl.prefix_append_blank_iff hb).mp hf, fun l' t' hl' hf' => ?_⟩
    exact hle l' t' hl' ((hl'.prefix_append_blank_iff hb).mpr hf')
  · rintro ⟨hl, hf, hle⟩
    refine ⟨hl, (hl.prefix_append_blank_iff hb).mpr hf, fun l' t' hl' hf' => ?_⟩
    exact hle l' t' hl' ((hl'.prefix_append_blank_iff hb).mp hf')

theorem secondPoint_append_blank_iff (hb : Text.isBlank b = true) :
    SecondPoint m (cs ++ b :: w) ↔ SecondPoint m cs := by
  unfold SecondPoint
  apply exists_congr
  intro n
  rw [longest_append_blank_iff hb]
  refine and_congr_right fun _ => and_congr_right fun hl => and_congr_right fun hm => ?_
  apply prefix_append_blank_iff _ hb
  intro c hc
  obtain hc | hc := List.mem_append.mp hc
  · refine hl.lexeme.isBlank_eq_false c ?_
    rw [Numeral.chars, hm]
    exact List.mem_append_left _ hc
  · rw [List.mem_singleton.mp hc]
    rfl

/-- What is wrong with a character is so whatever stands behind the next blank. -/
theorem Unreadable.char_append_blank {q : ℕ} (h : Unreadable p cs (.unexpectedChar c q))
    (hb : Text.isBlank b = true) (w : List Char) :
    Unreadable p (cs ++ b :: w) (.unexpectedChar c q) := by
  cases h with
  | @char c cs hc hp hn =>
    refine .char hc hp fun l t hl hf => hn l t hl ?_
    exact (hl.prefix_append_blank_iff hb).mp hf

theorem Unreadable.append_blank (h : Unreadable p cs f) (hb : Text.isBlank b = true)
    (w : List Char) :
    ∃ f', Unreadable p (cs ++ b :: w) f' := by
  cases h with
  | char hc hp hn => exact ⟨_, (Unreadable.char hc hp hn).char_append_blank hb w⟩
  | @point cs hn =>
    refine ⟨_, .point fun l t hl hf => hn l t hl ?_⟩
    exact (hl.prefix_append_blank_iff hb).mp hf
  | secondPoint hm => exact ⟨_, .secondPoint ((secondPoint_append_blank_iff hb).mpr hm)⟩

theorem Unreadable.moved (h : Unreadable p cs f) (n : ℕ) : Unreadable (n + p) cs (f.moved n) := by
  cases h with
  | char hc hp hn => exact .char hc hp hn
  | point hn => exact .point hn
  | secondPoint hm => exact .secondPoint hm

namespace Reads

theorem append_blank (h : Reads cs ts rest) (hb : Text.isBlank b = true) (w : List Char) :
    Reads (cs ++ b :: w) ts (rest ++ b :: w) := by
  induction h with
  | done rest => exact .done _
  | blank hc _ ih => exact .blank hc ih
  | lexeme hl hp _ ih =>
    rw [List.append_assoc]
    refine .lexeme ?_ (fun m hm => hp m ?_) ih
    · rwa [← List.append_assoc, longest_append_blank_iff hb]
    · rwa [← List.append_assoc, secondPoint_append_blank_iff hb] at hm

theorem trans (h : Reads cs ts rest) (h' : Reads rest us rest') : Reads cs (ts ++ us) rest' := by
  induction h with
  | done rest => exact h'
  | blank hc _ ih => exact .blank hc (ih h')
  | lexeme hl hp _ ih => exact .lexeme hl hp (ih h')

theorem blanks_append (hw : ∀ c ∈ w, Text.isBlank c = true) (h : Reads cs ts rest) :
    Reads (w ++ cs) ts rest := by
  induction w with
  | nil => exact h
  | cons b w ih => exact .blank (hw b (by simp)) (ih fun c hc => hw c (List.mem_cons_of_mem b hc))

theorem of_blanks (hw : ∀ c ∈ w, Text.isBlank c = true) : Reads w [] [] := by
  have h := blanks_append hw (.done [])
  rwa [List.append_nil] at h

theorem append_blanks (hw : ∀ c ∈ w, Text.isBlank c = true) (h : Reads cs ts []) :
    Reads (cs ++ w) ts [] := by
  cases w with
  | nil => rwa [List.append_nil]
  | cons b w =>
    have hall := (h.append_blank (hw b (by simp)) w).trans (.of_blanks hw)
    rwa [List.append_nil] at hall

/-- Behind blanks the reading goes on as at the front of a text. -/
theorem append_blanks_append (h : Reads cs ts []) (hne : w ≠ [])
    (hw : ∀ c ∈ w, Text.isBlank c = true) (h' : Reads ds us rest) :
    Reads (cs ++ w ++ ds) (ts ++ us) rest := by
  obtain ⟨b, w, rfl⟩ := List.exists_cons_of_ne_nil hne
  have hfront : Reads (cs ++ b :: (w ++ ds)) ts (b :: (w ++ ds)) :=
    h.append_blank (hw b List.mem_cons_self) _
  rw [List.append_assoc]
  exact hfront.trans (h'.blanks_append hw)

/-- Only blanks are read without a token. -/
theorem isBlank_of_nil (h : Reads w [] []) : ∀ c ∈ w, Text.isBlank c = true := by
  generalize hts : ([] : List Token) = ts at h
  generalize hrest : ([] : List Char) = rest at h
  induction h with
  | done rest =>
    subst hrest
    simp
  | blank hb _ ih => exact List.forall_mem_cons.mpr ⟨hb, ih hts hrest⟩
  | lexeme => cases hts

end Reads

theorem ofChars_of_blanks_append (hw : ∀ c ∈ w, Text.isBlank c = true)
    (h : ofChars (w ++ cs) = .ok ts) : ofChars cs = .ok ts := by
  induction w with
  | nil => exact h
  | cons b w ih =>
    apply ih fun c hc => hw c (List.mem_cons_of_mem b hc)
    rw [ofChars, List.cons_append, readOn_blank _ _ _ (hw b (by simp))] at h
    obtain ⟨us, hr, hus⟩ | ⟨f, _, _, _, hr, _⟩ := reads_of_readOn (0 + 1) (w ++ cs)
    · rw [hr] at h
      cases h
      exact hus.ofChars_eq
    · rw [hr] at h
      cases h

theorem ofChars_of_append_blanks (hw : ∀ c ∈ w, Text.isBlank c = true)
    (h : ofChars (cs ++ w) = .ok ts) : ofChars cs = .ok ts := by
  cases w with
  | nil => rwa [List.append_nil] at h
  | cons b w =>
    have hb := hw b (by simp)
    cases hc : ofChars cs with
    | ok us => rw [← h, ((reads_of_ofChars hc).append_blanks hw).ofChars_eq]
    | error f =>
      obtain ⟨front, rest, us, rfl, hr, hu⟩ := unreadable_of_ofChars hc
      obtain ⟨f', hu'⟩ := hu.append_blank hb w
      rw [(hr.append_blank hb w).ofChars_eq_error (List.append_assoc _ _ _) hu'] at h
      cases h

/-- A text is its trimmed text with blanks around it. -/
theorem exists_blanks_trim (cs : List Char) : ∃ w w', cs = w ++ (Text.trim cs ++ w') ∧
    (∀ c ∈ w, Text.isBlank c = true) ∧ ∀ c ∈ w', Text.isBlank c = true := by
  have hall : ∀ ds : List Char, ∀ c ∈ ds.takeWhile Text.isBlank, Text.isBlank c = true :=
    fun ds c hc => List.mem_takeWhile_imp hc
  have hsplit : cs = cs.takeWhile Text.isBlank ++ cs.dropWhile Text.isBlank :=
    List.takeWhile_append_dropWhile.symm
  unfold Text.trim
  generalize cs.dropWhile Text.isBlank = ds at hsplit
  refine ⟨cs.takeWhile Text.isBlank, (ds.reverse.takeWhile Text.isBlank).reverse, ?_, hall cs, ?_⟩
  · rwa [← List.reverse_append, List.takeWhile_append_dropWhile, List.reverse_reverse]
  · intro c hc
    exact hall _ c (List.mem_reverse.mp hc)

/-- The blanks around a text add no tokens. -/
theorem ofChars_trim (h : ofChars cs = .ok ts) : ofChars (Text.trim cs) = .ok ts := by
  obtain ⟨w, w', hcs, hw, hw'⟩ := exists_blanks_trim cs
  rw [hcs] at h
  exact ofChars_of_append_blanks hw' (ofChars_of_blanks_append hw h)

theorem ofChars_of_trim (h : ofChars (Text.trim cs) = .ok ts) : ofChars cs = .ok ts := by
  obtain ⟨w, w', hcs, hw, hw'⟩ := exists_blanks_trim cs
  rw [hcs]
  exact (((reads_of_ofChars h).append_blanks hw').blanks_append hw).ofChars_eq

/-- Blanks separate and do nothing else: the tokens of the two texts follow each other, what is
wrong with the second text is wrong behind the first, and a character that is unexpected in the
first is so whatever follows. -/
theorem ofString_append_blanks_append (a w b : String) (hw : w ≠ "")
    (hblank : ∀ c ∈ w.toList, Text.isBlank c = true) :
    (∀ ts us, ofString a = .ok ts → ofString b = .ok us → ofString (a ++ w ++ b) = .ok (ts ++ us)) ∧
    (∀ ts f, ofString a = .ok ts → ofString b = .error f →
      ofString (a ++ w ++ b) = .error (f.moved (a.length + w.length))) ∧
    ∀ c p, ofString a = .error (.unexpectedChar c p) →
      ofString (a ++ w ++ b) = .error (.unexpectedChar c p) := by
  have hne : w.toList ≠ [] := fun h => hw (String.toList_eq_nil_iff.mp h)
  have hall : (a ++ w ++ b).toList = a.toList ++ w.toList ++ b.toList := by
    rw [String.toList_append, String.toList_append]
  simp only [ofString, hall]
  refine ⟨fun ts us ha hb => ?_, fun ts f ha hb => ?_, fun c p ha => ?_⟩
  · exact ((reads_of_ofChars ha).append_blanks_append hne hblank (reads_of_ofChars hb)).ofChars_eq
  · obtain ⟨front, rest, us, hsplit, hr, hu⟩ := unreadable_of_ofChars hb
    apply ((reads_of_ofChars ha).append_blanks_append hne hblank hr).ofChars_eq_error
    · rw [hsplit, ← List.append_assoc]
    · have hlen : a.length + w.length = (a.toList ++ w.toList).length := by
        rw [List.length_append, String.length_toList, String.length_toList]
      rw [List.length_append, hlen]
      exact hu.moved _
  · obtain ⟨front, rest, ts, hsplit, hr, hu⟩ := unreadable_of_ofChars ha
    obtain ⟨d, ws, hd⟩ := List.exists_cons_of_ne_nil hne
    have hdblank : Text.isBlank d = true := hblank d (by rw [hd]; exact List.mem_cons_self)
    rw [hd, List.append_assoc, List.cons_append]
    apply (hr.append_blank hdblank (ws ++ b.toList)).ofChars_eq_error
    · rw [hsplit, List.append_assoc]
    · exact hu.char_append_blank hdblank _

/-- Two stars with a blank between them are no power; a point that no digit follows and a character
that is none of an expression are what is wrong, the second one at its place. -/
theorem ofString_blank_between_stars :
    ofString "2*" = .ok [.num 2, .star] ∧ ofString "2* *3" = .ok [.num 2, .star, .star, .num 3] ∧
    ofString "2* 3$" = .error (.unexpectedChar '$' 4) ∧
    ofString "2* ." = .error (.invalidNumber ".") ∧
    ofString "$ 3" = .error (.unexpectedChar '$' 0) := by
  have hblank : ∀ c ∈ " ".toList, Text.isBlank c = true := by
    intro c hc
    obtain rfl : c = ' ' := by simpa using hc
    rfl
  have hstar : ofString "2*" = .ok [.num 2, .star] := by decide +kernel
  have hsecond : ofString "*3" = .ok [.star, .num 3] := by decide +kernel
  have hpoint : ofString "." = .error (.invalidNumber ".") := by decide +kernel
  have hlast : ofString "3$" = .error (.unexpectedChar '$' 1) := by decide +kernel
  have hfirst : ofString "$" = .error (.unexpectedChar '$' 0) := by decide +kernel
  have hmoved : "2*".length + " ".length = 3 := by decide +kernel
  obtain ⟨htokens, _, _⟩ := ofString_append_blanks_append "2*" " " "*3" (by decide) hblank
  obtain ⟨_, hfault, _⟩ := ofString_append_blanks_append "2*" " " "3$" (by decide) hblank
  obtain ⟨_, hspoilt, _⟩ := ofString_append_blanks_append "2*" " " "." (by decide) hblank
  obtain ⟨_, _, hkept⟩ := ofString_append_blanks_append "$" " " "3" (by decide) hblank
  have hfault := hfault _ _ hstar hlast
  rw [hmoved] at hfault
  exact ⟨hstar, htokens _ _ hstar hsecond, hfault, hspoilt _ _ hstar hpoint, hkept _ _ hfirst⟩

end Token

end SciCalc
