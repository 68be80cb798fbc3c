import SciCalc.Calculator
import SciCalc.Proofs.Evaluation.Reevaluation

namespace SciCalc

open Number

/-- The characters that expressions and results are spelled with: those entered alone, and
letters. -/
def alphabet : List Char := "0123456789.+-*/()^!e".toList ++ Func.all.flatMap (·.name.toList)

theorem mem_alphabet_of_isDigit {c : Char} (h : c.isDigit = true) : c ∈ alphabet := by
  obtain ⟨hl, hu⟩ := Token.digit_bounds h
  rw [← Char.ofNat_toNat c]
  generalize c.toNat = n at hl hu
  interval_cases n <;> decide

/-- Every character but the point is a lexeme by itself. -/
theorem exists_lexeme_of_mem_alphabet {c : Char} (h : c ∈ alphabet) (hp : c ≠ '.') :
    ∃ t, Token.Lexeme [c] t := by
  have hall : alphabet.all
      (fun c => c = '.' || c.isDigit || c.isAlpha || Token.signs.any (·.1 = c)) = true := by decide
  have hc := List.all_eq_true.mp hall c h
  simp only [Bool.or_eq_true, decide_eq_true_eq, hp, false_or, List.any_eq_true] at hc
  obtain (hd | ha) | ⟨⟨_, t⟩, hs, rfl⟩ := hc
  · have hn : (⟨[c], none, none⟩ : Numeral).WellFormed :=
      ⟨by simpa using hd, by simp, by simp, by simp⟩
    exact ⟨_, .number hn⟩
  · exact ⟨_, .of_letters (by simp) (by simpa using ha)⟩
  · exact ⟨t, .sign hs⟩

theorem isBlank_of_mem_alphabet {c : Char} (h : c ∈ alphabet) : Text.isBlank c = false := by
  have hall : alphabet.all (!Text.isBlank ·) = true := by decide
  simpa using List.all_eq_true.mp hall c h

/-- The commands that a button or a key gives. -/
def Command.Offered (c : Command) : Prop :=
  (∃ token, ofButton? token = some c) ∨ ∃ name, ofKey? name = some c

theorem Command.mem_of_oneOf? {allowed : List Char} {s : String} {c : Char}
    (h : oneOf? allowed s = some c) : c ∈ allowed := by
  unfold oneOf? at h
  split at h
  · split at h <;> cases h
    assumption
  · cases h

/-- The only characters that are entered alone are those of the buttons. -/
theorem Command.Offered.mem_buttonChars {c : Char} (h : Offered (.enter (.char c))) :
    c ∈ buttonChars := by
  have hkeys : keyChars ⊆ buttonChars := by decide
  obtain ⟨token, h⟩ | ⟨name, h⟩ := h
  · unfold ofButton? at h
    split at h
    · cases h
      exact mem_of_oneOf? ‹_›
    · split at h
      · cases h
      · unfold ofNamedButton? at h
        split at h <;> cases h
  · unfold ofKey? at h
    split at h
    · cases h
      exact hkeys (mem_of_oneOf? ‹_›)
    · unfold ofNamedKey? at h
      split at h <;> cases h

/-- What an entry adds is spelled with the alphabet. -/
theorem Command.Offered.text_subset {e : Entry} (h : Offered (.enter e)) :
    e.text.toList ⊆ alphabet := by
  have hbuttons : buttonChars ⊆ alphabet := by decide
  cases e with
  | char c =>
    intro d hd
    obtain rfl : d = c := by simpa [Entry.text] using hd
    exact hbuttons h.mem_buttonChars
  | func f => cases f <;> decide
  | square => decide
  | exponent => decide
  | pi => decide
  | euler => decide

theorem Entry.text_ne_empty (e : Entry) : e.text ≠ "" := by
  cases e with
  | func f => cases f <;> decide
  | char c => simp [Entry.text]
  | _ => decide

theorem Numeral.Plain.chars_subset {n : Numeral} (h : n.Plain) : n.chars ⊆ alphabet := by
  have hd : ∀ ds : List Char, (∀ c ∈ ds, c.isDigit = true) → ds ⊆ alphabet :=
    fun ds hds c hc => mem_alphabet_of_isDigit (hds c hc)
  obtain ⟨whole, fraction, exponent⟩ := n
  obtain rfl := h.exponent_eq
  rw [Numeral.chars, List.append_nil]
  refine List.append_subset.mpr ⟨hd _ h.whole, ?_⟩
  cases fraction with
  | none => exact List.nil_subset _
  | some ds => exact List.cons_subset.mpr ⟨by decide, hd ds (h.fraction ds rfl)⟩

/-- Not empty, and spelled with the alphabet. -/
def Spelled (s : String) : Prop := s ≠ "" ∧ s.toList ⊆ alphabet

/-- The text of an error has a capital letter, which the alphabet has not. -/
theorem Spelled.ne_errorText {s : String} (h : Spelled s) : s ≠ errorText := by
  have hE : 'E' ∉ alphabet := by decide
  rintro rfl
  exact hE (h.2 (by decide))

/-- The text of an error, or a text of the alphabet. -/
def Shown (s : String) : Prop := s = errorText ∨ Spelled s

theorem spelled_resultText {m : AngleMode} {s : String} {v : Float} (h : value? m s = some v) :
    Spelled (resultText (some v)) := by
  obtain ⟨x, hx, rfl⟩ := value?_eq_some h
  obtain ⟨sign, n, hn, hc⟩ := exists_plain_text (isFinite_toTenDecimals hx)
  change Spelled (Number.resultText _)
  rw [resultText_eq_text (toTenDecimals_ne_negative_zero hx)]
  obtain ⟨c, cs, hcs, _⟩ := hn.exists_chars_eq_cons
  refine ⟨fun he => ?_, ?_⟩
  · rw [he, hcs] at hc
    cases sign <;> cases hc
  · rw [hc]
    cases sign with
    | positive => exact hn.chars_subset
    | negative => exact List.cons_subset.mpr ⟨by decide, hn.chars_subset⟩

/-- A result is spelled with the alphabet. -/
theorem shown_resultText (m : AngleMode) (s : String) : Shown (resultText (value? m s)) := by
  cases hv : value? m s with
  | none => exact .inl rfl
  | some v => exact .inr (spelled_resultText hv)

namespace Calculator

theorem spelled_blankText : Spelled blankText := by
  unfold Spelled
  decide

variable {k : Calculator}

theorem spelled_enter (h : Shown k.expression) {e : Entry} (he : Command.Offered (.enter e)) :
    Spelled (k.enter e).expression := by
  have hkept : ∀ shown : String, shown.toList ⊆ alphabet →
      (if shown = blankText ∧ e.text ≠ "." then "" else shown).toList ⊆ alphabet := by
    intro shown hs
    split
    · exact List.nil_subset _
    · exact hs
  have hshown : (if k.expression = errorText then blankText else k.expression).toList ⊆
      alphabet := by
    split
    · decide
    · exact (h.resolve_left ‹_›).2
  simp only [Spelled, Calculator.enter, String.toList_append]
  exact ⟨by simp [e.text_ne_empty], List.append_subset.mpr ⟨hkept _ hshown, he.text_subset⟩⟩

theorem spelled_delete (h : Shown k.expression) : Spelled k.delete.expression := by
  unfold Calculator.delete
  split
  · exact spelled_blankText
  · rename_i hne
    push Not at hne
    obtain ⟨herror, hlen⟩ := hne
    simp only [Spelled]
    rw [String.toList_ofList]
    refine ⟨fun hnil => ?_, fun c hc => (h.resolve_left herror).2 (List.dropLast_subset _ hc)⟩
    have hl := congrArg String.length hnil
    rw [String.length_ofList, List.length_dropLast, String.length_toList] at hl
    change _ = 0 at hl
    omega

/-- A command leaves what can be shown. -/
theorem shown_execute (h : Shown k.expression) {c : Command} (hc : c.Offered) :
    Shown (k.execute c).expression := by
  cases c with
  | enter e => exact .inr (spelled_enter h hc)
  | clear => exact .inr spelled_blankText
  | delete => exact .inr (spelled_delete h)
  | equals => exact shown_resultText k.mode k.expression
  | toggleAngle => exact h

theorem shown_run (h : Shown k.expression) {cs : List Command} (hcs : ∀ c ∈ cs, c.Offered) :
    Shown (k.run cs).expression := by
  induction cs generalizing k with
  | nil => exact h
  | cons c cs ih =>
    exact ih (shown_execute h (hcs c (by simp))) fun d hd => hcs d (List.mem_cons_of_mem c hd)

end Calculator

/-- Of a text spelled with the alphabet only the points can be unreadable. -/
theorem invalidNumber_of_subset {cs : List Char} {f : Fault} (hcs : cs ⊆ alphabet)
    (h : Token.ofChars cs = .error f) : ∃ text, f = .invalidNumber text := by
  obtain ⟨front, rest, ts, rfl, _, hu⟩ := Token.unreadable_of_ofChars h
  cases hu with
  | @char c ds _ hp hnone =>
    have hc : c ∈ alphabet := hcs (List.mem_append_right _ List.mem_cons_self)
    obtain ⟨t, ht⟩ := exists_lexeme_of_mem_alphabet hc hp
    exact absurd ⟨ds, rfl⟩ (hnone [c] t ht)
  | point => exact ⟨_, rfl⟩
  | secondPoint => exact ⟨_, rfl⟩

theorem Text.trim_eq_self {cs : List Char} (h : ∀ c ∈ cs, isBlank c = false) : trim cs = cs := by
  have hd : ∀ ds : List Char, (∀ c ∈ ds, isBlank c = false) → ds.dropWhile isBlank = ds := by
    intro ds hds
    cases ds with
    | nil => rfl
    | cons c ds => simp [hds c]
  unfold trim
  rw [hd cs h, hd cs.reverse (by simpa using h), List.reverse_reverse]

/-- A text spelled with the alphabet is not empty to the reader, and no character of it is
unexpected. -/
theorem evaluate_of_subset (m : AngleMode) {s : String} (hne : s ≠ "") (hs : s.toList ⊆ alphabet) :
    evaluate m s ≠ .error .emptyExpression ∧
    ∀ c p, evaluate m s ≠ .error (.unexpectedChar c p) := by
  have htrim : Text.trim s.toList = s.toList :=
    Text.trim_eq_self fun c hc => isBlank_of_mem_alphabet (hs hc)
  have hnil : s.toList ≠ [] := by simpa using hne
  have hfault : ∀ f, evaluate m s = .error f → f ≠ .emptyExpression ∧
      ∀ c p, f ≠ .unexpectedChar c p := by
    intro f hf
    obtain ⟨hempty, _⟩ | h | ⟨ts, hts, h⟩ | ⟨x, rfl⟩ | ⟨x, rfl⟩ := evaluate_eq_error hf
    · exact absurd (htrim.symm.trans hempty) hnil
    · rw [htrim] at h
      obtain ⟨text, rfl⟩ := invalidNumber_of_subset hs h
      exact ⟨nofun, nofun⟩
    · rw [htrim] at hts
      have htokens : ts ≠ [] := by
        rintro rfl
        obtain ⟨c, cs, hc⟩ := List.exists_cons_of_ne_nil hnil
        have hmem : c ∈ s.toList := by simp [hc]
        have hblank := (Token.reads_of_ofChars hts).isBlank_of_nil c hmem
        rw [isBlank_of_mem_alphabet (hs hmem)] at hblank
        cases hblank
      obtain ⟨_, rfl⟩ | ⟨_, rfl⟩ | ⟨_, rfl⟩ | rfl | rfl | rfl := Grammar.fault_of_ofTokens htokens h
      all_goals exact ⟨nofun, nofun⟩
    · exact ⟨nofun, nofun⟩
    · exact ⟨nofun, nofun⟩
  exact ⟨fun h => (hfault _ h).1 rfl, fun c p h => (hfault _ h).2 c p rfl⟩

/-- After any commands the expression is the text of an error or it is not empty and spelled with
the alphabet, so that the text of an error stands alone or not at all; and unless it is that, it is
not empty to the reader and no character of it is unexpected. -/
theorem run_alphabet (cs : List Command) (hcs : ∀ c ∈ cs, c.Offered) :
    (({} : Calculator).run cs).expression = errorText ∨
      (({} : Calculator).run cs).expression ≠ "" ∧
      (({} : Calculator).run cs).expression.toList ⊆ alphabet ∧
      'E' ∉ (({} : Calculator).run cs).expression.toList ∧
      ∀ m, evaluate m (({} : Calculator).run cs).expression ≠ .error .emptyExpression ∧
        ∀ c p, evaluate m (({} : Calculator).run cs).expression ≠ .error (.unexpectedChar c p) := by
  have hE : 'E' ∉ alphabet := by decide
  obtain h | ⟨hne, hs⟩ := Calculator.shown_run (k := {}) (.inr Calculator.spelled_blankText) hcs
  · exact .inl h
  · exact .inr ⟨hne, hs, fun h => hE (hs h), fun m => evaluate_of_subset m hne hs⟩

/-- The name of a function that has lost its parenthesis is still spelled with the alphabet. -/
theorem run_alphabet_sqrt :
    (({} : Calculator).run [.enter (.func .sqrt), .delete]).expression = "sqrt" ∧
      ∀ m c p, evaluate m "sqrt" ≠ .error (.unexpectedChar c p) := by
  have hcs : ∀ c ∈ [Command.enter (.func .sqrt), .delete], c.Offered := by
    intro c hc
    simp only [List.mem_cons, List.not_mem_nil, or_false] at hc
    obtain rfl | rfl := hc
    · exact .inl ⟨"sqrt", by decide⟩
    · exact .inl ⟨"delete", by decide⟩
  have hexpr : (({} : Calculator).run [.enter (.func .sqrt), .delete]).expression = "sqrt" := by
    decide
  have h := run_alphabet _ hcs
  rw [hexpr] at h
  obtain herror | ⟨_, _, _, heval⟩ := h
  · exact absurd herror (by decide)
  · exact ⟨hexpr, fun m => (heval m).2⟩

end SciCalc
