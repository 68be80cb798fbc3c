import SciCalc.Proofs.Session.Alphabet

namespace SciCalc

open Number

/-- A text that stays in the display, whatever is entered: it is not the initial zero, and no text
that starts with it is that of an error. -/
structure Lasting (s : String) : Prop where
  ne_empty : s ≠ ""
  ne_blankText : s ≠ blankText
  head : s.toList.head? ≠ some 'E'

namespace Lasting

variable {s : String}

theorem ne_errorText (h : Lasting s) : s ≠ errorText := by
  rintro rfl
  exact h.head rfl

theorem append (h : Lasting s) (t : String) : Lasting (s ++ t) := by
  obtain ⟨c, cs, hs⟩ := List.exists_cons_of_ne_nil (show s.toList ≠ [] by simpa using h.ne_empty)
  have hst : (s ++ t).toList = c :: (cs ++ t.toList) := by simp [hs]
  refine ⟨fun he => ?_, fun he => ?_, ?_⟩
  · rw [he] at hst
    cases hst
  · rw [he] at hst
    obtain ⟨rfl, hnil⟩ := List.cons.inj hst
    obtain ⟨rfl, _⟩ := List.append_eq_nil_iff.mp hnil.symm
    exact h.ne_blankText (String.toList_inj.mp hs)
  · have hhead := h.head
    rw [hs] at hhead
    rwa [hst]

end Lasting

theorem Spelled.lasting {s : String} (h : Spelled s) (hne : s ≠ blankText) : Lasting s := by
  have hE : 'E' ∉ alphabet := by decide
  exact ⟨h.1, hne, fun hhead => hE (h.2 (List.mem_of_head? hhead))⟩

namespace Calculator

variable {k : Calculator}

theorem enter_of_lasting (h : Lasting k.expression) (e : Entry) :
    k.enter e = { k with expression := k.expression ++ e.text } := by
  unfold enter
  simp only
  rw [if_neg h.ne_errorText, if_neg fun hb => h.ne_blankText hb.1]

theorem enter_of_blankText (h : k.expression = blankText) {e : Entry} (he : e.text ≠ ".") :
    k.enter e = { k with expression := e.text } := by
  have hne : k.expression ≠ errorText := by
    rw [h]
    decide
  unfold enter
  simp only
  rw [if_neg hne, if_pos ⟨h, he⟩, String.empty_append]

/-- Entries put their texts behind a text that stays. -/
theorem run_enter (h : Lasting k.expression) (es : List Entry) :
    k.run (es.map .enter) =
      { k with expression := k.expression ++ String.join (es.map Entry.text) } := by
  induction es generalizing k with
  | nil => simp
  | cons e es ih =>
    rw [List.map_cons, run_cons, execute, enter_of_lasting h, ih (h.append e.text)]
    simp [String.append_assoc]

end Calculator

/-- The entries that a computation is continued with. -/
def operators : List Entry :=
  [.char '+', .char '-', .char '*', .char '/', .char '^', .char '!', .square]

theorem lasting_text_of_mem {op : Entry} (h : op ∈ operators) : Lasting op.text := by
  have hall : ∀ op ∈ operators, op.text ≠ "" ∧ op.text ≠ blankText ∧
      op.text.toList.head? ≠ some 'E' := by decide
  obtain ⟨hempty, hblank, hhead⟩ := hall op h
  exact ⟨hempty, hblank, hhead⟩

/-- Among results zero alone is shown as the initial zero. -/
theorem resultText_eq_blankText_iff {m : AngleMode} {s : String} {v : Float}
    (h : value? m s = some v) :
    Number.resultText v = blankText ↔ v = 0 := by
  obtain ⟨x, hx, rfl⟩ := value?_eq_some h
  have hzero : text 0 = blankText := by decide +kernel
  rw [resultText_eq_text (toTenDecimals_ne_negative_zero hx), ← hzero]
  refine ⟨text_inj (isFinite_toTenDecimals hx) (by decide +kernel), fun he => by rw [he]⟩

/-- The text that a continued computation starts with: the result that is shown, or none if that is
zero. -/
def continued (v : Float) : String := if v = 0 then "" else Number.resultText v

theorem run_enter_equals {k : Calculator} {v : Float} (hv : k.result = some v) {op : Entry}
    (hop : op ∈ operators) (es : List Entry) :
    k.equals.run ((op :: es).map .enter) =
      { k.equals with expression := continued v ++ String.join ((op :: es).map Entry.text) } := by
  have hshown : k.equals.expression = Number.resultText v := by
    rw [Calculator.equals_expression, hv]
    rfl
  have hlasting := lasting_text_of_mem hop
  unfold continued
  by_cases hz : Number.resultText v = blankText
  -- the operator takes the place of the zero
  · have hpoint : ∀ op ∈ operators, op.text ≠ "." := by decide
    rw [if_pos ((resultText_eq_blankText_iff hv).mp hz), List.map_cons, Calculator.run_cons,
      Calculator.execute, Calculator.enter_of_blankText (hshown.trans hz) (hpoint op hop),
      Calculator.run_enter hlasting]
    simp
  · rw [if_neg fun h => hz ((resultText_eq_blankText_iff hv).mpr h), ← hshown]
    exact Calculator.run_enter (hshown ▸ (spelled_resultText hv).lasting hz) (op :: es)

/-- Behind an operator, what is entered after an evaluation is put behind its result, except that a
zero gives way to the operator; and that text is evaluated next, in the mode as it was. -/
theorem result_continued (k : Calculator) {v : Float} (hv : k.result = some v) {op : Entry}
    (hop : op ∈ operators) (es : List Entry) :
    k.equals.run ((op :: es).map .enter ++ [.equals]) =
      { expression :=
          resultText (value? k.mode (continued v ++ String.join ((op :: es).map Entry.text)))
        history := continued v ++ String.join ((op :: es).map Entry.text)
        mode := k.mode } := by
  rw [Calculator.run_concat, run_enter_equals hv hop]
  rfl

/-- A result that is not zero is continued with its text. -/
theorem result_continued_nine :
    ({ expression := "3*3" } : Calculator).result = some 9 ∧ Entry.char '+' ∈ operators ∧
      ({ expression := "3*3" } : Calculator).equals.run
          ([.char '+', .char '1'].map .enter ++ [.equals]) =
        { expression := "10", history := "9+1", mode := .degrees } := by
  have hv : ({ expression := "3*3" } : Calculator).result = some 9 := by decide +kernel
  have hop : Entry.char '+' ∈ operators := by decide
  have h := result_continued _ hv hop [.char '1']
  have hhistory : continued 9 ++ String.join ([Entry.char '+', .char '1'].map Entry.text) =
      "9+1" := by decide +kernel
  have hten : resultText (value? .degrees "9+1") = "10" := by decide +kernel
  rw [hhistory] at h
  exact ⟨hv, hop, h.trans (by rw [hten])⟩

/-- A zero is not continued: the factorial sign takes its place, and has no operand. -/
theorem zero_not_continued :
    (({} : Calculator).run
        [.enter (.char '1'), .enter (.char '-'), .enter (.char '1')]).result = some 0 ∧
      Number.resultText 0 = "0" ∧ Entry.char '!' ∈ operators ∧
      ({} : Calculator).run [.enter (.char '1'), .enter (.char '-'), .enter (.char '1'), .equals,
        .enter (.char '!'), .equals] =
          { expression := errorText, history := "!", mode := .degrees } ∧
      resultText (value? .degrees ("0" ++ "!")) = "1" := by
  decide +kernel

end SciCalc
