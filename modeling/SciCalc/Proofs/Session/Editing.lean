import SciCalc.Proofs.Session.Typing

namespace SciCalc

/-- What the display shows when `es` have been entered and `d` stood there before. The texts of the
entries stand behind `d`, unless that is the initial zero or the text of an error. These give way:
then the zeros that are entered first are without effect, and a zero stands alone or in front of a
point. -/
def displayAfter (d : String) (es : List Entry) : String :=
  if d ≠ blankText ∧ d ≠ errorText then d ++ String.join (es.map Entry.text)
  else
    match es.dropWhile (· = .char '0') with
    | [] => blankText
    | e :: es' =>
      (if e = .char '.' then blankText else "") ++ String.join ((e :: es').map Entry.text)

theorem displayAfter_of_ne {d : String} (hb : d ≠ blankText) (he : d ≠ errorText)
    (es : List Entry) :
    displayAfter d es = d ++ String.join (es.map Entry.text) := by
  simp [displayAfter, hb, he]

theorem displayAfter_errorText (es : List Entry) :
    displayAfter errorText es = displayAfter blankText es := by
  simp [displayAfter]

theorem displayAfter_blankText_zero (es : List Entry) :
    displayAfter blankText (.char '0' :: es) = displayAfter blankText es := by
  simp [displayAfter]

theorem displayAfter_blankText_cons {e : Entry} (he : e ≠ .char '0') (es : List Entry) :
    displayAfter blankText (e :: es) =
      (if e = .char '.' then blankText else "") ++ String.join ((e :: es).map Entry.text) := by
  simp [displayAfter, he]

/-- No name, square or constant is a single character, and the exponent is an `e`. -/
theorem Entry.text_eq_singleton_iff {e : Entry} {c : Char} (hc : c ≠ 'e') :
    e.text = String.singleton c ↔ e = .char c := by
  have hlen : (String.singleton c).length = 1 := by simp
  constructor
  · intro h
    cases e with
    | char d => simpa [Entry.text, ← String.toList_inj] using h
    | exponent => exact absurd (String.toList_inj.mpr h) (by simpa [Entry.text] using Ne.symm hc)
    | func f =>
      rw [← h] at hlen
      cases f <;> exact absurd hlen (by decide)
    | _ =>
      rw [← h] at hlen
      exact absurd hlen (by decide)
  · intro h
    simp [h, Entry.text]

theorem Command.offered_char {c : Char} (hc : c ∈ buttonChars) : Offered (.enter (.char c)) :=
  .inl ⟨String.singleton c, by simp [ofButton?, oneOf?, hc]⟩

theorem Command.Offered.lasting {e : Entry} (h : Offered (.enter e)) (he : e ≠ .char '0') :
    Lasting e.text := by
  refine Spelled.lasting ⟨e.text_ne_empty, h.text_subset⟩ fun hzero => he ?_
  exact (Entry.text_eq_singleton_iff (by decide)).mp hzero

namespace Calculator

variable {k : Calculator} {es : List Entry}

theorem enter_of_errorText (h : k.expression = errorText) (e : Entry) :
    k.enter e = ({ k with expression := blankText } : Calculator).enter e := by
  have hne : blankText ≠ errorText := by decide
  simp [enter, h, hne]

theorem enter_zero (h : k.expression = blankText) : k.enter (.char '0') = k := by
  have hzero : (Entry.char '0').text = k.expression := h.symm
  rw [enter_of_blankText h (by decide), hzero]

/-- By induction on the entries: a zero changes nothing, and behind any other first entry the texts
follow. -/
theorem run_enter_of_blankText (h : k.expression = blankText)
    (hes : ∀ e ∈ es, Command.Offered (.enter e)) :
    k.run (es.map .enter) = { k with expression := displayAfter blankText es } := by
  induction es with
  | nil => simp [displayAfter, ← h]
  | cons e es ih =>
    have hrest : ∀ e ∈ es, Command.Offered (.enter e) :=
      fun e he => hes e (List.mem_cons_of_mem _ he)
    rw [List.map_cons, run_cons, execute]
    by_cases hzero : e = .char '0'
    · rw [hzero, enter_zero h, displayAfter_blankText_zero]
      exact ih hrest
    · have hlasting : Lasting e.text := (hes e List.mem_cons_self).lasting hzero
      rw [displayAfter_blankText_cons hzero]
      by_cases hpoint : e = .char '.'
      · have hshown : k.enter e = { k with expression := blankText ++ e.text } := by
          simp [enter, h, hpoint, Entry.text, show blankText ≠ errorText by decide]
        have hkept : Lasting (blankText ++ e.text) := by
          rw [hpoint]
          exact ⟨by decide, by decide, by decide⟩
        rw [hshown, run_enter hkept, if_pos hpoint]
        simp [String.append_assoc]
      · have htext : e.text ≠ "." :=
          fun ht => hpoint ((Entry.text_eq_singleton_iff (by decide)).mp ht)
        rw [enter_of_blankText h htext, run_enter hlasting, if_neg hpoint]
        simp

/-- The closed form of entering, wherever it begins. -/
theorem run_enter_eq (h : Shown k.expression) (hne : es ≠ [])
    (hes : ∀ e ∈ es, Command.Offered (.enter e)) :
    k.run (es.map .enter) = { k with expression := displayAfter k.expression es } := by
  by_cases hblank : k.expression = blankText
  · rw [run_enter_of_blankText hblank hes, hblank]
  by_cases herror : k.expression = errorText
  · obtain ⟨e, es, rfl⟩ := List.exists_cons_of_ne_nil hne
    have hrun := run_enter_of_blankText (k := { k with expression := blankText }) rfl hes
    rw [List.map_cons, run_cons, execute] at hrun ⊢
    rw [enter_of_errorText herror, hrun, herror, displayAfter_errorText]
  · have hspelled : Spelled k.expression := h.resolve_left herror
    rw [displayAfter_of_ne hblank herror]
    exact run_enter (hspelled.lasting hblank) es

theorem spelled_run_enter (h : Spelled k.expression) (hes : ∀ e ∈ es, Command.Offered (.enter e)) :
    Spelled (k.run (es.map .enter)).expression := by
  induction es generalizing k with
  | nil => exact h
  | cons e es ih =>
    have hfirst : Spelled (k.enter e).expression :=
      spelled_enter (.inr h) (hes e List.mem_cons_self)
    exact ih hfirst fun e he => hes e (List.mem_cons_of_mem _ he)

end Calculator

/-- What is left of a text when `n` characters have been deleted at its end; zero stands for
nothing. -/
def shortened (s : String) (n : ℕ) : String :=
  if n < s.length then String.ofList (s.toList.take (s.length - n)) else blankText

theorem shortened_of_le {s : String} {n : ℕ} (h : s.length ≤ n) : shortened s n = blankText :=
  if_neg (Nat.not_lt.mpr h)

theorem length_pos_of_ne {s : String} (hs : s ≠ "") : 0 < s.length := by
  rw [← String.length_toList]
  exact List.length_pos_iff.mpr (by simpa using hs)

theorem shortened_append {s : String} (hs : s ≠ "") (t : String) :
    shortened (s ++ t) t.length = s := by
  have hpos := length_pos_of_ne hs
  have hlt : t.length < (s ++ t).length := by
    rw [String.length_append]
    omega
  have hlen : (s ++ t).length - t.length = s.toList.length := by
    rw [String.length_append, String.length_toList, Nat.add_sub_cancel]
  rw [shortened, if_pos hlt, hlen, String.toList_append, List.take_left, String.ofList_toList]

theorem shortened_zero {s : String} (hs : s ≠ "") : shortened s 0 = s := by
  have h := shortened_append hs ""
  rwa [String.append_empty] at h

theorem shortened_blankText (n : ℕ) : shortened blankText n = blankText := by
  cases n with
  | zero => rfl
  | succ n => exact shortened_of_le (Nat.le_add_left 1 n)

/-- Deletions add up. -/
theorem shortened_add (s : String) (m n : ℕ) :
    shortened s (m + n) = shortened (shortened s m) n := by
  by_cases hm : m < s.length
  · have hfirst : shortened s m = String.ofList (s.toList.take (s.length - m)) := if_pos hm
    have hlen : (shortened s m).length = s.length - m := by
      rw [hfirst, String.length_ofList, List.length_take, String.length_toList]
      omega
    have hmin : min (s.length - m - n) (s.length - m) = s.length - (m + n) := by omega
    have hiff : m + n < s.length ↔ n < s.length - m := by omega
    generalize shortened s m = t at hfirst hlen ⊢
    rw [shortened, shortened, hlen, hfirst, String.toList_ofList, List.take_take, hmin]
    simp only [hiff]
  · have hle := Nat.le_of_not_lt hm
    rw [shortened_of_le hle, shortened_of_le (by omega), shortened_blankText]

namespace Calculator

variable {k : Calculator} {es : List Entry}

theorem delete_eq (h : Spelled k.expression) :
    k.delete = { k with expression := shortened k.expression 1 } := by
  have herror := h.ne_errorText
  unfold delete shortened
  by_cases hone : k.expression.length ≤ 1
  · rw [if_pos (.inr hone), if_neg (Nat.not_lt.mpr hone)]
  · rw [if_neg (by simp [herror, hone]), if_pos (Nat.lt_of_not_le hone), List.dropLast_eq_take,
      String.length_toList]

/-- The closed form of deleting. -/
theorem run_delete (h : Spelled k.expression) (n : ℕ) :
    k.run (List.replicate n .delete) = { k with expression := shortened k.expression n } := by
  induction n generalizing k with
  | zero => simp [shortened_zero h.1]
  | succ n ih =>
    rw [List.replicate_succ, run_cons, execute, ih (spelled_delete (.inr h)), delete_eq h,
      Nat.add_comm n 1, shortened_add]

end Calculator

/-- Zero gives way to no more characters than are entered. -/
theorem shortened_displayAfter_blankText (es : List Entry) :
    shortened (displayAfter blankText es) (String.join (es.map Entry.text)).length = blankText := by
  induction es with
  | nil => rfl
  | cons e es ih =>
    by_cases hzero : e = .char '0'
    · have hlen : (String.join ((e :: es).map Entry.text)).length =
        (String.join (es.map Entry.text)).length + 1 := by
        rw [hzero, List.map_cons, String.join_cons, String.length_append]
        exact Nat.add_comm 1 _
      rw [hlen, hzero, displayAfter_blankText_zero, shortened_add, ih, shortened_blankText]
    · rw [displayAfter_blankText_cons hzero]
      by_cases hpoint : e = .char '.'
      · rw [if_pos hpoint, shortened_append (by decide)]
      · rw [if_neg hpoint, String.empty_append, shortened_of_le (Nat.le_refl _)]

/-- What entries leave has a closed form: their texts behind what stood in the display, except where
that was the initial zero or the text of an error. History and mode stay. -/
theorem display_after_entries (cs : List Command) (hcs : ∀ c ∈ cs, c.Offered) (es : List Entry)
    (hne : es ≠ []) (hes : ∀ e ∈ es, Command.Offered (.enter e)) :
    (({} : Calculator).run cs).run (es.map .enter) =
      { expression := displayAfter (({} : Calculator).run cs).expression es
        history := (({} : Calculator).run cs).history
        mode := (({} : Calculator).run cs).mode } := by
  have hshown := Calculator.shown_run (k := {}) (.inr Calculator.spelled_blankText) hcs
  exact Calculator.run_enter_eq hshown hne hes

/-- Behind an error zeros are entered without effect, and a point behind a zero. -/
theorem display_after_entries_error :
    (({} : Calculator).run [.enter (.char '1'), .enter (.char '/'), .enter (.char '0'),
        .equals]).expression = errorText ∧
    (({} : Calculator).run [.enter (.char '1'), .enter (.char '/'), .enter (.char '0'),
        .equals]).run ([.char '0', .char '0', .char '.', .char '5'].map .enter) =
      { expression := "0.5", history := "1/0", mode := .degrees } := by
  have hcs : ∀ c ∈ [Command.enter (.char '1'), .enter (.char '/'), .enter (.char '0'), .equals],
      c.Offered := by
    simp only [List.forall_mem_cons]
    exact ⟨Command.offered_char (by decide), Command.offered_char (by decide),
      Command.offered_char (by decide), .inl ⟨"equals", by decide⟩, by simp⟩
  have hes : ∀ e ∈ [Entry.char '0', .char '0', .char '.', .char '5'],
      Command.Offered (.enter e) := by
    simp only [List.forall_mem_cons]
    exact ⟨Command.offered_char (by decide), Command.offered_char (by decide),
      Command.offered_char (by decide), Command.offered_char (by decide), by simp⟩
  have hstate :
      ({} : Calculator).run [.enter (.char '1'), .enter (.char '/'), .enter (.char '0'), .equals] =
      { expression := errorText, history := "1/0", mode := .degrees } := by decide +kernel
  have hdisplay : displayAfter errorText [.char '0', .char '0', .char '.', .char '5'] = "0.5" := by
    decide
  have h := display_after_entries _ hcs _ (by simp) hes
  rw [hstate, hdisplay] at h
  exact ⟨by rw [hstate], by rw [hstate]; exact h⟩

/-- Deleting as many characters as entries have gives back the state that they found, unless that
was an error; and on the way the display is never empty. -/
theorem delete_undoes_entries (cs : List Command) (hcs : ∀ c ∈ cs, c.Offered)
    (herror : (({} : Calculator).run cs).expression ≠ errorText) (es : List Entry)
    (hes : ∀ e ∈ es, Command.Offered (.enter e)) :
    (({} : Calculator).run cs).run
        (es.map .enter ++ List.replicate (String.join (es.map Entry.text)).length .delete) =
      ({} : Calculator).run cs ∧
    ∀ ds, ds <+: es.map .enter ++ List.replicate (String.join (es.map Entry.text)).length .delete →
      ((({} : Calculator).run cs).run ds).expression ≠ "" := by
  have hshown := Calculator.shown_run (k := {}) (.inr Calculator.spelled_blankText) hcs
  generalize ({} : Calculator).run cs = k at herror hshown
  have hspelled : Spelled k.expression := hshown.resolve_left herror
  constructor
  · have hentered := Calculator.spelled_run_enter hspelled hes
    rw [Calculator.run_append, Calculator.run_delete hentered]
    by_cases hblank : k.expression = blankText
    · rw [Calculator.run_enter_of_blankText hblank hes]
      simp only
      rw [shortened_displayAfter_blankText, ← hblank]
    · rw [Calculator.run_enter (hspelled.lasting hblank)]
      simp only
      rw [shortened_append hspelled.1]
  · intro ds hds
    have hoffered : ∀ d ∈ ds, d.Offered := by
      intro d hd
      obtain hd | hd := List.mem_append.mp (hds.subset hd)
      · obtain ⟨e, he, rfl⟩ := List.mem_map.mp hd
        exact hes e he
      · rw [List.eq_of_mem_replicate hd]
        exact .inl ⟨"delete", by decide⟩
    obtain h | h := Calculator.shown_run hshown hoffered
    · rw [h]
      decide
    · exact h.1

/-- A zero that is entered on the initial zero is deleted as well, although it has not been put
behind it. -/
theorem delete_undoes_entries_zero :
    (({} : Calculator).run []).expression ≠ errorText ∧
    (({} : Calculator).run ([.char '0', .char '.', .char '5', .func .sqrt].map .enter)).expression =
      "0.5sqrt(" ∧
    (({} : Calculator).run []).run ([.char '0', .char '.', .char '5', .func .sqrt].map .enter ++
        List.replicate 8 .delete) = ({} : Calculator).run [] := by
  have hes : ∀ e ∈ [Entry.char '0', .char '.', .char '5', .func .sqrt],
      Command.Offered (.enter e) := by
    simp only [List.forall_mem_cons]
    exact ⟨Command.offered_char (by decide), Command.offered_char (by decide),
      Command.offered_char (by decide), .inl ⟨"sqrt", by decide⟩, by simp⟩
  have herror : (({} : Calculator).run []).expression ≠ errorText := by decide
  have hlen : (String.join
      ([Entry.char '0', .char '.', .char '5', .func .sqrt].map Entry.text)).length = 8 := by
    decide
  have h := (delete_undoes_entries [] (by simp) herror _ hes).1
  rw [hlen] at h
  exact ⟨herror, by decide, h⟩

end SciCalc
