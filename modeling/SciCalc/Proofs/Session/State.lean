import SciCalc.Window
import SciCalc.Proofs.Session.Alphabet

namespace SciCalc

open Number

/-- The commands `cs` end in the evaluation of what `ds` left, if changes of the angle mode are not
counted. -/
def Command.EndsEvaluating (ds cs : List Command) : Prop :=
  ∃ es, cs = ds ++ .equals :: es ∧ ∀ c ∈ es, c = .toggleAngle

namespace Calculator

variable {k : Calculator}

theorem execute_mode_of_ne {c : Command} (hc : c ≠ .toggleAngle) : (k.execute c).mode = k.mode := by
  cases c with
  | enter e => exact enter_mode k e
  | clear => rfl
  | delete => exact delete_mode k
  | equals => exact equals_mode k
  | toggleAngle => exact absurd rfl hc

/-- Only an evaluation and clearing write the history. -/
theorem execute_history_of_ne {c : Command} (he : c ≠ .equals) (hc : c ≠ .clear) :
    (k.execute c).history = k.history := by
  cases c with
  | enter e => exact enter_history k e
  | clear => exact absurd rfl hc
  | delete => exact delete_history k
  | equals => exact absurd rfl he
  | toggleAngle => rfl

/-- Of what is offered only an evaluation and a change of the mode can leave the text of an
error. -/
theorem spelled_execute_of_ne (h : Shown k.expression) {c : Command} (hoffered : c.Offered)
    (he : c ≠ .equals) (ht : c ≠ .toggleAngle) : Spelled (k.execute c).expression := by
  cases c with
  | enter e => exact spelled_enter h hoffered
  | clear => exact spelled_blankText
  | delete => exact spelled_delete h
  | equals => exact absurd rfl he
  | toggleAngle => exact absurd rfl ht

theorem run_mode_iff (cs : List Command) :
    (({} : Calculator).run cs).mode = .degrees ↔ Even (cs.count .toggleAngle) := by
  induction cs using List.reverseRecOn with
  | nil => decide
  | append_singleton cs c ih =>
    rw [run_concat, List.count_append]
    by_cases hc : c = .toggleAngle
    · subst hc
      have htoggle : ∀ m : AngleMode, m.toggle = .degrees ↔ ¬m = .degrees := by
        intro m
        cases m <;> decide
      rw [List.count_singleton_self, Nat.even_add_one, ← ih]
      exact htoggle _
    · rw [execute_mode_of_ne hc, List.count_singleton, if_neg (by simpa using hc), Nat.add_zero]
      exact ih

/-- What none of the commands changes is as it was. -/
theorem run_unchanged {α : Type} (f : Calculator → α) {cs : List Command}
    (h : ∀ c ∈ cs, ∀ k, f (execute k c) = f k) (k : Calculator) : f (k.run cs) = f k := by
  induction cs generalizing k with
  | nil => rfl
  | cons c cs ih =>
    obtain ⟨hc, hcs⟩ := List.forall_mem_cons.mp h
    rw [run_cons, ih hcs, hc]

theorem run_history_of_not_mem {es : List Command} (he : .equals ∉ es) (hc : .clear ∉ es) :
    (k.run es).history = k.history := by
  refine run_unchanged history (fun c hmem k => execute_history_of_ne ?_ ?_) k
  · rintro rfl
    exact he hmem
  · rintro rfl
    exact hc hmem

theorem run_mode_of_not_mem {es : List Command} (ht : .toggleAngle ∉ es) :
    (k.run es).mode = k.mode := by
  refine run_unchanged mode (fun c hmem k => execute_mode_of_ne ?_) k
  rintro rfl
  exact ht hmem

/-- The history is what the last evaluation found, if nothing has been cleared since. -/
theorem run_history_of_equals {ds es : List Command} (he : .equals ∉ es) (hc : .clear ∉ es) :
    (k.run (ds ++ .equals :: es)).history = (k.run ds).expression := by
  rw [run_append, run_cons, run_history_of_not_mem he hc]
  rfl

/-- Without an evaluation that has not been cleared the history is empty. -/
theorem run_history_eq_empty {cs : List Command}
    (h : ∀ ds es, cs = ds ++ .equals :: es → .clear ∈ es) :
    (({} : Calculator).run cs).history = "" := by
  induction cs using List.reverseRecOn with
  | nil => rfl
  | append_singleton cs c ih =>
    rw [run_concat]
    by_cases hc : c = .clear
    · subst hc
      rfl
    have he : c ≠ .equals := by
      rintro rfl
      exact absurd (h cs [] rfl) List.not_mem_nil
    rw [execute_history_of_ne he hc]
    refine ih fun ds es hcs => ?_
    have hmem : .clear ∈ es ++ [c] :=
      h ds (es ++ [c]) (by rw [hcs, List.append_assoc, List.cons_append])
    obtain hes | hlast := List.mem_append.mp hmem
    · exact hes
    · exact absurd (List.mem_singleton.mp hlast).symm hc

theorem run_of_toggles {es : List Command} (h : ∀ c ∈ es, c = .toggleAngle) :
    (k.run es).expression = k.expression ∧ (k.run es).history = k.history := by
  refine ⟨run_unchanged expression (fun c hc k => ?_) k, run_unchanged history (fun c hc k => ?_) k⟩
  · rw [h c hc]
    rfl
  · rw [h c hc]
    rfl

/-- Behind an evaluation the display shows its result, and the history what it evaluated. -/
theorem run_of_endsEvaluating {ds cs : List Command} (h : Command.EndsEvaluating ds cs) :
    (k.run cs).expression = resultText (value? (k.run ds).mode (k.run cs).history) := by
  obtain ⟨es, rfl, hes⟩ := h
  obtain ⟨hexpr, hhist⟩ := run_of_toggles (k := (k.run ds).equals) hes
  rw [run_append, run_cons]
  change ((k.run ds).equals.run es).expression =
    resultText (value? (k.run ds).mode ((k.run ds).equals.run es).history)
  rw [hexpr, hhist]
  rfl

/-- The text of an error comes from an evaluation, behind which only the mode has been changed. -/
theorem endsEvaluating_of_errorText {cs : List Command} (hcs : ∀ c ∈ cs, c.Offered)
    (h : (({} : Calculator).run cs).expression = errorText) :
    ∃ ds, Command.EndsEvaluating ds cs := by
  induction cs using List.reverseRecOn with
  | nil => exact absurd h (by decide)
  | append_singleton cs c ih =>
    have hbefore : ∀ d ∈ cs, d.Offered := fun d hd => hcs d (List.mem_append_left _ hd)
    by_cases he : c = .equals
    · subst he
      exact ⟨cs, [], rfl, by simp⟩
    rw [run_concat] at h
    by_cases ht : c = .toggleAngle
    · subst ht
      obtain ⟨ds, es, rfl, hes⟩ := ih hbefore h
      refine ⟨ds, es ++ [.toggleAngle], by rw [List.append_assoc, List.cons_append], ?_⟩
      intro d hd
      obtain hd | hd := List.mem_append.mp hd
      · exact hes d hd
      · exact List.mem_singleton.mp hd
    · have hshown := shown_run (k := {}) (.inr spelled_blankText) hbefore
      exact absurd h (spelled_execute_of_ne hshown (hcs c (by simp)) he ht).ne_errorText

end Calculator

theorem resultText_eq_errorText_iff {m : AngleMode} {s : String} :
    resultText (value? m s) = errorText ↔ value? m s = none := by
  cases hv : value? m s with
  | none => exact ⟨fun _ => rfl, fun _ => rfl⟩
  | some v => exact ⟨fun h => absurd h (spelled_resultText hv).ne_errorText, nofun⟩

/-- The commands `cs` end in an evaluation of a text that has no value in the mode of that
evaluation. -/
def Command.Fails (cs : List Command) : Prop :=
  ∃ ds, EndsEvaluating ds cs ∧
    value? (({} : Calculator).run ds).mode (({} : Calculator).run cs).history = none

theorem Screen.mem_errorTexts_iff (k : Calculator) :
    k.expression ∈ Screen.errorTexts k ↔ k.expression = errorText := by
  unfold Screen.errorTexts
  split <;> simp_all

open Calculator in
theorem expression_eq_errorText_iff {cs : List Command} (hcs : ∀ c ∈ cs, c.Offered) :
    (({} : Calculator).run cs).expression = errorText ↔ Command.Fails cs := by
  constructor
  · intro h
    obtain ⟨ds, hds⟩ := endsEvaluating_of_errorText hcs h
    rw [run_of_endsEvaluating hds, resultText_eq_errorText_iff] at h
    exact ⟨ds, hds, h⟩
  · rintro ⟨ds, hds, hv⟩
    rw [run_of_endsEvaluating hds, hv]
    rfl

/-- What any commands leave. The mode is that of degrees after an even number of changes. The
history is what stood in the display at the last evaluation, unless something has been cleared since
or nothing was evaluated. The display shows an error, in the colour of errors, exactly if the last
command is an evaluation that failed, where changes of the mode do not count; and the result of the
last command if that is an evaluation with a value. -/
theorem state_of_commands (cs : List Command) (hcs : ∀ c ∈ cs, c.Offered) :
    ((({} : Calculator).run cs).mode = .degrees ↔ Even (cs.count .toggleAngle)) ∧
    (∀ ds es, cs = ds ++ .equals :: es → .equals ∉ es → .clear ∉ es →
      (({} : Calculator).run cs).history = (({} : Calculator).run ds).expression) ∧
    ((∀ ds es, cs = ds ++ .equals :: es → .clear ∈ es) → (({} : Calculator).run cs).history = "") ∧
    ((({} : Calculator).run cs).expression = errorText ↔ Command.Fails cs) ∧
    ((({} : Calculator).run cs).expression ∈ Screen.errorTexts (({} : Calculator).run cs) ↔
      Command.Fails cs) ∧
    ∀ ds v, Command.EndsEvaluating ds cs →
      value? (({} : Calculator).run ds).mode (({} : Calculator).run cs).history = some v →
      (({} : Calculator).run cs).expression = resultText (some v) := by
  refine ⟨Calculator.run_mode_iff cs, ?_, Calculator.run_history_eq_empty,
    expression_eq_errorText_iff hcs, ?_, ?_⟩
  · rintro ds es rfl he hc
    exact Calculator.run_history_of_equals he hc
  · rw [Screen.mem_errorTexts_iff]
    exact expression_eq_errorText_iff hcs
  · intro ds v hds hv
    rw [Calculator.run_of_endsEvaluating hds, hv]

/-- A division by zero is shown as an error, also after the mode has been changed, and kept as the
history. -/
theorem state_of_commands_division :
    (({} : Calculator).run [.enter (.char '1'), .enter (.char '/'), .enter (.char '0'), .equals,
        .toggleAngle]).expression = errorText ∧
      (({} : Calculator).run [.enter (.char '1'), .enter (.char '/'), .enter (.char '0'), .equals,
        .toggleAngle]).history = "1/0" ∧
      (({} : Calculator).run [.enter (.char '1'), .enter (.char '/'), .enter (.char '0'), .equals,
        .toggleAngle]).mode = .radians := by
  have hcs : ∀ c ∈
      [Command.enter (.char '1'), .enter (.char '/'), .enter (.char '0'), .equals, .toggleAngle],
      c.Offered := by
    intro c hc
    simp only [List.mem_cons, List.not_mem_nil, or_false] at hc
    obtain rfl | rfl | rfl | rfl | rfl := hc
    · exact .inl ⟨"1", by decide⟩
    · exact .inl ⟨"/", by decide⟩
    · exact .inl ⟨"0", by decide⟩
    · exact .inr ⟨"Enter", by decide⟩
    · exact .inl ⟨"toggle-angle-mode", by decide⟩
  obtain ⟨hmode, hhistory, _, herror, _, _⟩ := state_of_commands _ hcs
  have hends : Command.EndsEvaluating [.enter (.char '1'), .enter (.char '/'), .enter (.char '0')]
      [.enter (.char '1'), .enter (.char '/'), .enter (.char '0'), .equals, .toggleAngle] :=
    ⟨[.toggleAngle], rfl, by simp⟩
  have hhist :=
    hhistory [.enter (.char '1'), .enter (.char '/'), .enter (.char '0')] [.toggleAngle] rfl
      (by decide) (by decide)
  have htext : (({} : Calculator).run
      [.enter (.char '1'), .enter (.char '/'), .enter (.char '0')]).expression = "1/0" := by decide
  rw [htext] at hhist
  refine ⟨herror.mpr ⟨_, hends, ?_⟩, hhist, ?_⟩
  · rw [hhist]
    decide +kernel
  · have hodd : ¬Even ([Command.enter (.char '1'), .enter (.char '/'), .enter (.char '0'), .equals,
        .toggleAngle].count .toggleAngle) := by decide
    have hne := hmode.not.mpr hodd
    revert hne
    generalize (({} : Calculator).run _).mode = m
    cases m <;> simp

end SciCalc
