import SciCalc.Calculator
import SciCalc.Proofs.Evaluation.AngleMode

namespace SciCalc

/-- The commands but for the changes of the angle mode. -/
def Command.others (cs : List Command) : List Command := cs.filter (· ≠ .toggleAngle)

namespace Command

@[simp] theorem others_toggle (cs : List Command) : others (cs ++ [.toggleAngle]) = others cs := by
  simp [others]

theorem others_concat {c : Command} (hc : c ≠ .toggleAngle) (cs : List Command) :
    others (cs ++ [c]) = others cs ++ [c] := by
  simp [others, hc]

end Command

namespace Calculator

open Command (others others_toggle others_concat)

/-- The same expression and the same history, in whatever modes. -/
def ShowsAs (k l : Calculator) : Prop := k.expression = l.expression ∧ k.history = l.history

variable {k l : Calculator}

theorem result_eq (he : k.expression = l.expression)
    (hm : Trigonometric k.expression → k.mode = l.mode) : k.result = l.result := by
  unfold result value?
  rw [← he]
  by_cases ht : Trigonometric k.expression
  · rw [hm ht]
  · rw [evaluate_eq_of_not_trigonometric ht k.mode l.mode]

/-- A command keeps two calculators alike, unless it evaluates a trigonometric text in two modes. -/
theorem ShowsAs.execute (h : ShowsAs k l) {c : Command}
    (hc : c = .equals → Trigonometric k.expression → k.mode = l.mode) :
    ShowsAs (k.execute c) (l.execute c) := by
  obtain ⟨he, hh⟩ := h
  cases c with
  | enter e =>
    refine ⟨?_, hh⟩
    simp only [Calculator.execute, Calculator.enter, he]
  | clear => exact ⟨rfl, rfl⟩
  | delete =>
    simp only [ShowsAs, Calculator.execute, delete_history]
    refine ⟨?_, hh⟩
    unfold Calculator.delete
    rw [he]
    split <;> rfl
  | equals =>
    refine ⟨?_, he⟩
    simp only [Calculator.execute, equals_expression, result_eq he (hc rfl)]
  | toggleAngle => exact ⟨he, hh⟩

/-- Changes of the mode alone are not seen. -/
theorem ShowsAs.run_of_others_eq_nil {ds : List Command} (h : ShowsAs k l) (hds : others ds = []) :
    ShowsAs k (l.run ds) := by
  induction ds using List.reverseRecOn with
  | nil => exact h
  | append_singleton ds d ih =>
    by_cases hd : d = .toggleAngle
    · subst hd
      rw [others_toggle] at hds
      rw [run_concat]
      exact ih hds
    · rw [others_concat hd] at hds
      exact absurd hds (by simp)

/-- Sessions with the same other commands show the same if they are in the same mode whenever a
trigonometric text is evaluated. -/
theorem ShowsAs.run {cs ds : List Command} (h : ShowsAs k l) (hothers : others cs = others ds)
    (hmode : ∀ cs' ds',
      cs' ++ [.equals] <+: cs → ds' ++ [.equals] <+: ds → others cs' = others ds' →
      Trigonometric (k.run cs').expression → (k.run cs').mode = (l.run ds').mode) :
    ShowsAs (k.run cs) (l.run ds) := by
  induction cs using List.reverseRecOn generalizing ds with
  | nil => exact h.run_of_others_eq_nil hothers.symm
  | append_singleton cs c ihc =>
    by_cases hc : c = .toggleAngle
    · subst hc
      rw [others_toggle] at hothers
      rw [run_concat]
      exact ihc hothers fun cs' ds' hcs => hmode cs' ds' (hcs.trans (List.prefix_append _ _))
    -- the commands of `ds` are passed over until the one that corresponds to `c`
    induction ds using List.reverseRecOn with
    | nil =>
      rw [others_concat hc] at hothers
      exact absurd hothers (by simp [others])
    | append_singleton ds d ihd =>
      by_cases hd : d = .toggleAngle
      · subst hd
        rw [others_toggle] at hothers
        rw [run_concat l]
        exact ihd hothers fun cs' ds' hcs hds =>
          hmode cs' ds' hcs (hds.trans (List.prefix_append _ _))
      rw [others_concat hc, others_concat hd] at hothers
      obtain ⟨hsame, rfl⟩ := List.append_singleton_inj.mp hothers
      rw [run_concat, run_concat]
      have hbefore : ShowsAs (k.run cs) (l.run ds) := by
        refine ihc hsame fun cs' ds' hcs hds => hmode cs' ds' ?_ ?_
        · exact hcs.trans (List.prefix_append _ _)
        · exact hds.trans (List.prefix_append _ _)
      refine hbefore.execute fun he => ?_
      subst he
      exact hmode cs ds List.prefix_rfl List.prefix_rfl hsame

end Calculator

open Command Calculator

/-- The angle mode is seen only where a text with a trigonometric function is evaluated. A text
without one has the same value, or the same fault, in both modes; and two sessions that are in the
same mode at each evaluation of a text with one show the same after the same other commands,
wherever the mode is changed in each. -/
theorem angle_mode_unseen :
    (∀ s, ¬Trigonometric s → ∀ m n, evaluate m s = evaluate n s) ∧
    ∀ cs ds : List Command,
      (∀ cs' ds', cs' ++ [.equals] <+: cs → ds' ++ [.equals] <+: ds → others cs' = others ds' →
        Trigonometric (({} : Calculator).run cs').expression →
        (({} : Calculator).run cs').mode = (({} : Calculator).run ds').mode) →
      ∀ cs' ds', cs' <+: cs → ds' <+: ds → others cs' = others ds' →
        (({} : Calculator).run cs').expression = (({} : Calculator).run ds').expression ∧
        (({} : Calculator).run cs').history = (({} : Calculator).run ds').history := by
  refine ⟨fun s hs => evaluate_eq_of_not_trigonometric hs, ?_⟩
  intro cs ds hmode cs' ds' hcs hds hothers
  have hstart : ShowsAs {} {} := ⟨rfl, rfl⟩
  refine hstart.run hothers fun cs'' ds'' hcs' hds' => ?_
  exact hmode cs'' ds'' (hcs'.trans hcs) (hds'.trans hds)

/-- A change to radians and back around the text of a sine does not show in its value. -/
theorem angle_mode_unseen_sin :
    Trigonometric "sin(90)" ∧
    (({} : Calculator).run [.toggleAngle, .enter (.func .sin), .enter (.char '9'),
        .enter (.char '0'), .enter (.char ')'), .toggleAngle, .equals]).expression =
      (({} : Calculator).run [.enter (.func .sin), .enter (.char '9'), .enter (.char '0'),
        .enter (.char ')'), .equals]).expression := by
  have hts : Token.ofString "sin(90)" = .ok [.word "sin", .openParen, .num 90, .closeParen] := by
    decide +kernel
  refine ⟨⟨_, hts, .sin, rfl, by decide⟩, ?_⟩
  have hlast : ∀ body cs' : List Command, Command.equals ∉ body →
      cs' ++ [.equals] <+: body ++ [.equals] → cs' = body := by
    intro body cs' hbody hcs
    obtain heq | hcs := List.prefix_concat_iff.mp hcs
    · exact (List.append_singleton_inj.mp heq).1
    · exact absurd (hcs.subset (by simp)) hbody
  refine (angle_mode_unseen.2 _ _ ?_ _ _ List.prefix_rfl List.prefix_rfl (by decide)).1
  intro cs' ds' hcs hds _ _
  rw [hlast [.toggleAngle, .enter (.func .sin), .enter (.char '9'), .enter (.char '0'),
      .enter (.char ')'), .toggleAngle] cs' (by decide) hcs,
    hlast [.enter (.func .sin), .enter (.char '9'), .enter (.char '0'), .enter (.char ')')] ds'
      (by decide) hds]
  decide

/-- The value of an arctangent is an angle. -/
example :
    value? .degrees "atan(1/0)" = some 90 ∧ value? .radians "atan(1/0)" = some 1.5707963268 := by
  decide +kernel

end SciCalc
