import SciCalc.Window
import SciCalc.Proofs.Session.State

namespace SciCalc

/-- One thing that a user does. -/
inductive Gesture where
  | char (c : Char)
  | key (name : String) (pressed : Bool)
  | paste (s : String)
  | pad (b : Button)
  | angle
  deriving DecidableEq

/-- The command that a gesture stands for: that of the character typed, of an acting key that goes
down, or of the button clicked. -/
def Gesture.command? : Gesture → Option Command
  | char c => Command.ofKey? (String.singleton c)
  | key name pressed =>
    if pressed ∧ (name = "Enter" ∨ name = "Escape" ∨ name = "Backspace") then Command.ofKey? name
    else none
  | paste _ => none
  | pad b => Command.ofButton? b.token
  | angle => Command.ofButton? "toggle-angle-mode"

/-- A text is typed character by character. -/
def InputEvent.gestures : InputEvent → List Gesture
  | text s => s.toList.map .char
  | key name pressed => [.key name pressed]
  | paste s => [.paste s]

/-- What can happen in a window: a frame of input, or a click on a button that is there. -/
inductive WindowAction where
  | frame (events : List InputEvent)
  | pad (b : Button) (hb : b ∈ Keypad.rows.flatten)
  | angle

namespace WindowAction

/-- The action as a step of the window. The angle button is found by the mode that it shows. -/
def step (mode : AngleMode) : WindowAction → WindowStep
  | frame events => .frame events
  | pad b _ => .click b.label
  | angle => .click (Keypad.angleButton mode).label

def gestures : WindowAction → List Gesture
  | frame events => events.flatMap InputEvent.gestures
  | pad b _ => [.pad b]
  | angle => [.angle]

end WindowAction

/-- The commands of what is done in a window, in the order in which it is done. -/
def WindowAction.commands (as : List WindowAction) : List Command :=
  (as.flatMap gestures).filterMap Gesture.command?

theorem WindowAction.commands_cons (a : WindowAction) (as : List WindowAction) :
    commands (a :: as) = a.gestures.filterMap Gesture.command? ++ commands as :=
  List.filterMap_append

namespace Command

/-- A character gives itself or an evaluation. -/
theorem of_ofKey?_singleton {c : Char} {d : Command} (h : ofKey? (String.singleton c) = some d) :
    d = .equals ∨ ∃ c' ∈ keyChars, d = .enter (.char c') := by
  unfold ofKey? at h
  split at h
  · rename_i c' hc'
    cases h
    exact .inr ⟨c', mem_of_oneOf? hc', rfl⟩
  · have hlen : (String.singleton c).length = 1 := by simp
    unfold ofNamedKey? at h
    split at h
    case h_1 | h_2 => exact .inl (Option.some.inj h).symm
    case h_3 hname | h_4 hname =>
      rw [hname] at hlen
      exact absurd hlen (by decide)
    case h_5 => cases h

/-- No key changes the angle mode. -/
theorem ofKey?_ne_toggleAngle (name : String) : ofKey? name ≠ some .toggleAngle := by
  unfold ofKey? ofNamedKey?
  split
  · nofun
  · split <;> nofun

end Command

/-- The names of the keys of an event give the commands of its gestures. -/
theorem InputEvent.filterMap_keys (e : InputEvent) :
    e.keys.filterMap Command.ofKey? = e.gestures.filterMap Gesture.command? := by
  cases e with
  | text s =>
    simp only [keys, gestures, List.filterMap_map]
    rfl
  | key name pressed =>
    have hact : actingKeys.contains name = true ↔
        name = "Enter" ∨ name = "Escape" ∨ name = "Backspace" := by
      simp [actingKeys]
    simp only [keys, gestures, Bool.and_eq_true, hact]
    by_cases h : pressed = true ∧ (name = "Enter" ∨ name = "Escape" ∨ name = "Backspace")
    · rw [if_pos h, List.filterMap_cons, List.filterMap_cons, Gesture.command?, if_pos h]
      rfl
    · rw [if_neg h, List.filterMap_cons_none (by rw [Gesture.command?, if_neg h])]
      rfl
  | paste s => rfl

namespace Keypad

/-- No two buttons have the same label, and none that of the angle button. -/
theorem find?_label {b : Button} (hb : b ∈ rows.flatten) (m : AngleMode) :
    find? m b.label = some b := by
  have hall : ∀ m : AngleMode, rows.flatten.all (fun b => find? m b.label = some b) = true := by
    intro m
    cases m <;> decide
  simpa using List.all_eq_true.mp (hall m) b hb

theorem find?_angleButton (m : AngleMode) :
    find? m (angleButton m).label = some (angleButton m) := by
  simp [find?]

end Keypad

namespace Calculator

variable (k : Calculator)

/-- What happens in the window in one action. -/
def act (a : WindowAction) : Calculator := k.windowStep (a.step k.mode)

theorem foldl_key (names : List String) :
    names.foldl key k = k.run (names.filterMap Command.ofKey?) := by
  induction names generalizing k with
  | nil => rfl
  | cons name names ih =>
    rw [List.foldl_cons, ih, key, perform]
    cases hc : Command.ofKey? name with
    | none => rw [List.filterMap_cons_none hc]; rfl
    | some c => rw [List.filterMap_cons_some hc]; rfl

theorem frame_eq_run (events : List InputEvent) :
    k.frame events = k.run ((events.flatMap InputEvent.gestures).filterMap Gesture.command?) := by
  rw [frame, foldl_key, List.filterMap_flatMap, List.filterMap_flatMap]
  simp only [InputEvent.filterMap_keys]

/-- An action executes the commands of its gestures. -/
theorem act_eq_run (a : WindowAction) :
    k.act a = k.run (a.gestures.filterMap Gesture.command?) := by
  cases a with
  | frame events => exact k.frame_eq_run events
  | pad b hb =>
    change k.click b.label = k.run ([Gesture.pad b].filterMap Gesture.command?)
    rw [click, Keypad.find?_label hb]
    change k.run (Command.ofButton? b.token).toList = _
    cases hc : Command.ofButton? b.token <;> simp [Gesture.command?, hc]
  | angle =>
    change k.click (Keypad.angleButton k.mode).label =
      k.run ([Gesture.angle].filterMap Gesture.command?)
    rw [click, Keypad.find?_angleButton]
    change k.run (Command.ofButton? "toggle-angle-mode").toList = _
    have hangle : Command.ofButton? "toggle-angle-mode" = some .toggleAngle := by decide
    simp [Gesture.command?, hangle]

theorem foldl_act (as : List WindowAction) : as.foldl act k = k.run (WindowAction.commands as) := by
  induction as generalizing k with
  | nil => rfl
  | cons a as ih =>
    rw [List.foldl_cons, ih, act_eq_run, ← run_append, WindowAction.commands_cons]

theorem frame_mode (events : List InputEvent) : (k.frame events).mode = k.mode := by
  rw [frame, foldl_key]
  refine run_mode_of_not_mem fun h => ?_
  obtain ⟨name, _, hname⟩ := List.mem_filterMap.mp h
  exact Command.ofKey?_ne_toggleAngle name hname

end Calculator

open Calculator

/-- The window adds nothing to the calculator. Whatever is done in it leaves what the commands of
the characters typed, of the acting keys and of the buttons clicked leave when they are executed in
order, and the same whatever frames the input arrives in and however a text is split. Input alone
never changes the angle mode, and a text never clears or deletes, whatever is written in it. -/
theorem window_runs_commands :
    (∀ as : List WindowAction, as.foldl act {} = ({} : Calculator).run (WindowAction.commands as)) ∧
    (∀ as bs : List WindowAction,
      as.flatMap WindowAction.gestures = bs.flatMap WindowAction.gestures →
      as.foldl act {} = bs.foldl act ({} : Calculator)) ∧
    (∀ (k : Calculator) (frames : List (List InputEvent)),
      ((frames.map WindowAction.frame).foldl act k).mode = k.mode) ∧
    ∀ s, ∀ c ∈ WindowAction.commands [.frame [.text s]], c ≠ .clear ∧ c ≠ .delete := by
  refine ⟨foldl_act {}, ?_, ?_, ?_⟩
  · intro as bs h
    rw [foldl_act, foldl_act, WindowAction.commands, h, WindowAction.commands]
  · intro k frames
    induction frames generalizing k with
    | nil => rfl
    | cons events frames ih =>
      rw [List.map_cons, List.foldl_cons, ih]
      exact k.frame_mode events
  · intro s c hc
    obtain ⟨g, hg, hgc⟩ := List.mem_filterMap.mp hc
    simp only [WindowAction.gestures, InputEvent.gestures, List.flatMap_cons, List.flatMap_nil,
      List.append_nil, List.mem_map] at hg
    obtain ⟨c', _, rfl⟩ := hg
    obtain rfl | ⟨c', _, rfl⟩ := Command.of_ofKey?_singleton hgc
    · exact ⟨nofun, nofun⟩
    · exact ⟨nofun, nofun⟩

/-- The name of a key that is typed or pasted, or is that of a key that goes up, does nothing; and a
text may be typed in one frame or in several. -/
theorem window_runs_commands_names :
    ([.frame [.text "1+2=", .text "Escape", .key "Escape" false, .paste "Escape"],
        .angle].foldl act {} : Calculator) = ⟨"3", "1+2", .radians⟩ ∧
      ([.frame [.text "1+2"], .frame [.text "=Escape", .key "Escape" false], .frame [],
        .frame [.paste "Escape"], .angle].foldl act {} : Calculator) =
        ⟨"3", "1+2", .radians⟩ := by
  obtain ⟨hrun, hframes, _⟩ := window_runs_commands
  have hfirst : ([.frame [.text "1+2=", .text "Escape", .key "Escape" false, .paste "Escape"],
      .angle].foldl act {} : Calculator) = ⟨"3", "1+2", .radians⟩ := by
    rw [hrun]
    decide +kernel
  refine ⟨hfirst, ?_⟩
  rw [← hfirst]
  exact hframes _ _ (by decide)

end SciCalc
