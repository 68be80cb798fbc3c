import SciCalc.Calculator
import SciCalc.Keypad

namespace SciCalc

inductive InputEvent where
  | text (s : String)
  | key (name : String) (pressed : Bool)
  | paste (s : String)
  deriving DecidableEq

/-- The keys that act by being pressed; all others act by the text they type. -/
def actingKeys : List String := ["Enter", "Escape", "Backspace"]

/-- The key names of an event: one for each typed character, and one for an acting key that goes
down. -/
def InputEvent.keys : InputEvent → List String
  | text s => s.toList.map String.singleton
  | key name pressed => if pressed && actingKeys.contains name then [name] else []
  | paste _ => []

inductive WindowStep where
  | frame (events : List InputEvent)
  | click (label : String)

namespace Calculator

/-- One frame of input. -/
def frame (k : Calculator) (events : List InputEvent) : Calculator :=
  (events.flatMap InputEvent.keys).foldl key k

/-- A click on the button with this label. -/
def click (k : Calculator) (label : String) : Calculator :=
  match Keypad.find? k.mode label with
  | some b => k.button b.token
  | none => k

def windowStep (k : Calculator) : WindowStep → Calculator
  | .frame events => k.frame events
  | .click label => k.click label

end Calculator

namespace Screen

def title : String := "Calculatrice scientifique"

/-- All texts in the order in which they are painted; an empty text is not painted. -/
def texts (k : Calculator) : List String :=
  ([title, k.mode.label, k.history, k.expression] ++ Keypad.rows.flatten.map Button.label).filter
    (· ≠ "")

/-- The texts in the colour of errors. -/
def errorTexts (k : Calculator) : List String :=
  if k.expression = errorText then [k.expression] else []

end Screen

end SciCalc
