import SciCalc.Command

namespace SciCalc

/-- A button: what is written on it and the token that it sends. -/
structure Button where
  label : String
  token : String
  deriving DecidableEq

namespace Keypad

/-- The rows of the keypad from top to bottom. -/
def rows : List (List Button) := [
  [⟨"sin", "sin"⟩, ⟨"cos", "cos"⟩, ⟨"tan", "tan"⟩, ⟨"(", "("⟩, ⟨")", ")"⟩],
  [⟨"asin", "asin"⟩, ⟨"acos", "acos"⟩, ⟨"atan", "atan"⟩, ⟨"^", "^"⟩, ⟨"!", "!"⟩],
  [⟨"√", "sqrt"⟩, ⟨"log", "log"⟩, ⟨"ln", "ln"⟩, ⟨"x²", "x²"⟩, ⟨"EXP", "exp"⟩],
  [⟨"π", "π"⟩, ⟨"e", "e"⟩, ⟨"C", "clear"⟩, ⟨"DEL", "delete"⟩, ⟨"/", "/"⟩],
  [⟨"7", "7"⟩, ⟨"8", "8"⟩, ⟨"9", "9"⟩, ⟨"*", "*"⟩],
  [⟨"4", "4"⟩, ⟨"5", "5"⟩, ⟨"6", "6"⟩, ⟨"-", "-"⟩],
  [⟨"1", "1"⟩, ⟨"2", "2"⟩, ⟨"3", "3"⟩, ⟨"+", "+"⟩],
  [⟨"0", "0"⟩, ⟨".", "."⟩, ⟨"=", "equals"⟩]]

/-- The button that shows the angle mode and changes it. -/
def angleButton (mode : AngleMode) : Button := ⟨mode.label, "toggle-angle-mode"⟩

/-- The button with a label, the angle button first. -/
def find? (mode : AngleMode) (label : String) : Option Button :=
  (angleButton mode :: rows.flatten).find? (·.label = label)

end Keypad

end SciCalc
