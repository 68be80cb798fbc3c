import SciCalc.Evaluation
import SciCalc.Command

namespace SciCalc

/-- The expression at the start and after clearing. -/
def blankText : String := "0"

/-- The expression being entered, or the result or error that took its place, and the expression
that was evaluated last. -/
structure Calculator where
  expression : String := blankText
  history : String := ""
  mode : AngleMode := .degrees
  deriving DecidableEq, Inhabited

namespace Calculator

/-- An error gives way to a new expression, and so does the initial zero unless a point is
entered. -/
def enter (k : Calculator) (e : Entry) : Calculator :=
  let shown := if k.expression = errorText then blankText else k.expression
  let kept := if shown = blankText ∧ e.text ≠ "." then "" else shown
  { k with expression := kept ++ e.text }

/-- Takes the last character away; an error goes as a whole, and zero stands for nothing. -/
def delete (k : Calculator) : Calculator :=
  if k.expression = errorText ∨ k.expression.length ≤ 1 then { k with expression := blankText }
  else { k with expression := String.ofList k.expression.toList.dropLast }

def clear (k : Calculator) : Calculator := { k with expression := blankText, history := "" }

def toggleAngle (k : Calculator) : Calculator := { k with mode := k.mode.toggle }

def showResult (k : Calculator) (r : Option Float) : Calculator :=
  { k with expression := resultText r }

/-- The value of the expression if it has one. -/
def result (k : Calculator) : Option Float := value? k.mode k.expression

/-- The expression becomes the history and its result takes its place. -/
def equals (k : Calculator) : Calculator :=
  { k with history := k.expression }.showResult k.result

def execute (k : Calculator) : Command → Calculator
  | .enter e => k.enter e
  | .clear => k.clear
  | .delete => k.delete
  | .equals => k.equals
  | .toggleAngle => k.toggleAngle

@[simp] theorem enter_history (k : Calculator) (e : Entry) : (k.enter e).history = k.history := rfl

@[simp] theorem enter_mode (k : Calculator) (e : Entry) : (k.enter e).mode = k.mode := rfl

@[simp] theorem delete_history (k : Calculator) : k.delete.history = k.history := by
  unfold delete
  split <;> rfl

@[simp] theorem delete_mode (k : Calculator) : k.delete.mode = k.mode := by
  unfold delete
  split <;> rfl

@[simp] theorem equals_expression (k : Calculator) : k.equals.expression = resultText k.result :=
  rfl

@[simp] theorem equals_mode (k : Calculator) : k.equals.mode = k.mode := rfl

def run (k : Calculator) (commands : List Command) : Calculator := commands.foldl execute k

@[simp] theorem run_nil (k : Calculator) : k.run [] = k := rfl

@[simp] theorem run_cons (k : Calculator) (c : Command) (cs : List Command) :
    k.run (c :: cs) = (k.execute c).run cs := rfl

theorem run_append (k : Calculator) (cs ds : List Command) :
    k.run (cs ++ ds) = (k.run cs).run ds := by
  simp [run]

theorem run_concat (k : Calculator) (cs : List Command) (c : Command) :
    k.run (cs ++ [c]) = (k.run cs).execute c := by
  rw [run_append]
  rfl

/-- A button token or key name without a command changes nothing. -/
def perform (k : Calculator) (c : Option Command) : Calculator := k.run c.toList

def button (k : Calculator) (token : String) : Calculator := k.perform (Command.ofButton? token)

def key (k : Calculator) (name : String) : Calculator := k.perform (Command.ofKey? name)

end Calculator

end SciCalc
