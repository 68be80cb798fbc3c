import SciCalc.Func
import SciCalc.Number.Shortest

namespace SciCalc

inductive Entry where
  | char (c : Char)
  | func (f : Func)
  | square
  | exponent
  | pi
  | euler
  deriving DecidableEq

/-- The text that an entry adds. A constant is added as the digits that read back as it. -/
def Entry.text : Entry → String
  | char c => String.singleton c
  | func f => f.name ++ "("
  | square => "^2"
  | exponent => "e"
  | pi => Number.text Number.pi
  | euler => Number.text Number.euler

inductive Command where
  | enter (e : Entry)
  | clear
  | delete
  | equals
  | toggleAngle
  deriving DecidableEq

namespace Command

/-- Characters that a button enters as they are. -/
def buttonChars : List Char := "0123456789.+-*/()^!".toList

/-- Characters that a key enters as they are. -/
def keyChars : List Char := "0123456789.+-*/()".toList

/-- The character of a text that is one of the `allowed` and nothing else. -/
def oneOf? (allowed : List Char) (s : String) : Option Char :=
  match s.toList with
  | [c] => if c ∈ allowed then some c else none
  | _ => none

/-- The buttons that stand for neither a character nor a function. -/
def ofNamedButton? : String → Option Command
  | "x²" => some (enter .square)
  | "exp" => some (enter .exponent)
  | "π" => some (enter .pi)
  | "e" => some (enter .euler)
  | "clear" => some clear
  | "delete" => some delete
  | "equals" => some equals
  | "toggle-angle-mode" => some toggleAngle
  | _ => none

def ofNamedKey? : String → Option Command
  | "Enter" | "=" => some equals
  | "Escape" => some clear
  | "Backspace" => some delete
  | _ => none

/-- The command of a button token. -/
def ofButton? (token : String) : Option Command :=
  match oneOf? buttonChars token with
  | some c => some (enter (.char c))
  | none =>
    match Func.ofName? token with
    | some f => some (enter (.func f))
    | none => ofNamedButton? token

/-- The command of a key name. -/
def ofKey? (key : String) : Option Command :=
  match oneOf? keyChars key with
  | some c => some (enter (.char c))
  | none => ofNamedKey? key

end Command

end SciCalc
