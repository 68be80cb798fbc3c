import SciCalc.Angle
import SciCalc.Number.Limits

namespace SciCalc

open Number (withLimits nan infinity)

/-- The scientific functions of one argument. -/
inductive Func where
  | sin | cos | tan | asin | acos | atan | sqrt | log | ln
  deriving DecidableEq, Repr

namespace Func

def all : List Func := [sin, cos, tan, asin, acos, atan, sqrt, log, ln]

/-- The word by which an expression calls the function. -/
def name : Func → String
  | sin => "sin"
  | cos => "cos"
  | tan => "tan"
  | asin => "asin"
  | acos => "acos"
  | atan => "atan"
  | sqrt => "sqrt"
  | log => "log"
  | ln => "ln"

def ofName? (s : String) : Option Func := all.find? (·.name = s)

theorem ofName?_name (f : Func) : ofName? f.name = some f := by
  cases f <;> rfl

theorem name_of_ofName? {s : String} {f : Func} (h : ofName? s = some f) : f.name = s := by
  simpa using List.find?_some h

theorem name_inj {f g : Func} (h : f.name = g.name) : f = g := by
  have hf := ofName?_name f
  rw [h, ofName?_name] at hf
  exact (Option.some.inj hf).symm

/-- Whether the function takes or gives an angle. -/
def isTrig : Func → Bool
  | sin | cos | tan | asin | acos | atan => true
  | sqrt | log | ln => false

/-- The value at `x`; outside its domain a function gives `NaN` or an infinity. -/
def apply (mode : AngleMode) : Func → Float → Float
  | sin, x => withLimits nan nan Float.sin (mode.toRadians x)
  | cos, x => withLimits nan nan Float.cos (mode.toRadians x)
  | tan, x => withLimits nan nan Float.tan (mode.toRadians x)
  | asin, x => mode.ofRadians (withLimits nan nan Float.asin x)
  | acos, x => mode.ofRadians (withLimits nan nan Float.acos x)
  | atan, x => mode.ofRadians (withLimits (-(Number.pi / 2)) (Number.pi / 2) Float.atan x)
  | sqrt, x => x.sqrt
  | log, x => withLimits nan infinity Float.log10 x
  | ln, x => withLimits nan infinity Float.log x

/-- The value of a trigonometric function or of its inverse; the others have none here. -/
def trig? (mode : AngleMode) (f : Func) (x : Float) : Option Float :=
  if f.isTrig then some (f.apply mode x) else none

theorem apply_of_not_isTrig {f : Func} (h : f.isTrig = false) (m n : AngleMode) (x : Float) :
    f.apply m x = f.apply n x := by
  cases f <;> first | rfl | cases h

end Func

end SciCalc
