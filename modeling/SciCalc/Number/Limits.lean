import SciCalc.Number.Parts

namespace SciCalc.Number

def nan : Float := 0 / 0

def infinity : Float := 1 / 0

/-- The function `f` with its limits at the infinities, the negative one first. -/
def withLimits (low high : Float) (f : Float → Float) (x : Float) : Float :=
  if x.isFinite then f x
  else if x.isNaN then nan
  else if x < 0 then low
  else high

def isOdd (x : Float) : Bool := isWhole x && nearestInt x % 2 = 1

/-- The power of operands that are not both finite. With the exponent zero it is one whatever the
base, and with the base one whatever the exponent. -/
def powLimit (x y : Float) : Float :=
  if y == 0 || x == 1 then 1
  else if x.isNaN || y.isNaN then nan
  else if y.isInf then
    if x == -1 then 1
    else if (x.abs < 1 && 0 < y) || (1 < x.abs && y < 0) then 0
    else infinity
  else
    let size := if y < 0 then 0 else infinity
    if x < 0 && isOdd y then -size else size

def pow (x y : Float) : Float := if x.isFinite && y.isFinite then x.pow y else powLimit x y

end SciCalc.Number
