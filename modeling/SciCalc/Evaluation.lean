import SciCalc.Expr.Phrase
import SciCalc.Token.Lexer

namespace SciCalc

/-- Beyond `170!` no factorial is finite. -/
def maxFactorial : Float := 170

/-- The product of `2`, `3`, …, `n`, multiplied in this order. -/
def factorialProduct (n : Nat) : Float :=
  (List.range' 2 (n - 1)).foldl (fun (product : Float) (i : Nat) => product * Number.ofInt i) 1

/-- The factorial of a whole number: `NaN` below zero and infinite above `170!`. A fraction has
none, and neither has infinity, which is not whole. -/
def factorial (x : Float) : Except Fault Float :=
  if x.isNaN || x < 0 then .ok Number.nan
  else if !Number.isWhole x then .error (.factorialOfFraction x)
  else if maxFactorial < x then .ok Number.infinity
  else .ok (factorialProduct (Number.nearestInt x).toNat)

def BinaryOp.apply : BinaryOp → Float → Float → Float
  | add, x, y => x + y
  | sub, x, y => x - y
  | mul, x, y => x * y
  | div, x, y => x / y
  | pow, x, y => Number.pow x y

/-- The value of a tree, operands from left to right. Infinities and `NaN` are values here. -/
def Expr.eval (mode : AngleMode) : Expr → Except Fault Float
  | lit x => .ok x
  | neg a => do return -(← a.eval mode)
  | factorial a => do SciCalc.factorial (← a.eval mode)
  | binary op a b => do
    let x ← a.eval mode
    let y ← b.eval mode
    return op.apply x y
  | call f a => do return f.apply mode (← a.eval mode)

/-- The value of an expression, to ten decimals, or why it has none. -/
def evaluate (mode : AngleMode) (s : String) : Except Fault Float :=
  let cs := Text.trim s.toList
  if cs.isEmpty then .error .emptyExpression
  else do
    let tree ← Expr.ofTokens (← Token.ofChars cs)
    let x ← tree.eval mode
    if x.isFinite then .ok (Number.toTenDecimals x) else .error (.notFinite x)

/-- The value of an expression if it has one. -/
def value? (mode : AngleMode) (s : String) : Option Float := (evaluate mode s).toOption

/-- What is shown in place of a value that does not exist. -/
def errorText : String := "Error"

/-- What is shown of a result: all faults look the same. -/
def resultText : Option Float → String
  | some x => Number.resultText x
  | none => errorText

end SciCalc
