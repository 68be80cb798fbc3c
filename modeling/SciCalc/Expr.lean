import SciCalc.Func
import SciCalc.Number.Shortest

namespace SciCalc

inductive BinaryOp where
  | add | sub | mul | div | pow
  deriving DecidableEq, Repr

def BinaryOp.symbol : BinaryOp → String
  | add => "+"
  | sub => "-"
  | mul => "*"
  | div => "/"
  | pow => "^"

/-- Constants are literals, and neither brackets nor a plus sign leave a node. -/
inductive Expr where
  | lit (x : Float)
  | neg (a : Expr)
  | factorial (a : Expr)
  | binary (op : BinaryOp) (a b : Expr)
  | call (f : Func) (a : Expr)
  deriving DecidableEq

namespace Expr

/-- The number of nodes on the longest path from the root. -/
def height : Expr → Nat
  | lit _ => 1
  | neg a => a.height + 1
  | factorial a => a.height + 1
  | binary _ a b => max a.height b.height + 1
  | call _ a => a.height + 1

/-- Every node but a literal stands in brackets, a call in those of its argument. -/
def text : Expr → String
  | lit x => Number.text x
  | neg a => "(-" ++ a.text ++ ")"
  | factorial a => "(" ++ a.text ++ "!)"
  | binary op a b => "(" ++ a.text ++ " " ++ op.symbol ++ " " ++ b.text ++ ")"
  | call f a => f.name ++ "(" ++ a.text ++ ")"

end Expr

end SciCalc
