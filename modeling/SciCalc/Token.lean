import SciCalc.Number.Shortest

namespace SciCalc

/-- The words and signs of an expression. -/
inductive Token where
  | num (x : Float)
  | pi
  | euler
  | word (name : String)
  | plus
  | minus
  | star
  | slash
  | caret
  | bang
  | openParen
  | closeParen
  deriving DecidableEq

namespace Token

def text : Token → String
  | num x => Number.text x
  | pi => "π"
  | euler => "e"
  | word name => name
  | plus => "+"
  | minus => "-"
  | star => "*"
  | slash => "/"
  | caret => "^"
  | bang => "!"
  | openParen => "("
  | closeParen => ")"

/-- The tokens with a space between any two of them. -/
def listText (ts : List Token) : String := " ".intercalate (ts.map text)

end Token

end SciCalc
