import SciCalc.Expr.Node

namespace SciCalc

/-- The greatest number of `signed` phrases inside each other. -/
def maxDepth : Nat := 256

/-- A phrase of the grammar

    sum       := product (('+' | '-') product)*
    product   := signed (('*' | '/') signed)*
    signed    := ('+' | '-') signed | power
    power     := factorial ('^' signed)?
    factorial := primary '!'*
    primary   := number | 'π' | 'e' | function '(' sum ')' | '(' sum ')'

takes its tokens from the front and leaves the others. All but `signed` are written over the phrase
for an operand one level down. -/
abbrev Phrase := List Token → Except Fault (Node × List Token)

namespace Phrase

/-- The fault of a phrase that cannot go on with the tokens that are left. -/
def stuck : List Token → Fault
  | [] => .unexpectedEnd
  | .closeParen :: _ => .unopenedParen
  | t :: _ => .unexpectedToken t

def sumOp? : Token → Option BinaryOp
  | .plus => some .add
  | .minus => some .sub
  | _ => none

def productOp? : Token → Option BinaryOp
  | .star => some .mul
  | .slash => some .div
  | _ => none

/-- Goes on after `left` with operators and operands, grouped to the left. It ends because the tree
on the left grows with every operator. -/
def chain (op? : Token → Option BinaryOp) (operand : Phrase) (left : Node) : Phrase
  | [] => .ok (left, [])
  | t :: ts =>
    match op? t with
    | none => .ok (left, t :: ts)
    | some op =>
      match operand ts with
      | .error fault => .error fault
      | .ok (right, rest) =>
        match _h : Node.binary op left right with
        | .error fault => .error fault
        | .ok whole => chain op? operand whole rest
  termination_by maxHeight - left.height
  decreasing_by
    have := Node.height_lt_of_binary _h
    omega

def product (operand : Phrase) : Phrase := fun ts => do
  let (left, rest) ← operand ts
  chain productOp? operand left rest

def sum (operand : Phrase) : Phrase := fun ts => do
  let (left, rest) ← product operand ts
  chain sumOp? (product operand) left rest

/-- What stands behind an opening parenthesis. -/
def bracketed (operand : Phrase) : Phrase := fun ts => do
  let (inside, rest) ← sum operand ts
  match rest with
  | .closeParen :: rest => .ok (inside, rest)
  | [] => .error .unclosedParen
  | rest => .error (stuck rest)

/-- The argument of a function always stands in parentheses. -/
def primary (operand : Phrase) : Phrase
  | .num x :: ts => .ok (.lit x, ts)
  | .pi :: ts => .ok (.lit Number.pi, ts)
  | .euler :: ts => .ok (.lit Number.euler, ts)
  | .openParen :: ts => bracketed operand ts
  | .word name :: ts =>
    match Func.ofName? name with
    | none => .error (.unknownName name)
    | some f =>
      match ts with
      | .openParen :: ts => do
        let (argument, rest) ← bracketed operand ts
        return (← Node.call f argument, rest)
      | ts => .error (stuck ts)
  | ts => .error (stuck ts)

/-- Factorial signs behind `a`. -/
def bangs (a : Node) : Phrase
  | .bang :: ts => do bangs (← a.factorial) ts
  | ts => .ok (a, ts)

def factorial (operand : Phrase) : Phrase := fun ts => do
  let (a, rest) ← primary operand ts
  bangs a rest

/-- The exponent may have a sign, and powers group to the right. -/
def power (operand : Phrase) : Phrase := fun ts => do
  let (base, rest) ← factorial operand ts
  match rest with
  | .caret :: rest => do
    let (exponent, rest) ← operand rest
    return (← Node.binary .pow base exponent, rest)
  | rest => .ok (base, rest)

/-- At most `depth` levels: this one and those inside it. -/
def signed : (depth : Nat) → Phrase
  | 0, _ => .error (.tooDeep maxDepth)
  | depth + 1, .minus :: ts => do
    let (a, rest) ← signed depth ts
    return (← a.neg, rest)
  | depth + 1, .plus :: ts => signed depth ts
  | depth + 1, ts => power (signed depth) ts

end Phrase

/-- The tree of a list of tokens that is one sum and nothing else. -/
def Expr.ofTokens (ts : List Token) : Except Fault Expr :=
  if ts.isEmpty then .error .emptyExpression
  else do
    let (whole, rest) ← Phrase.sum (Phrase.signed maxDepth) ts
    if rest.isEmpty then .ok whole.expr else .error (Phrase.stuck rest)

end SciCalc
