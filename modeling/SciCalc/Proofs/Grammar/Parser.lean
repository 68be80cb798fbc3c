import SciCalc.Proofs.Grammar.Derivation

namespace SciCalc

open Grammar (Layer)

/-- What a parser does on its way and its result need not show. -/
inductive Parser.Event where
  /-- The counter is set to `n`. -/
  | level (n : Nat)
  /-- A tree is built, be it refused afterwards for its height. -/
  | tree (e : Expr)

/-- The reader with a state: a position in the tokens, and a counter of the `signed` phrases around
it, which is raised where one begins and lowered where it ends. -/
structure Parser where
  tokens : List Token
  /-- The number of tokens that have been passed. -/
  pos : Nat
  /-- The counter of levels. -/
  depth : Nat
  /-- All events so far, which the parser does not look at. -/
  trace : List Parser.Event

namespace Parser

/-- The tokens in front of the parser. -/
def ahead (p : Parser) : List Token := p.tokens.drop p.pos

def skip (p : Parser) : Parser := { p with pos := p.pos + 1 }

def setDepth (p : Parser) (n : Nat) : Parser :=
  { p with depth := n, trace := p.trace ++ [.level n] }

/-- A run without end is `none`. A fault takes back nothing of what happened before it. -/
abbrev Action (α : Type) : Type := ExceptT Fault (StateT Parser Option) α

def next? : Action (Option Token) := do
  let p ← get
  return p.tokens[p.pos]?

def advance : Action (Option Token) := do
  let t ← next?
  if t.isSome then modify skip
  return t

/-- Passes the next token if it is `t`. -/
def accept (t : Token) : Action Bool := do
  if (← next?) = some t then
    modify skip
    return true
  else return false

/-- The fault of a parser that cannot go on with the token that it is given. -/
def stuck {α : Type} (t : Option Token) : Action α := throw (Phrase.stuck t.toList)

def leaf (x : Float) : Action Node := do
  modify fun p => { p with trace := p.trace ++ [.tree (.lit x)] }
  return .lit x

/-- The tree is there before its height is looked at. -/
def root (below : Nat) (e : Expr) : Action Node := do
  modify fun p => { p with trace := p.trace ++ [.tree e] }
  MonadExcept.ofExcept (Node.above below e)

/-- What a parser can be called for: a phrase, or what goes on behind the first part of one. -/
inductive Routine where
  | chain (l : Layer)
  | rest (l : Layer) (left : Node)
  | signed
  | power
  | factorial
  | bangs (a : Node)
  | primary
  | bracketed

namespace Routine

def operand : Layer → Routine
  | .sum => chain .product
  | .product => signed

/-- The routine reads a phrase from its first token on. -/
def Starts : Routine → Prop
  | rest _ _ | bangs _ => False
  | _ => True

/-- The phrase that a routine is for, over the phrase for an operand one level down. -/
def phrase (operand : Phrase) : Routine → Phrase
  | chain .sum => Phrase.sum operand
  | chain .product => Phrase.product operand
  | rest .sum left => Phrase.chain Phrase.sumOp? (Phrase.product operand) left
  | rest .product left => Phrase.chain Phrase.productOp? operand left
  | signed => operand
  | power => Phrase.power operand
  | factorial => Phrase.factorial operand
  | bangs a => Phrase.bangs a
  | primary => Phrase.primary operand
  | bracketed => Phrase.bracketed operand

end Routine

/-- Nothing here says that a call comes to an end. The counter is lowered at the end of a level also
where that end is a fault; it stays raised only by the level that is refused. -/
def call : ReaderT Routine Action Node := fun
  | .chain l => do call.run (.rest l (← call.run (.operand l)))
  | .rest l left => do
    match (← next?).bind l.op? with
    | none => return left
    | some op =>
      modify skip
      let right ← call.run (.operand l)
      let whole ← root (max left.height right.height) (.binary op left.expr right.expr)
      call.run (.rest l whole)
  | .signed => do
    modify fun p => p.setDepth (p.depth + 1)
    if maxDepth < (← get).depth then throw (.tooDeep maxDepth)
    else
      ((do
        let outcome ← ExceptT.run do
          if ← accept .minus then
            let a ← call.run .signed
            root a.height (.neg a.expr)
          else if ← accept .plus then call.run .signed
          else call.run .power
        modify fun p => p.setDepth (p.depth - 1)
        return outcome) : StateT Parser Option (Except Fault Node))
  | .power => do
    let base ← call.run .factorial
    if ← accept .caret then
      let exponent ← call.run .signed
      root (max base.height exponent.height) (.binary .pow base.expr exponent.expr)
    else return base
  | .factorial => do call.run (.bangs (← call.run .primary))
  | .bangs a => do
    if ← accept .bang then call.run (.bangs (← root a.height (.factorial a.expr)))
    else return a
  | .primary => do
    match ← advance with
    | some (.num x) => leaf x
    | some .pi => leaf Number.pi
    | some .euler => leaf Number.euler
    | some (.word name) =>
      match Func.ofName? name with
      | none => throw (.unknownName name)
      | some f =>
        if ← accept .openParen then
          let argument ← call.run .bracketed
          root argument.height (.call f argument.expr)
        else stuck (← next?)
    | some .openParen => call.run .bracketed
    | t => stuck t
  | .bracketed => do
    let inside ← call.run (.chain .sum)
    match ← advance with
    | some .closeParen => return inside
    | none => throw .unclosedParen
    | t => stuck t
partial_fixpoint

/-- One sum and nothing behind it. -/
def whole : Action Expr := do
  let a ← call (.chain .sum)
  match ← next? with
  | none => return a.expr
  | t => stuck t

def tree (ts : List Token) : Option (Except Fault Expr) :=
  if ts.isEmpty then some (.error .emptyExpression)
  else (whole.run.run ⟨ts, 0, 0, []⟩).map (·.1)

/-- The parser is at the depth `d` in front of `ts`. -/
def At (d : Nat) (ts : List Token) (p : Parser) : Prop :=
  p.depth = d ∧ p.pos ≤ p.tokens.length ∧ p.ahead = ts

section
variable {α β : Type} {x : Action α} {k : α → Action β} {p q : Parser} {d : Nat} {ts : List Token}
  {t : Token}

theorem run_bind (x : Action α) (k : α → Action β) (p : Parser) :
    (x >>= k).run.run p = (x.run.run p).bind fun
      | (.ok a, q) => (k a).run.run q
      | (.error f, q) => some (.error f, q) := by
  change (x.run.run p).bind _ = _
  congr
  funext ⟨outcome, q⟩
  cases outcome <;> rfl

theorem run_bind_of_ok {a : α} (h : x.run.run p = some (.ok a, q)) :
    (x >>= k).run.run p = (k a).run.run q := by
  rw [run_bind, h]
  rfl

theorem run_bind_of_error {f : Fault} (h : x.run.run p = some (.error f, q)) :
    (x >>= k).run.run p = some (.error f, q) := by
  rw [run_bind, h]
  rfl

theorem At.drop (h : p.At d ts) {n : Nat} (hn : n ≤ ts.length) (trace : List Event) :
    At d (ts.drop n) ⟨p.tokens, p.pos + n, d, trace⟩ := by
  obtain ⟨-, hp, rfl⟩ := h
  rw [ahead, List.length_drop] at hn
  exact ⟨rfl, by simp only; omega, by rw [ahead, ahead, List.drop_drop]⟩

theorem At.skip (h : p.At d (t :: ts)) : p.skip.At d ts := by
  have hd := h.1
  subst hd
  exact h.drop (n := 1) (by simp) p.trace

theorem At.setDepth (h : p.At d ts) (n : Nat) : (p.setDepth n).At n ts := ⟨rfl, h.2⟩

theorem At.run_next? (h : p.At d ts) : next?.run.run p = some (.ok ts.head?, p) := by
  obtain ⟨-, -, rfl⟩ := h
  rw [ahead, List.head?_drop]
  rfl

theorem At.run_accept (h : p.At d (t :: ts)) : (accept t).run.run p = some (.ok true, p.skip) := by
  rw [accept, run_bind_of_ok h.run_next?, List.head?_cons, if_pos rfl]
  rfl

theorem At.run_accept_of_ne (h : p.At d ts) (ht : ts.head? ≠ some t) :
    (accept t).run.run p = some (.ok false, p) := by
  rw [accept, run_bind_of_ok h.run_next?, if_neg ht]
  rfl

theorem At.run_advance (h : p.At d ts) :
    advance.run.run p = some (.ok ts.head?, if ts.isEmpty then p else p.skip) := by
  rw [advance, run_bind_of_ok h.run_next?]
  cases ts <;> rfl

end

theorem run_signed (p : Parser) :
    (call .signed).run.run p =
      if maxDepth < p.depth + 1 then some (.error (.tooDeep maxDepth), p.setDepth (p.depth + 1))
      else
        ((do
          if ← accept .minus then
            let a ← call .signed
            root a.height (.neg a.expr)
          else if ← accept .plus then call .signed
          else call .power : Action Node).run.run (p.setDepth (p.depth + 1))).map
            fun (outcome, q) => (outcome, q.setDepth (q.depth - 1)) := by
  -- `call .signed` is on the right as well
  conv => lhs; rw [call]
  change (if maxDepth < p.depth + 1 then _ else _ : Action Node) (p.setDepth (p.depth + 1)) = _
  split
  · rfl
  · rw [Option.map_eq_bind]
    rfl

end Parser

end SciCalc
