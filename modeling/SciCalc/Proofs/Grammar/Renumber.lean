import SciCalc.Proofs.Grammar.Reading

namespace SciCalc

section
variable (φ : Float → Float)

/-- A number instead of each number and of each constant. -/
def Token.mapNum : Token → Token
  | num x => num (φ x)
  | pi => num (φ Number.pi)
  | euler => num (φ Number.euler)
  | t => t

def Fault.mapNum : Fault → Fault
  | unexpectedToken t => unexpectedToken (t.mapNum φ)
  | f => f

def Expr.mapLit : Expr → Expr
  | lit x => lit (φ x)
  | neg a => neg a.mapLit
  | factorial a => factorial a.mapLit
  | binary op a b => binary op a.mapLit b.mapLit
  | call f a => call f a.mapLit

def Node.mapLit (n : Node) : Node := ⟨n.expr.mapLit φ, n.height⟩

/-- What is left of a phrase and its tree, both with the numbers replaced. -/
def Phrase.mapNum (found : Node × List Token) : Node × List Token :=
  (found.1.mapLit φ, found.2.map (Token.mapNum φ))

/-- An outcome with the numbers replaced, in the fault as in what is found. -/
def Fault.carry {α β : Type} (f : α → β) (x : Except Fault α) : Except Fault β :=
  (x.map f).mapError (Fault.mapNum φ)

/-- A phrase that does not look at numbers. -/
def Phrase.Blind (p : Phrase) : Prop :=
  ∀ ts, p (ts.map (Token.mapNum φ)) = Fault.carry φ (Phrase.mapNum φ) (p ts)

end

variable {φ : Float → Float}

theorem Fault.carry_bind {α α' β β' : Type} {f : α → α'} {g : β → β'} {x : Except Fault α}
    {x' : Except Fault α'} {k : α → Except Fault β} {k' : α' → Except Fault β'}
    (hx : x' = carry φ f x) (hk : ∀ a, x = .ok a → k' (f a) = carry φ g (k a)) :
    (x' >>= k') = carry φ g (x >>= k) := by
  subst hx
  cases x with
  | error f => rfl
  | ok a => exact hk a rfl

namespace Node

theorem above_mapLit (below : Nat) (e : Expr) :
    above below (e.mapLit φ) = Fault.carry φ (mapLit φ) (above below e) := by
  unfold above
  split <;> rfl

theorem binary_mapLit (op : BinaryOp) (a b : Node) :
    binary op (a.mapLit φ) (b.mapLit φ) = Fault.carry φ (mapLit φ) (binary op a b) :=
  above_mapLit _ (.binary op a.expr b.expr)

theorem neg_mapLit (a : Node) : neg (a.mapLit φ) = Fault.carry φ (mapLit φ) (neg a) :=
  above_mapLit _ (.neg a.expr)

theorem factorial_mapLit (a : Node) :
    factorial (a.mapLit φ) = Fault.carry φ (mapLit φ) (factorial a) :=
  above_mapLit _ (.factorial a.expr)

theorem call_mapLit (f : Func) (a : Node) :
    call f (a.mapLit φ) = Fault.carry φ (mapLit φ) (call f a) :=
  above_mapLit _ (.call f a.expr)

end Node

namespace Phrase

open Fault (carry carry_bind)

theorem stuck_map (ts : List Token) : stuck (ts.map (Token.mapNum φ)) = (stuck ts).mapNum φ := by
  cases ts with
  | nil => rfl
  | cons t ts => cases t <;> rfl

theorem sumOp?_mapNum (t : Token) : sumOp? (t.mapNum φ) = sumOp? t := by
  cases t <;> rfl

theorem productOp?_mapNum (t : Token) : productOp? (t.mapNum φ) = productOp? t := by
  cases t <;> rfl

section
variable {operand : Phrase}

theorem chain_map {op? : Token → Option BinaryOp} (hop : ∀ t : Token, op? (t.mapNum φ) = op? t)
    (h : Blind φ operand) (left : Node) (ts : List Token) :
    chain op? operand (left.mapLit φ) (ts.map (Token.mapNum φ)) =
      carry φ (Phrase.mapNum φ) (chain op? operand left ts) := by
  -- the tree on the left grows up to the limit
  induction hn : maxHeight - left.height using Nat.strongRecOn generalizing left ts with
  | ind n ih =>
    cases ts with
    | nil =>
      rw [List.map_nil, chain_nil, chain_nil]
      rfl
    | cons t ts =>
      rw [List.map_cons]
      cases ht : op? t with
      | none =>
        rw [chain_of_none ((hop t).trans ht), chain_of_none ht]
        rfl
      | some op =>
        rw [chain_of_some ((hop t).trans ht), chain_of_some ht]
        refine carry_bind (h ts) fun (right, rest) _ => ?_
        refine carry_bind (Node.binary_mapLit op left right) fun whole hwhole => ?_
        have hgrows := Node.height_lt_of_binary hwhole
        exact ih _ (by omega) whole rest rfl

theorem blind_product (h : Blind φ operand) : Blind φ (product operand) := fun ts =>
  carry_bind (h ts) fun (left, rest) _ => chain_map productOp?_mapNum h left rest

theorem blind_sum (h : Blind φ operand) : Blind φ (sum operand) := fun ts =>
  carry_bind (blind_product h ts) fun (left, rest) _ =>
    chain_map sumOp?_mapNum (blind_product h) left rest

theorem blind_bracketed (h : Blind φ operand) : Blind φ (bracketed operand) := by
  intro ts
  refine carry_bind (blind_sum h ts) fun (inside, rest) _ => ?_
  cases rest with
  | nil => rfl
  | cons t rest => cases t <;> rfl

theorem blind_primary (h : Blind φ operand) : Blind φ (primary operand) := by
  intro ts
  cases ts with
  | nil => rfl
  | cons t ts =>
    cases t with
    | openParen => exact blind_bracketed h ts
    | word name =>
      change primary operand (.word name :: ts.map (Token.mapNum φ)) = _
      cases hf : Func.ofName? name with
      | none =>
        simp only [primary, hf]
        rfl
      | some f =>
        simp only [primary, hf]
        cases ts with
        | nil => rfl
        | cons t ts =>
          cases t with
          | openParen =>
            refine carry_bind (blind_bracketed h ts) fun found _ => ?_
            obtain ⟨argument, rest⟩ := found
            exact carry_bind (Node.call_mapLit f argument) fun _ _ => rfl
          | _ => rfl
    | _ => rfl

theorem bangs_map (a : Node) (ts : List Token) :
    bangs (a.mapLit φ) (ts.map (Token.mapNum φ)) = carry φ (Phrase.mapNum φ) (bangs a ts) := by
  induction ts generalizing a with
  | nil => rfl
  | cons t ts ih =>
    cases t with
    | bang => exact carry_bind (Node.factorial_mapLit a) fun b _ => ih b
    | _ => rfl

theorem blind_factorial (h : Blind φ operand) : Blind φ (factorial operand) := fun ts =>
  carry_bind (blind_primary h ts) fun (a, rest) _ => bangs_map a rest

theorem blind_power (h : Blind φ operand) : Blind φ (power operand) := by
  intro ts
  refine carry_bind (blind_factorial h ts) fun (base, rest) _ => ?_
  cases rest with
  | nil => rfl
  | cons t rest =>
    cases t with
    | caret =>
      refine carry_bind (h rest) fun (exponent, rest) _ => ?_
      exact carry_bind (Node.binary_mapLit .pow base exponent) fun _ _ => rfl
    | _ => rfl

end

theorem blind_signed (depth : Nat) : Blind φ (signed depth) := by
  induction depth with
  | zero => exact fun _ => rfl
  | succ depth ih =>
    intro ts
    cases ts with
    | nil => exact blind_power ih []
    | cons t ts =>
      cases t with
      | minus =>
        refine carry_bind (ih ts) fun (a, rest) _ => ?_
        exact carry_bind (Node.neg_mapLit a) fun _ _ => rfl
      | plus => exact ih ts
      | _ => exact blind_power ih (_ :: ts)

end Phrase

/-- With other numbers, the tree is the same but for its literals, and so is the fault but for the
number that it shows. -/
theorem Expr.ofTokens_map (ts : List Token) :
    ofTokens (ts.map (Token.mapNum φ)) = Fault.carry φ (Expr.mapLit φ) (ofTokens ts) := by
  cases ts with
  | nil => rfl
  | cons t ts =>
    refine Fault.carry_bind (Phrase.blind_sum (Phrase.blind_signed maxDepth) (t :: ts))
      fun (whole, rest) _ => ?_
    cases rest with
    | nil => rfl
    | cons t rest => exact congrArg Except.error (Phrase.stuck_map (t :: rest))

theorem Expr.mapLit_id (e : Expr) : e.mapLit id = e := by
  induction e with
  | lit x => rfl
  | neg a iha => rw [mapLit, iha]
  | factorial a iha => rw [mapLit, iha]
  | binary op a b iha ihb => rw [mapLit, iha, ihb]
  | call f a iha => rw [mapLit, iha]

theorem Fault.carry_mapLit_id (x : Except Fault Expr) :
    carry id (Expr.mapLit id) x = x.mapError (Fault.mapNum id) := by
  cases x with
  | error f => rfl
  | ok e => exact congrArg Except.ok e.mapLit_id

theorem Fault.isOk_carry {α β : Type} (φ : Float → Float) (f : α → β) (x : Except Fault α) :
    (carry φ f x).isOk = x.isOk := by
  cases x <;> rfl

/-- A constant is read as the number that it stands for. -/
theorem Expr.ofTokens_constant {ts us : List Token}
    (h : ts.map (Token.mapNum id) = us.map (Token.mapNum id)) :
    (ofTokens ts).mapError (Fault.mapNum id) = (ofTokens us).mapError (Fault.mapNum id) := by
  rw [← Fault.carry_mapLit_id, ← Fault.carry_mapLit_id, ← ofTokens_map, ← ofTokens_map, h]

/-- Which numbers there are does not decide whether there is a tree. -/
theorem Expr.isOk_ofTokens {ts us : List Token} (φ : Float → Float)
    (h : ts.map (Token.mapNum φ) = us.map (Token.mapNum φ)) :
    (ofTokens ts).isOk = (ofTokens us).isOk := by
  rw [← Fault.isOk_carry φ (Expr.mapLit φ), ← ofTokens_map, h, ofTokens_map, Fault.isOk_carry]

end SciCalc
