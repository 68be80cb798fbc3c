import SciCalc.Expr
import SciCalc.Fault

namespace SciCalc

/-- The greatest height of a tree. -/
def maxHeight : Nat := 1024

/-- A tree under construction. It knows its height, so that a tree that grows too tall is refused at
the node that makes it so. -/
structure Node where
  expr : Expr
  height : Nat

namespace Node

def lit (x : Float) : Node := ⟨.lit x, 1⟩

/-- Puts the root of `e` above subtrees the tallest of which has height `below`. -/
def above (below : Nat) (e : Expr) : Except Fault Node :=
  if below < maxHeight then .ok ⟨e, below + 1⟩ else .error (.tooDeep maxHeight)

def neg (a : Node) : Except Fault Node := above a.height (.neg a.expr)

def factorial (a : Node) : Except Fault Node := above a.height (.factorial a.expr)

def binary (op : BinaryOp) (a b : Node) : Except Fault Node :=
  above (max a.height b.height) (.binary op a.expr b.expr)

def call (f : Func) (a : Node) : Except Fault Node := above a.height (.call f a.expr)

theorem above_eq_ok {below : Nat} {e : Expr} {n : Node} (h : above below e = .ok n) :
    below < maxHeight ∧ n = ⟨e, below + 1⟩ := by
  unfold above at h
  split at h
  · cases h
    exact ⟨‹_›, rfl⟩
  · cases h

theorem height_lt_of_binary {op : BinaryOp} {a b n : Node} (h : binary op a b = .ok n) :
    a.height < n.height ∧ n.height ≤ maxHeight := by
  obtain ⟨hb, rfl⟩ := above_eq_ok h
  exact ⟨by simp only; omega, hb⟩

end Node

end SciCalc
