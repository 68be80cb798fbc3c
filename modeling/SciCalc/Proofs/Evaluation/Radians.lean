import SciCalc.Evaluation

namespace SciCalc

/-- The call with its angle in degrees, in terms of the function in radians: an angle that is taken
is multiplied before the call, and one that is given is multiplied behind it. -/
def Func.callInRadians (f : Func) (a : Expr) : Expr :=
  match f with
  | .sin | .cos | .tan => .call f (.binary .mul a (.lit (Number.pi / 180)))
  | .asin | .acos | .atan => .binary .mul (.call f a) (.lit (180 / Number.pi))
  | .sqrt | .log | .ln => .call f a

/-- The tree with all its calls in radians, from the leaves to the root. -/
def Expr.inRadians : Expr → Expr
  | lit x => lit x
  | neg a => neg a.inRadians
  | factorial a => factorial a.inRadians
  | binary op a b => binary op a.inRadians b.inRadians
  | call f a => f.callInRadians a.inRadians

/-- A multiplication by a literal passes on the fault of the other operand. -/
theorem Expr.eval_mul_lit (m : AngleMode) (a : Expr) (y : Float) :
    (binary .mul a (lit y)).eval m = (a.eval m).map (· * y) := by
  simp only [Expr.eval]
  cases a.eval m <;> rfl

theorem Expr.eval_call (m : AngleMode) (f : Func) (a : Expr) :
    (call f a).eval m = (a.eval m).map (f.apply m) := by
  simp only [Expr.eval]
  cases a.eval m <;> rfl

/-- Of an argument with the same value, or the same fault, the call in radians has the value of the
call in degrees. -/
theorem Func.eval_callInRadians (f : Func) {a b : Expr} (h : b.eval .radians = a.eval .degrees) :
    (f.callInRadians b).eval .radians = (Expr.call f a).eval .degrees := by
  rw [Expr.eval_call, ← h]
  cases f with
  | sin | cos | tan =>
    rw [Func.callInRadians, Expr.eval_call, Expr.eval_mul_lit]
    cases b.eval .radians with
    | error f => simp only [Except.map]
    | ok x => simp only [Except.map, Func.apply, AngleMode.toRadians, radiansPerDegree]
  | asin | acos | atan =>
    rw [Func.callInRadians, Expr.eval_mul_lit, Expr.eval_call]
    cases b.eval .radians with
    | error f => simp only [Except.map]
    | ok x => simp only [Except.map, Func.apply, AngleMode.ofRadians, degreesPerRadian]
  | sqrt | log | ln =>
    rw [Func.callInRadians, Expr.eval_call]
    rfl

/-- Evaluation in degrees is evaluation in radians of the tree with its angles converted, of every
tree: the value is the same and so is the fault. -/
theorem Expr.eval_inRadians (e : Expr) : e.inRadians.eval .radians = e.eval .degrees := by
  induction e with
  | lit x => rfl
  | neg a ih => simp only [Expr.inRadians, Expr.eval, ih]
  | factorial a ih => simp only [Expr.inRadians, Expr.eval, ih]
  | binary op a b iha ihb => simp only [Expr.inRadians, Expr.eval, iha, ihb]
  | call f a ih => exact f.eval_callInRadians ih

end SciCalc
