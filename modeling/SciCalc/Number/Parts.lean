namespace SciCalc.Number

open Float.Model (UnpackedFloat)

/-- The shape of a number: no number, an infinity, a zero, or a sign and
`mantissa * 2 ^ exponent`. -/
def parts (x : Float) : UnpackedFloat := x.toModel.unpack

/-- The float nearest to an integer, half to even. -/
def ofInt (n : Int) : Float := .ofModel (.ofInt n)

/-- Infinities and `NaN` are not whole: nothing can be said about what stands behind their point. -/
def isWhole (x : Float) : Bool :=
  match parts x with
  | .zero _ => true
  | .finite _ m e _ => decide (0 ≤ e) || m % Nat.pow 2 (-e).toNat == 0
  | _ => false

/-- The natural number nearest to `m * 2 ^ e`; a half goes up. -/
def nearestNat (m : Nat) (e : Int) : Nat :=
  if 0 ≤ e then m * Nat.pow 2 e.toNat
  else (2 * m + Nat.pow 2 (-e).toNat) / Nat.pow 2 ((-e).toNat + 1)

/-- The integer nearest to a finite number; a half goes away from zero. -/
def nearestInt (x : Float) : Int :=
  match parts x with
  | .finite s m e _ => s.apply (nearestNat m e)
  | _ => 0

/-- Ten decimals are kept, so the unit is `10 ^ -10`. -/
def unitsPerOne : Float := 1e10

/-- The nearest multiple of `10 ^ -10`, a half away from zero, and never `-0`. A number too large to
be counted in these units has nothing behind its point and stays as it is. -/
def toTenDecimals (x : Float) : Float :=
  let units := x * unitsPerOne
  if units.isFinite then ofInt (nearestInt units) / unitsPerOne else x

/-- The float nearest to π. -/
def pi : Float := 3.141592653589793

/-- The float nearest to the base of the natural logarithm. -/
def euler : Float := 2.718281828459045

end SciCalc.Number
