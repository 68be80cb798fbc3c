namespace SciCalc

/-- The number `digits * 10 ^ exp`. -/
structure Decimal where
  digits : Nat
  exp : Int
  deriving DecidableEq, Repr

namespace Decimal

/-- The float nearest to the decimal, half to even; beyond the largest float it is infinite. -/
def toFloat (d : Decimal) : Float := .ofModel (.ofScientific d.digits d.exp)

/-- The decimal that equals `m * 2 ^ e`. -/
def ofBinary (m : Nat) (e : Int) : Decimal :=
  if 0 ≤ e then ⟨m * Nat.pow 2 e.toNat, 0⟩ else ⟨m * Nat.pow 5 (-e).toNat, e⟩

/-- The number `digits / 10 ^ places` without the zeros that end its fraction. -/
def dropZeros : (places digits : Nat) → Decimal
  | 0, digits => ⟨digits, 0⟩
  | places + 1, digits =>
      if digits % 10 = 0 then dropZeros places (digits / 10) else ⟨digits, -(places + 1 : Nat)⟩

/-- The same number as a whole number, or as a fraction that does not end in zero. -/
def plain (d : Decimal) : Decimal :=
  if 0 ≤ d.exp then ⟨d.digits * Nat.pow 10 d.exp.toNat, 0⟩ else dropZeros (-d.exp).toNat d.digits

theorem dropZeros_exp (places digits : Nat) :
    (dropZeros places digits).exp ≤ 0 := by
  induction places generalizing digits with
  | zero => exact Int.le_refl 0
  | succ p ih =>
    unfold dropZeros
    split
    · exact ih _
    · simp only; omega

theorem plain_exp (d : Decimal) : d.plain.exp ≤ 0 := by
  unfold plain
  split
  · exact Int.le_refl 0
  · exact dropZeros_exp _ _

/-- Written without an exponent: the whole part, and a point and the fraction if there is one. -/
def chars (d : Decimal) : List Char :=
  let places := (-d.exp).toNat
  if places = 0 then Nat.toDigits 10 d.digits
  else Nat.toDigits 10 (d.digits / Nat.pow 10 places) ++
    '.' :: (Nat.toDigits 10 (d.digits % Nat.pow 10 places)).leftpad places '0'

theorem ofDigitChars_leftpad (p n : Nat) :
    Nat.ofDigitChars 10 ((Nat.toDigits 10 n).leftpad p '0') 0 = n := by
  simp [List.leftpad, Nat.ofDigitChars_append, Nat.ofDigitChars_replicate_zero]

theorem length_leftpad {p n : Nat} (hp : 0 < p) (h : n < Nat.pow 10 p) :
    ((Nat.toDigits 10 n).leftpad p '0').length = p := by
  have := (Nat.length_toDigits_le_iff (by decide : 1 < 10) hp).2 h
  simp [List.leftpad]; omega

end Decimal

end SciCalc
