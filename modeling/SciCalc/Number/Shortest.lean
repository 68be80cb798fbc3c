import SciCalc.Number.Parts
import SciCalc.Number.Decimal

namespace SciCalc

/-- The two decimals next to `d` that keep `n` of its `size` digits, the nearer one first and of two
equally near the larger. -/
def Decimal.near (size : Nat) (d : Decimal) (n : Nat) : List Decimal :=
  let unit := Nat.pow 10 (size - n)
  let low : Decimal := ⟨d.digits / unit, d.exp + (size - n : Nat)⟩
  let high : Decimal := ⟨d.digits / unit + 1, d.exp + (size - n : Nat)⟩
  if 2 * (d.digits % unit) < unit then [low, high] else [high, low]

namespace Number

/-- Seventeen digits tell any two floats apart. -/
def maxDigits : Nat := 17

/-- The decimal with the fewest digits that reads back as the positive number `x`, whose exact value
is `d`; of several the nearest to `d`. -/
def shortest (x : Float) (d : Decimal) : Decimal :=
  let size := (Nat.toDigits 10 d.digits).length
  let found := (List.range' 1 maxDigits).findSome? fun n =>
    ((d.near size n).map Decimal.plain).find? (·.toFloat = x)
  found.getD d.plain

private theorem shortest_cases (x : Float) (d : Decimal) :
    (∃ c : Decimal, c.plain.toFloat = x ∧ shortest x d = c.plain) ∨ shortest x d = d.plain := by
  simp only [shortest]
  generalize hf : (List.range' 1 maxDigits).findSome? _ = found
  cases found with
  | none => exact .inr rfl
  | some c =>
    obtain ⟨n, _, hn⟩ := List.exists_of_findSome?_eq_some hf
    obtain ⟨c', _, rfl⟩ := List.mem_map.1 (List.mem_of_find?_eq_some hn)
    exact .inl ⟨c', by simpa using List.find?_some hn, rfl⟩

theorem shortest_exp (x : Float) (d : Decimal) : (shortest x d).exp ≤ 0 := by
  rcases shortest_cases x d with ⟨c, _, hc⟩ | hc <;> rw [hc] <;> exact Decimal.plain_exp _

/-- A number that no decimal of `maxDigits` digits gives would be written exactly. -/
theorem toFloat_shortest (x : Float) (d : Decimal) :
    (shortest x d).toFloat = x ∨ shortest x d = d.plain := by
  rcases shortest_cases x d with ⟨c, hx, hc⟩ | hc
  · exact .inl (hc ▸ hx)
  · exact .inr hc

/-- A minus sign in front of what is negative. -/
def signed : Float.Model.UnpackedFloat.Sign → List Char → List Char
  | .negative, cs => '-' :: cs
  | .positive, cs => cs

def chars (x : Float) : List Char :=
  match parts x with
  | .notANumber => ['N', 'a', 'N']
  | .infinity s => signed s ['i', 'n', 'f']
  | .zero s => signed s ['0']
  | .finite s m e _ => signed s (shortest x.abs (.ofBinary m e)).chars

/-- The shortest text that reads back as the number; the sign of a zero is kept. -/
def text (x : Float) : String := String.ofList (chars x)

/-- The text of a result: as `text`, but a zero is written without a sign. -/
def resultText (x : Float) : String := if x == 0 then "0" else text x

end Number

end SciCalc
