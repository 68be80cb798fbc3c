import SciCalc.Fault
import SciCalc.Token.Numeral
import SciCalc.Text.Blank

namespace SciCalc.Token

/-- The token of a word: two words are constants. -/
def ofWord (w : String) : Token :=
  if w = "pi" then .pi else if w = "e" then .euler else .word w

/-- The sign that `c` starts when `cs` follows, and how many characters of `cs` belong to it. -/
def ofSign? (c : Char) (cs : List Char) : Option (Token × Nat) :=
  match c with
  | '(' => some (.openParen, 0)
  | ')' => some (.closeParen, 0)
  | '+' => some (.plus, 0)
  | '-' | '−' => some (.minus, 0)
  | '/' | '÷' => some (.slash, 0)
  | '^' => some (.caret, 0)
  | '!' => some (.bang, 0)
  | 'π' => some (.pi, 0)
  | '√' => some (.word "sqrt", 0)
  | '×' => some (.star, 0)
  | '*' => if cs.head? = some '*' then some (.caret, 1) else some (.star, 0)
  | _ => none

/-- The number in front. A second point right behind a mantissa, or a point without a digit, spoils
it; the fault shows the mantissa and the character behind it. The characters of the number have
their value as a text of their own, and one that were none would be shown whole. -/
def numeral (cs : List Char) : Except Fault (Token × Nat) :=
  let n := Numeral.scan cs
  if n.hasDigits && (cs.drop n.mantissa.length).head? ≠ some '.' then
    match Numeral.ofChars? n.chars with
    | some value => .ok (.num value.toFloat, n.chars.length - 1)
    | none => .error (.invalidNumber (String.ofList n.chars))
  else .error (.invalidNumber (String.ofList (cs.take (n.mantissa.length + 1))))

/-- The token of the longest lexeme that `c`, at `position`, starts when `cs` follows, and how many
characters of `cs` belong to it. -/
def lexeme (position : Nat) (c : Char) (cs : List Char) : Except Fault (Token × Nat) :=
  match ofSign? c cs with
  | some found => .ok found
  | none =>
    if c.isAlpha then
      let letters := cs.takeWhile Char.isAlpha
      .ok (ofWord (String.ofList ((c :: letters).map Char.toLower)), letters.length)
    else if c.isDigit || c = '.' then numeral (c :: cs)
    else .error (.unexpectedChar c position)

/-- Reads on at `position`, with the tokens before it in `acc`, the last one first. -/
def readOn (acc : List Token) (position : Nat) : List Char → Except Fault (List Token)
  | [] => .ok acc.reverse
  | c :: cs =>
    if Text.isBlank c then readOn acc (position + 1) cs
    else match lexeme position c cs with
      | .error fault => .error fault
      | .ok (t, n) => readOn (t :: acc) (position + 1 + n) (cs.drop n)
  termination_by cs => cs.length
  decreasing_by all_goals (simp; try omega)

theorem readOn_eq_map (acc : List Token) (position : Nat) (cs : List Char) :
    readOn acc position cs = (readOn [] position cs).map (acc.reverse ++ ·) := by
  induction h : cs.length using Nat.strongRecOn generalizing acc position cs with
  | ind n ih =>
    cases cs with
    | nil => simp [readOn, Except.map]
    | cons c cs =>
      rw [readOn, readOn]
      split
      · exact ih cs.length (by simp at h; omega) acc _ cs rfl
      · cases lexeme position c cs with
        | error fault => rfl
        | ok found =>
          obtain ⟨t, k⟩ := found
          have hk : (cs.drop k).length < n := by simp at h ⊢; omega
          simp only
          rw [ih _ hk (t :: acc) _ _ rfl, ih _ hk [t] _ _ rfl]
          cases readOn [] (position + 1 + k) (cs.drop k) <;> simp [Except.map]

theorem readOn_blank (p : Nat) (c : Char) (cs : List Char) (h : Text.isBlank c = true) :
    readOn [] p (c :: cs) = readOn [] (p + 1) cs := by
  rw [readOn, if_pos h]

theorem readOn_lexeme (p : Nat) (c : Char) (cs : List Char) (h : Text.isBlank c = false) :
    readOn [] p (c :: cs) = (do
      let (t, n) ← lexeme p c cs
      let ts ← readOn [] (p + 1 + n) (cs.drop n)
      return t :: ts) := by
  rw [readOn, if_neg (by simp [h])]
  cases lexeme p c cs with
  | error f => rfl
  | ok found =>
    simp only
    rw [readOn_eq_map]
    simp only [bind, Except.bind]
    cases readOn [] (p + 1 + found.2) (cs.drop found.2) <;> rfl

/-- One token is read and the others behind it. -/
theorem readOn_token {p : Nat} {c : Char} {cs rest : List Char} {t : Token}
    (hb : Text.isBlank c = false) (h : lexeme p c (cs ++ rest) = .ok (t, cs.length)) :
    readOn [] p (c :: (cs ++ rest)) = (readOn [] (p + 1 + cs.length) rest).map (t :: ·) := by
  rw [readOn_lexeme p c _ hb, h]
  simp only [bind, Except.bind, List.drop_left]
  cases readOn [] (p + 1 + cs.length) rest with
  | error f => rfl
  | ok ts => rfl

/-- The tokens of a text, or the fault at the first place where no lexeme starts. -/
def ofChars (cs : List Char) : Except Fault (List Token) := readOn [] 0 cs

def ofString (s : String) : Except Fault (List Token) := ofChars s.toList

end SciCalc.Token
