import SciCalc.Number.Decimal

namespace SciCalc

/-- An exponent as it is spelled: `e` or `E`, at most one sign, and digits. -/
structure Exponent where
  marker : Char
  sign : List Char
  digits : List Char
  deriving DecidableEq

namespace Exponent

def chars (x : Exponent) : List Char := x.marker :: (x.sign ++ x.digits)

/-- The digits count until the exponent passes `65535`; the ones behind are without effect. -/
def size (x : Exponent) : Nat :=
  x.digits.foldl (fun n c => if n < 65536 then 10 * n + (c.toNat - '0'.toNat) else n) 0

def toInt (x : Exponent) : Int := if x.sign = ['-'] then -x.size else x.size

/-- An exponent has at least one digit; without one the marker is no part of the numeral. -/
def scan? : List Char → Option Exponent
  | [] => none
  | marker :: cs =>
      let sign := (cs.take 1).filter (fun c => c = '+' || c = '-')
      let digits := (cs.drop sign.length).takeWhile Char.isDigit
      if (marker = 'e' || marker = 'E') && !digits.isEmpty then some ⟨marker, sign, digits⟩
      else none

theorem chars_of_scan? {cs : List Char} {x : Exponent} (h : scan? cs = some x) :
    x.chars <+: cs := by
  cases cs with
  | nil => cases h
  | cons m cs =>
    simp only [scan?] at h
    split at h
    · cases h
      simp only [chars, List.prefix_cons_inj]
      have hs : (cs.take 1).filter (fun c => c = '+' || c = '-') <+: cs := by
        cases cs with
        | nil => simp
        | cons c cs => by_cases hc : c = '+' ∨ c = '-' <;> simp_all
      obtain ⟨r, hr⟩ := hs
      generalize (cs.take 1).filter (fun c => c = '+' || c = '-') = sign at hr ⊢
      subst hr
      simp [List.takeWhile_prefix]
    · cases h

end Exponent

/-- Digits, a point with the digits behind it, and an exponent, each of which may be missing. -/
structure Numeral where
  whole : List Char
  fraction : Option (List Char)
  exponent : Option Exponent
  deriving DecidableEq

namespace Numeral

/-- The part before the exponent. -/
def mantissa (n : Numeral) : List Char :=
  n.whole ++ match n.fraction with
    | some digits => '.' :: digits
    | none => []

def chars (n : Numeral) : List Char :=
  n.mantissa ++ match n.exponent with
    | some x => x.chars
    | none => []

def hasDigits (n : Numeral) : Bool := !n.whole.isEmpty || !(n.fraction.getD []).isEmpty

def toDecimal (n : Numeral) : Decimal :=
  let fraction := n.fraction.getD []
  ⟨Nat.ofDigitChars 10 (n.whole ++ fraction) 0,
    (n.exponent.map Exponent.toInt).getD 0 - fraction.length⟩

def toFloat (n : Numeral) : Float := n.toDecimal.toFloat

def scanFraction : List Char → Option (List Char)
  | '.' :: cs => some (cs.takeWhile Char.isDigit)
  | _ => none

/-- The longest numeral in front. -/
def scan (cs : List Char) : Numeral :=
  let whole := cs.takeWhile Char.isDigit
  let bare : Numeral := ⟨whole, scanFraction (cs.dropWhile Char.isDigit), none⟩
  { bare with exponent := Exponent.scan? (cs.drop bare.mantissa.length) }

/-- The numeral that a text is, if it is one and nothing else. -/
def ofChars? (cs : List Char) : Option Numeral :=
  let n := scan cs
  if n.hasDigits && n.chars = cs then some n else none

theorem mantissa_scan (cs : List Char) : (scan cs).mantissa <+: cs := by
  have hw := List.takeWhile_append_dropWhile (p := Char.isDigit) (l := cs)
  simp only [scan, mantissa]
  conv => rhs; rw [← hw]
  rw [List.prefix_append_right_inj]
  cases cs.dropWhile Char.isDigit with
  | nil => simp [scanFraction]
  | cons c r =>
    by_cases hc : c = '.'
    · subst hc; simp [scanFraction, List.takeWhile_prefix]
    · simp [scanFraction, hc]

theorem chars_scan (cs : List Char) : (scan cs).chars <+: cs := by
  obtain ⟨r, hr⟩ := mantissa_scan cs
  have hx : ∀ x, (scan cs).exponent = some x → x.chars <+: r := by
    intro x h
    have hd : cs.drop (scan cs).mantissa.length = r := by
      have := congrArg (List.drop (scan cs).mantissa.length) hr
      simpa using this.symm
    exact hd ▸ Exponent.chars_of_scan? h
  conv => rhs; rw [← hr]
  unfold chars
  rw [List.prefix_append_right_inj]
  cases h : (scan cs).exponent with
  | none => simp
  | some x => exact hx x h

private theorem isDigit_toDigits {n : Nat} {c : Char} (h : c ∈ Nat.toDigits 10 n) :
    c.isDigit = true :=
  Nat.isDigit_of_mem_toDigits (by decide) (by decide) h

/-- What goes on as far as `p` holds is all that is taken. -/
theorem takeWhile_all {p : Char → Bool} {l r : List Char} (h : ∀ c ∈ l, p c = true)
    (hr : ∀ c, r.head? = some c → p c = false) :
    (l ++ r).takeWhile p = l ∧ (l ++ r).dropWhile p = r := by
  induction l with
  | nil => cases r with
    | nil => simp
    | cons c r => simp [hr c rfl]
  | cons c l ih =>
    obtain ⟨h1, h2⟩ := ih (fun c hc => h c (by simp [hc]))
    simp [h c, h1, h2]

/-- A decimal without a positive exponent is read as it is written. -/
theorem toDecimal_scan_chars {d : Decimal} (h : d.exp ≤ 0) :
    (scan d.chars).toDecimal = d := by
  obtain ⟨digits, exp⟩ := d
  simp only at h
  unfold Decimal.chars
  simp only
  split
  · have he : exp = 0 := by omega
    subst he
    have hw := takeWhile_all (r := []) (fun c hc => isDigit_toDigits (n := digits) hc) (by simp)
    simp only [List.append_nil] at hw
    simp [scan, hw, scanFraction, toDecimal, mantissa, Exponent.scan?]
  · generalize hp : (-exp).toNat = p at *
    have he : exp = -p := by omega
    subst he
    have hpad : ∀ c ∈ (Nat.toDigits 10 (digits % Nat.pow 10 p)).leftpad p '0',
        c.isDigit = true := by
      intro c hc
      simp only [List.leftpad, List.mem_append, List.mem_replicate] at hc
      rcases hc with ⟨_, rfl⟩ | hc
      · rfl
      · exact isDigit_toDigits hc
    have hw := takeWhile_all (r := '.' :: (Nat.toDigits 10 (digits % Nat.pow 10 p)).leftpad p '0')
      (fun c hc => isDigit_toDigits (n := digits / Nat.pow 10 p) hc) (by simp)
    have hf := takeWhile_all (r := []) hpad (by simp)
    simp only [List.append_nil] at hf
    have hl : ((Nat.toDigits 10 (digits % Nat.pow 10 p)).leftpad p '0').length = p :=
      Decimal.length_leftpad (by omega) (Nat.mod_lt _ (Nat.pow_pos (by decide : 0 < 10)))
    have hv := Decimal.ofDigitChars_leftpad p (digits % Nat.pow 10 p)
    generalize (Nat.toDigits 10 (digits % Nat.pow 10 p)).leftpad p '0' = frac at *
    have hs : scan (Nat.toDigits 10 (digits / Nat.pow 10 p) ++ '.' :: frac) =
        ⟨Nat.toDigits 10 (digits / Nat.pow 10 p), some frac, none⟩ := by
      simp [scan, hw, scanFraction, hf, mantissa, Exponent.scan?, -Nat.pow_eq]
    rw [hs]
    simp only [toDecimal, Option.getD_some, Option.map_none, Option.getD_none, hl,
      Nat.ofDigitChars_append]
    rw [Nat.ofDigitChars_eq_ofDigitChars_zero, hl, hv, Nat.ofDigitChars_ten_toDigits, ← Nat.pow_eq,
      Nat.div_add_mod]
    simp

end Numeral

end SciCalc
