import SciCalc.Calculator
import SciCalc.Proofs.Token.Blank
import SciCalc.Proofs.Token.Seam
import SciCalc.Proofs.Grammar.Renumber

namespace SciCalc

open Token (OpenNumber EndsMantissa Reads)

/-- The constant of a button: the token of its symbol, and its value. -/
def Entry.constant? : Entry → Option (Token × Float)
  | pi => some (.pi, Number.pi)
  | euler => some (.euler, Number.euler)
  | _ => none

section
variable {e : Entry} {symbol : Token} {x : Float} {p q : String} {ts us : List Token}

/-- The digits of a constant are a mantissa with a point, and its value is the constant. -/
theorem Entry.exists_numeral (h : e.constant? = some (symbol, x)) :
    ∃ (n : Numeral) (fraction : List Char),
    n.WellFormed ∧ n.whole ≠ [] ∧ n.fraction = some fraction ∧ n.exponent = none ∧
    n.chars = e.text.toList ∧
      n.toFloat = x := by
  have hwf : ∀ w f : List Char, (w ++ f).all Char.isDigit = true → w ≠ [] →
      (⟨w, some f, none⟩ : Numeral).WellFormed := by
    intro w f hall hne
    rw [List.all_eq_true] at hall
    refine ⟨fun c hc => hall c (by simp [hc]), ?_, .inl hne, by simp⟩
    intro _ he c hc
    cases he
    exact hall c (by simp [hc])
  cases e with
  | pi =>
    cases h
    exact ⟨⟨['3'], some "141592653589793".toList, none⟩, _, hwf _ _ (by decide +kernel) (by simp),
      by simp, rfl, rfl, by decide +kernel, by decide +kernel⟩
  | euler =>
    cases h
    exact ⟨⟨['2'], some "718281828459045".toList, none⟩, _, hwf _ _ (by decide +kernel) (by simp),
      by simp, rfl, rfl, by decide +kernel, by decide +kernel⟩
  | _ => cases h

theorem Entry.mapNum_eq (h : e.constant? = some (symbol, x)) (φ : Float → Float) :
    Token.mapNum φ (.num x) = symbol.mapNum φ := by
  cases e <;> cases h <;> rfl

theorem reads_constant_iff (h : e.constant? = some (symbol, x)) (cs : List Char) :
    Reads (e.text.toList ++ cs) [.num x] cs ↔ EndsMantissa cs := by
  obtain ⟨n, fraction, hn, _, hf, hx, hchars, rfl⟩ := Entry.exists_numeral h
  rw [← hchars]
  exact Token.reads_numeral_iff hn hx hf

theorem joins_constant_iff (h : e.constant? = some (symbol, x)) (cs ds : List Char) :
    Token.Joins cs (e.text.toList ++ ds) ↔ OpenNumber cs := by
  obtain ⟨n, fraction, hn, hne, _, _, hchars, _⟩ := Entry.exists_numeral h
  obtain ⟨d, w, hw⟩ := List.exists_cons_of_ne_nil hne
  rw [← hchars, Numeral.chars, Numeral.mantissa, hw]
  exact Token.joins_digit_iff (hn.whole d (by simp [hw]))

theorem reads_symbol (cs : List Char) : Reads ('π' :: cs) [.pi] cs := by
  have hs : ('π', Token.pi) ∈ Token.signs := by decide
  refine .lexeme (Token.Longest.sign hs (by simp)) (fun m hm => ?_) (.done cs)
  exact absurd hm.head (by decide)

theorem ofString_symbol (hp : Token.ofString p = .ok ts) (hq : Token.ofString q = .ok us) :
    Token.ofString (p ++ "π" ++ q) = .ok (ts ++ .pi :: us) := by
  have hs : ('π', Token.pi) ∈ Token.signs := by decide
  have hfront : Reads (p.toList ++ 'π' :: q.toList) ts ('π' :: q.toList) :=
    Token.reads_append_of_not_joins (Token.reads_of_ofChars hp)
      (Token.not_joins_sign hs (by decide))
  have hall := hfront.trans ((reads_symbol q.toList).trans (Token.reads_of_ofChars hq))
  rw [Token.ofString, String.toList_append, String.toList_append, List.append_assoc]
  exact hall.ofChars_eq

/-- The digits of a constant are read as a number of their own, and what stands in front of them as
it is alone, exactly if no number is open in front and nothing behind goes on with a mantissa. The
sign `π` always is read so. In the place of the constant its symbol gives the same tree or the same
fault, and the sign `π` is accepted there exactly if the constant is. -/
theorem constant_apart_iff (he : e.constant? = some (symbol, x)) (hp : Token.ofString p = .ok ts)
    (hq : Token.ofString q = .ok us) :
    (Reads (p ++ e.text ++ q).toList ts (e.text ++ q).toList ∧
      Reads (e.text ++ q).toList [.num x] q.toList ↔
      ¬OpenNumber p.toList ∧ EndsMantissa q.toList) ∧
    (¬OpenNumber p.toList → EndsMantissa q.toList →
      Token.ofString (p ++ e.text ++ q) = .ok (ts ++ .num x :: us)) ∧
    Token.ofString (p ++ "π" ++ q) = .ok (ts ++ .pi :: us) ∧
    (Expr.ofTokens (ts ++ .num x :: us)).mapError (Fault.mapNum id) =
      (Expr.ofTokens (ts ++ symbol :: us)).mapError (Fault.mapNum id) ∧
    (Expr.ofTokens (ts ++ .num x :: us)).isOk = (Expr.ofTokens (ts ++ .pi :: us)).isOk := by
  have htext : (p ++ e.text ++ q).toList = p.toList ++ (e.text.toList ++ q.toList) := by simp
  have hmid : (e.text ++ q).toList = e.text.toList ++ q.toList := String.toList_append
  have hleft : Reads (p.toList ++ (e.text.toList ++ q.toList)) ts (e.text.toList ++ q.toList) ↔
      ¬OpenNumber p.toList := by
    rw [Token.reads_append_iff (Token.reads_of_ofChars hp), joins_constant_iff he]
  have hright := reads_constant_iff he q.toList
  refine ⟨?_, fun hopen hends => ?_, ofString_symbol hp hq, Expr.ofTokens_constant ?_, ?_⟩
  · rw [htext, hmid, hleft, hright]
  · have hall := (hleft.mpr hopen).trans ((hright.mpr hends).trans (Token.reads_of_ofChars hq))
    rw [Token.ofString, htext]
    exact hall.ofChars_eq
  · rw [List.map_append, List.map_append, List.map_cons, List.map_cons, Entry.mapNum_eq he]
  · apply Expr.isOk_ofTokens fun _ => 0
    rw [List.map_append, List.map_append, List.map_cons, List.map_cons]
    rfl

end

/-- Behind an operator and in front of a factorial sign the constant stands apart. -/
theorem constant_apart_factor :
    Entry.pi.constant? = some (.pi, Number.pi) ∧ Token.ofString "2*" = .ok [.num 2, .star] ∧
      Token.ofString "!" = .ok [.bang] ∧ ¬OpenNumber "2*".toList ∧ EndsMantissa "!".toList ∧
      Token.ofString ("2*" ++ Entry.pi.text ++ "!") =
        .ok [.num 2, .star, .num Number.pi, .bang] := by
  have hp : Token.ofString "2*" = .ok [.num 2, .star] := by decide +kernel
  have hq : Token.ofString "!" = .ok [.bang] := by decide +kernel
  have hopen : ¬OpenNumber "2*".toList := by
    intro h
    obtain ⟨c, hc, hmem⟩ := h.getLast
    obtain rfl : '*' = c := by simpa using hc
    exact absurd hmem (by decide)
  have hends : EndsMantissa "!".toList := by
    refine ⟨by simp, fun x hx hfront => ?_⟩
    obtain hm | hm := hx.marker <;> simp [Exponent.chars, hm] at hfront
  exact ⟨rfl, hp, hq, hopen, hends, (constant_apart_iff rfl hp hq).2.1 hopen hends⟩

/-- Behind a number the digits of the constant go on with it. -/
theorem constant_behind_number :
    Token.ofString "1" = .ok [.num 1] ∧ Token.ofString "" = .ok [] ∧
      Token.ofString ("1" ++ Entry.pi.text ++ "") = .ok [.num 13.141592653589793] ∧
      Token.ofString ("1" ++ Entry.pi.text ++ "") ≠ .ok ([.num 1] ++ [.num Number.pi] ++ []) ∧
      Expr.ofTokens [.num 13.141592653589793] = .ok (.lit 13.141592653589793) ∧
      Expr.ofTokens [.num 1, .pi] = .error (.unexpectedToken .pi) := by
  have hjoined : Token.ofString ("1" ++ Entry.pi.text ++ "") = .ok [.num 13.141592653589793] := by
    decide +kernel
  refine ⟨by decide +kernel, by decide +kernel, hjoined, ?_, by decide +kernel, by decide +kernel⟩
  rw [hjoined]
  simp

end SciCalc
