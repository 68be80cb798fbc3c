import SciCalc.Proofs.Grammar.ViablePrefix
import SciCalc.Proofs.Number.ReadBack

namespace SciCalc

def BinaryOp.token : BinaryOp → Token
  | add => .plus
  | sub => .minus
  | mul => .star
  | div => .slash
  | pow => .caret

namespace Expr

/-- The literals are finite and their sign bit is clear. -/
def Unsigned : Expr → Prop
  | lit x => x.isFinite = true ∧ Number.sign x = .positive
  | neg a => a.Unsigned
  | factorial a => a.Unsigned
  | binary _ a b => a.Unsigned ∧ b.Unsigned
  | call _ a => a.Unsigned

/-- The tokens of the text. -/
def tokens : Expr → List Token
  | lit x => [.num x]
  | neg a => .openParen :: (.minus :: a.tokens ++ [.closeParen])
  | factorial a => .openParen :: (a.tokens ++ [.bang] ++ [.closeParen])
  | binary op a b => .openParen :: (a.tokens ++ op.token :: b.tokens ++ [.closeParen])
  | call f a => .word f.name :: .openParen :: (a.tokens ++ [.closeParen])

/-- How many signed phrases stand inside each other in the text. A sign and an exponent start one of
their own inside the brackets. -/
def renderedDepth : Expr → Nat
  | lit _ => 1
  | neg a => 2 + a.renderedDepth
  | factorial a => 1 + a.renderedDepth
  | call _ a => 1 + a.renderedDepth
  | binary .pow a b => 1 + max a.renderedDepth (1 + b.renderedDepth)
  | binary _ a b => 1 + max a.renderedDepth b.renderedDepth

theorem renderedDepth_of_ne_pow {op : BinaryOp} (h : op ≠ .pow) (a b : Expr) :
    (binary op a b).renderedDepth = 1 + max a.renderedDepth b.renderedDepth := by
  cases op with
  | pow => exact absurd rfl h
  | _ => rfl

theorem height_le_renderedDepth (e : Expr) : e.height ≤ e.renderedDepth := by
  induction e with
  | lit x => exact Nat.le_refl 1
  | neg a ih =>
    simp only [height, renderedDepth]
    omega
  | factorial a ih =>
    simp only [height, renderedDepth]
    omega
  | call f a ih =>
    simp only [height, renderedDepth]
    omega
  | binary op a b iha ihb =>
    by_cases h : op = .pow
    · subst h
      simp only [height, renderedDepth]
      omega
    · rw [renderedDepth_of_ne_pow h]
      simp only [height]
      omega

end Expr

namespace Grammar

variable {u v : List Token} {a b e : Expr} {d d' : Nat}

theorem Derives.factorial_of_primary (h : Derives .primary u e d) : Derives .factorial u e d := by
  have hb := Derives.bangs 0 h
  rwa [List.replicate_zero, List.append_nil] at hb

theorem Derives.signed_of_primary (h : Derives .primary u e d) : Derives .signed u e (d + 1) :=
  .unsigned (.base h.factorial_of_primary)

theorem Derives.operand_of_signed (l : Layer) (h : Derives .signed u e d) :
    Derives l.operand u e d := by
  cases l with
  | sum => exact Derives.chain_of_operand (l := .product) h
  | product => exact h

theorem Derives.sum_of_chain {l : Layer} (h : Derives (.chain l) u e d) : Derives .sum u e d := by
  cases l with
  | sum => exact h
  | product => exact Derives.chain_of_operand (l := .sum) h

/-- One operator between two signed phrases is a sum. -/
theorem Derives.sum_of_op {l : Layer} {t : Token} {op : BinaryOp} (ho : l.op? t = some op)
    (hu : Derives .signed u a d) (hv : Derives .signed v b d') :
    Derives .sum (u ++ t :: v) (.binary op a b) (max d d') := by
  have h := Derives.chain (hu.operand_of_signed l) (.more ho (hv.operand_of_signed l) .done)
  rw [List.append_nil, Nat.max_zero] at h
  exact h.sum_of_chain

/-- All operators but the power belong to a layer. -/
theorem exists_layer {op : BinaryOp} (h : op ≠ .pow) : ∃ l : Layer, l.op? op.token = some op := by
  cases op with
  | add => exact ⟨.sum, rfl⟩
  | sub => exact ⟨.sum, rfl⟩
  | mul => exact ⟨.product, rfl⟩
  | div => exact ⟨.product, rfl⟩
  | pow => exact absurd rfl h

theorem derives_tokens (e : Expr) :
    ∃ d, e.renderedDepth = d + 1 ∧ Derives .primary e.tokens e d := by
  induction e with
  | lit x => exact ⟨0, rfl, .num⟩
  | neg a ih =>
    obtain ⟨d, hd, h⟩ := ih
    refine ⟨d + 1 + 1, by simp only [Expr.renderedDepth]; omega, ?_⟩
    exact .bracketed (Derives.negative h.signed_of_primary).sum_of_signed
  | factorial a ih =>
    obtain ⟨d, hd, h⟩ := ih
    refine ⟨d + 1, by simp only [Expr.renderedDepth]; omega, ?_⟩
    exact .bracketed (Derives.unsigned (.base (.bangs 1 h))).sum_of_signed
  | call f a ih =>
    obtain ⟨d, hd, h⟩ := ih
    refine ⟨d + 1, by simp only [Expr.renderedDepth]; omega, ?_⟩
    exact .call h.signed_of_primary.sum_of_signed
  | binary op a b iha ihb =>
    obtain ⟨d, hd, ha⟩ := iha
    obtain ⟨d', hd', hb⟩ := ihb
    by_cases hop : op = .pow
    · subst hop
      refine ⟨max d (d' + 1) + 1, by simp only [Expr.renderedDepth]; omega, ?_⟩
      have h := Derives.raised ha.factorial_of_primary hb.signed_of_primary
      exact .bracketed (Derives.unsigned h).sum_of_signed
    · obtain ⟨l, ho⟩ := exists_layer hop
      refine ⟨max (d + 1) (d' + 1), by rw [Expr.renderedDepth_of_ne_pow hop]; omega, ?_⟩
      exact .bracketed (Derives.sum_of_op ho ha.signed_of_primary hb.signed_of_primary)

theorem derives_signed_tokens (e : Expr) : Derives .signed e.tokens e e.renderedDepth := by
  obtain ⟨d, hd, h⟩ := derives_tokens e
  rw [hd]
  exact h.signed_of_primary

variable {depth : Nat} {ts : List Token} {f : Fault}

theorem operand_eq_error (l : Layer) (h : Phrase.signed depth ts = .error f) :
    l.operand.read depth ts = .error f := by
  cases l with
  | sum => exact bind_eq_error h
  | product => exact h

theorem sum_of_chain_eq_error (l : Layer) (h : (Symbol.chain l).read depth ts = .error f) :
    Phrase.sum (Phrase.signed depth) ts = .error f := by
  cases l with
  | sum => exact h
  | product => exact bind_eq_error h

theorem sum_of_signed_eq_error (h : Phrase.signed depth ts = .error f) :
    Phrase.sum (Phrase.signed depth) ts = .error f := by
  apply sum_of_chain_eq_error .sum
  rw [read_chain]
  exact bind_eq_error (operand_eq_error .sum h)

theorem bracketed_eq_error {r : List Token}
    (h : Phrase.sum (Phrase.signed depth) (u ++ .closeParen :: r) = .error f) :
    Phrase.bracketed (Phrase.signed depth) (u ++ [.closeParen] ++ r) = .error f := by
  rw [List.append_assoc]
  exact bind_eq_error h

/-- Behind no sign a signed phrase is a power. -/
theorem signed_eq_power {w : List Token} {t : Token} (ht : strength t = 0) (hts : ts = t :: w) :
    Phrase.signed (depth + 1) ts = Phrase.power (Phrase.signed depth) ts := by
  have hm : t ≠ .minus := by
    intro hm
    rw [hm] at ht
    cases ht
  have hp : t ≠ .plus := by
    intro hp
    rw [hp] at ht
    cases ht
  rw [hts]
  exact Phrase.signed_of_ne hm hp depth w

theorem signed_eq_error {w : List Token} {t : Token} (ht : strength t = 0) (hts : ts = t :: w)
    (h : Phrase.primary (Phrase.signed depth) ts = .error f) :
    Phrase.signed (depth + 1) ts = .error f := by
  rw [signed_eq_power ht hts]
  exact bind_eq_error (bind_eq_error h)

/-- The operand in front of an operator is read, and the one behind it refused. -/
theorem sum_of_op_eq_error {l : Layer} {t : Token} {op : BinaryOp} (ho : l.op? t = some op)
    (hu : Derives .signed u a d) (hd : d ≤ depth) (ha : a.height ≤ maxHeight)
    (h : Phrase.signed depth ts = .error f) :
    Phrase.sum (Phrase.signed depth) (u ++ t :: ts) = .error f := by
  have hs : Stops l.operand (t :: ts) := by
    rw [stops_cons, strength_of_op? ho]
    exact l.level_lt_operand
  have hread := (hu.operand_of_signed l).read_eq_ok (operand_fits l) hd ha hs
  apply sum_of_chain_eq_error l
  rw [read_chain, hread]
  change Phrase.chain l.op? (l.operand.read depth) (Node.ofExpr a) _ = _
  rw [Phrase.chain_of_some ho]
  exact bind_eq_error (operand_eq_error l h)

theorem signed_raised_eq_error (hu : Derives .primary u a d) (hd : d ≤ depth)
    (ha : a.height ≤ maxHeight) (h : Phrase.signed depth ts = .error f) :
    Phrase.signed (depth + 1) (u ++ .caret :: ts) = .error f := by
  obtain ⟨t, w, hts, ht⟩ := hu.head_unsigned (.inr (.inr rfl)) (.caret :: ts)
  have hs : Stops .factorial (.caret :: ts) := stops_cons.2 (by decide)
  have hread : Phrase.factorial (Phrase.signed depth) (u ++ .caret :: ts) = _ :=
    hu.factorial_of_primary.read_eq_ok trivial hd ha hs
  rw [signed_eq_power ht hts, Phrase.power, hread]
  change (Phrase.signed depth ts >>= _) = _
  exact bind_eq_error h

theorem signed_bracketed_eq_error {r : List Token}
    (h : Phrase.sum (Phrase.signed depth) (u ++ .closeParen :: r) = .error f) :
    Phrase.signed (depth + 1) (.openParen :: (u ++ [.closeParen]) ++ r) = .error f := by
  apply signed_eq_error (t := .openParen) rfl rfl
  exact bracketed_eq_error h

/-- The tokens of a tree that is too deep are refused for the depth. No tree in them is too high,
for the height of a tree is at most its depth. -/
theorem signed_tokens_eq_error (e : Expr) (depth : Nat) (hle : depth ≤ maxDepth)
    (h : depth < e.renderedDepth) (r : List Token) :
    Phrase.signed depth (e.tokens ++ r) = .error (.tooDeep maxDepth) := by
  induction e generalizing depth r with
  | lit x =>
    have h0 : depth = 0 := Nat.lt_one_iff.mp h
    rw [h0]
    rfl
  | neg a ih =>
    cases depth with
    | zero => rfl
    | succ depth =>
      simp only [Expr.renderedDepth] at h
      apply signed_bracketed_eq_error
      apply sum_of_signed_eq_error
      cases depth with
      | zero => rfl
      | succ depth =>
        have ha := ih depth (by omega) (by omega) (.closeParen :: r)
        rw [List.cons_append, Phrase.signed_minus]
        exact bind_eq_error ha
  | factorial a ih =>
    cases depth with
    | zero => rfl
    | succ depth =>
      simp only [Expr.renderedDepth] at h
      apply signed_bracketed_eq_error
      apply sum_of_signed_eq_error
      rw [List.append_assoc]
      exact ih depth (by omega) (by omega) _
  | call g a ih =>
    cases depth with
    | zero => rfl
    | succ depth =>
      simp only [Expr.renderedDepth] at h
      have hs := ih depth (by omega) (by omega) (.closeParen :: r)
      have ha := bracketed_eq_error (sum_of_signed_eq_error hs)
      apply signed_eq_error (t := .word g.name) rfl rfl
      change Phrase.primary _ (.word g.name :: .openParen :: (a.tokens ++ [.closeParen] ++ r)) = _
      rw [Phrase.primary, Func.ofName?_name]
      exact bind_eq_error ha
  | binary op a b iha ihb =>
    cases depth with
    | zero => rfl
    | succ depth =>
      apply signed_bracketed_eq_error
      rw [List.append_assoc, List.cons_append]
      obtain hlt | hge := Nat.lt_or_ge depth a.renderedDepth
      · apply sum_of_signed_eq_error
        exact iha depth (by omega) hlt _
      have hh : a.height ≤ maxHeight := by
        have hmax : maxDepth ≤ maxHeight := by decide
        have hha := a.height_le_renderedDepth
        omega
      by_cases hop : op = .pow
      · subst hop
        simp only [Expr.renderedDepth] at h
        apply sum_of_signed_eq_error
        cases depth with
        | zero => rfl
        | succ depth =>
          obtain ⟨d, hd, ha⟩ := derives_tokens a
          have hb := ihb depth (by omega) (by omega) (.closeParen :: r)
          exact signed_raised_eq_error ha (by omega) hh hb
      · obtain ⟨l, ho⟩ := exists_layer hop
        rw [Expr.renderedDepth_of_ne_pow hop] at h
        have hb := ihb depth (by omega) (by omega) (.closeParen :: r)
        exact sum_of_op_eq_error ho (derives_signed_tokens a) hge hh hb

/-- The tokens of a tree are read as the tree, or refused for the depth. -/
theorem ofTokens_tokens (e : Expr) :
    Expr.ofTokens e.tokens =
      if e.renderedDepth ≤ maxDepth then .ok e else .error (.tooDeep maxDepth) := by
  have hd := (derives_signed_tokens e).sum_of_signed
  split
  · rename_i hle
    have hmax : maxDepth ≤ maxHeight := by decide
    have hh := e.height_le_renderedDepth
    exact ofTokens_of_derives_of_le hd hle (by omega)
  · rename_i hlt
    have he := signed_tokens_eq_error e maxDepth (Nat.le_refl _) (by omega) []
    rw [List.append_nil] at he
    rw [ofTokens_of_ne_nil hd.ne_nil]
    exact bind_eq_error (sum_of_signed_eq_error he)

end Grammar

namespace Token

/-- In front of `rest`, wherever that stands, `cs` is read as the tokens `ts`. -/
def Lexes (cs : List Char) (ts : List Token) (rest : List Char) : Prop :=
  ∀ p, ∃ p', readOn [] p (cs ++ rest) = (readOn [] p' rest).map (ts ++ ·)

theorem Lexes.append {cs ds rest : List Char} {ts us : List Token} (hc : Lexes cs ts (ds ++ rest))
    (hd : Lexes ds us rest) : Lexes (cs ++ ds) (ts ++ us) rest := by
  intro p
  obtain ⟨p₁, h₁⟩ := hc p
  obtain ⟨p₂, h₂⟩ := hd p₁
  refine ⟨p₂, ?_⟩
  rw [List.append_assoc, h₁, h₂]
  cases readOn [] p₂ rest with
  | error f => rfl
  | ok vs => simp [Except.map]

theorem Lexes.ofChars_eq {cs : List Char} {ts : List Token} (h : Lexes cs ts []) :
    ofChars cs = .ok ts := by
  obtain ⟨p, hp⟩ := h 0
  rw [List.append_nil] at hp
  rw [ofChars, hp, readOn]
  simp [Except.map]

theorem lexes_blank (rest : List Char) : Lexes [' '] [] rest := by
  intro p
  refine ⟨p + 1, ?_⟩
  rw [List.cons_append, readOn_blank p ' ' _ rfl, List.nil_append]
  cases readOn [] (p + 1) rest with
  | error f => rfl
  | ok vs => rfl

theorem lexes_sign {c : Char} {t : Token} {rest : List Char} (hb : Text.isBlank c = false)
    (h : ofSign? c rest = some (t, 0)) : Lexes [c] [t] rest := by
  intro p
  refine ⟨p + 1, ?_⟩
  have hl : lexeme p c ([] ++ rest) = .ok (t, ([] : List Char).length) := by
    rw [List.nil_append, lexeme, h]
    rfl
  exact readOn_token hb hl

theorem lexes_openParen (rest : List Char) : Lexes ['('] [.openParen] rest := lexes_sign rfl rfl

theorem lexes_closeParen (rest : List Char) : Lexes [')'] [.closeParen] rest := lexes_sign rfl rfl

theorem lexes_name (f : Func) (rest : List Char) :
    Lexes f.name.toList [.word f.name] ('(' :: rest) := by
  intro p
  have h : ∃ c cs, f.name.toList = c :: cs ∧ Text.isBlank c = false ∧
      lexeme p c (cs ++ '(' :: rest) = .ok (.word f.name, cs.length) := by
    cases f <;> exact ⟨_, _, rfl, rfl, rfl⟩
  obtain ⟨c, cs, hf, hb, hl⟩ := h
  refine ⟨p + 1 + cs.length, ?_⟩
  rw [hf]
  exact readOn_token hb hl

/-- A symbol stands between blanks, so that a star is not taken for one of two. -/
theorem lexes_symbol (op : BinaryOp) (rest : List Char) :
    Lexes (' ' :: (op.symbol.toList ++ [' '])) [op.token] rest := by
  have h : Lexes op.symbol.toList [op.token] (' ' :: rest) := by
    cases op <;> exact lexes_sign rfl rfl
  exact (lexes_blank _).append (h.append (lexes_blank rest))

end Token

open Token

/-- What stands behind a subtree in the text of a tree. -/
def endsPart (c : Char) : Bool := c = ' ' || c = ')' || c = '!'

theorem endsPart_cases {c : Char} (h : endsPart c = true) : c = ' ' ∨ c = ')' ∨ c = '!' := by
  simpa [endsPart, or_assoc] using h

/-- Nothing that starts behind a subtree in the text goes on with a numeral. -/
theorem endsNumeral_of_endsPart {c : Char} (h : endsPart c = true) (cs : List Char) :
    EndsNumeral (c :: cs) := by
  intro c' hc'
  cases hc'
  obtain rfl | rfl | rfl := endsPart_cases h
  all_goals decide

theorem Number.text_eq_chars {x : Float} (hx : x.isFinite = true) (hs : sign x = .positive) :
    ∃ d : Decimal, d.exp ≤ 0 ∧ (text x).toList = d.chars ∧ d.toFloat = x := by
  obtain ⟨d, hd, hc, hv⟩ := exists_chars_eq hx
  refine ⟨d, hd, ?_, ?_⟩
  · rw [text, String.toList_ofList, hc, hs]
    rfl
  · rw [hv]
    exact abs_eq_self hx hs

theorem Expr.lexes_text {e : Expr} (h : e.Unsigned) {rest : List Char} (hr : EndsNumeral rest) :
    Lexes e.text.toList e.tokens rest := by
  induction e generalizing rest with
  | lit x =>
    obtain ⟨d, hd, hc, hv⟩ := Number.text_eq_chars h.1 h.2
    intro p
    have hread := readOn_chars hd p hr
    rw [hv] at hread
    rw [Expr.text, hc]
    exact ⟨_, hread⟩
  | neg a ih =>
    have ha := ih h (endsNumeral_of_endsPart (c := ')') rfl rest)
    have hm : ∀ rest, Lexes ['-'] [.minus] rest := fun rest => lexes_sign rfl rfl
    have hall := (lexes_openParen _).append ((hm _).append (ha.append (lexes_closeParen rest)))
    simpa [Expr.text, Expr.tokens] using hall
  | factorial a ih =>
    have ha := ih h (endsNumeral_of_endsPart (c := '!') rfl (')' :: rest))
    have hm : ∀ rest, Lexes ['!'] [.bang] rest := fun rest => lexes_sign rfl rfl
    have hall := (lexes_openParen _).append (ha.append ((hm _).append (lexes_closeParen rest)))
    simpa [Expr.text, Expr.tokens] using hall
  | call f a ih =>
    have ha := ih h (endsNumeral_of_endsPart (c := ')') rfl rest)
    have hall := (lexes_name f _).append
      ((lexes_openParen _).append (ha.append (lexes_closeParen rest)))
    simpa [Expr.text, Expr.tokens] using hall
  | binary op a b iha ihb =>
    have hb := ihb h.2 (endsNumeral_of_endsPart (c := ')') rfl rest)
    have ha := iha h.1 (endsNumeral_of_endsPart (c := ' ') rfl
      (op.symbol.toList ++ ' ' :: (b.text.toList ++ ')' :: rest)))
    have hrest := (lexes_symbol op _).append (hb.append (lexes_closeParen rest))
    have hall := (lexes_openParen _).append (Lexes.append (by simpa using ha) hrest)
    simpa [Expr.text, Expr.tokens] using hall

theorem Expr.ofString_text {e : Expr} (h : e.Unsigned) : Token.ofString e.text = .ok e.tokens := by
  exact (Expr.lexes_text h EndsNumeral.nil).ofChars_eq

/-- The text of a tree whose literals have no sign is read as the tree, or refused exactly when its
signed phrases stand too deep inside each other. -/
theorem Expr.ofTokens_text (e : Expr) (h : e.Unsigned) :
    ∃ ts, Token.ofString e.text = .ok ts ∧
      Expr.ofTokens ts = if e.renderedDepth ≤ maxDepth then .ok e else .error (.tooDeep maxDepth) :=
  ⟨e.tokens, Expr.ofString_text h, Grammar.ofTokens_tokens e⟩

theorem Expr.iterate_neg (n : Nat) {a : Expr} (h : a.Unsigned) :
    (neg^[n] a).Unsigned ∧ (neg^[n] a).renderedDepth = 2 * n + a.renderedDepth := by
  induction n with
  | zero => exact ⟨h, by simp⟩
  | succ n ih =>
    rw [Function.iterate_succ_apply']
    refine ⟨ih.1, ?_⟩
    rw [renderedDepth, ih.2]
    omega

/-- A power of a negation and a factorial is read back; 128 negations inside each other are one
level too deep. -/
theorem Expr.ofTokens_text_power :
    (∃ ts, Token.ofString (binary .pow (neg (lit 2)) (factorial (lit 3))).text = .ok ts ∧
      Expr.ofTokens ts = .ok (binary .pow (neg (lit 2)) (factorial (lit 3)))) ∧
    (∃ ts, Token.ofString (neg^[128] (lit 1)).text = .ok ts ∧
      Expr.ofTokens ts = .error (.tooDeep maxDepth)) := by
  constructor
  · exact ofTokens_text (binary .pow (neg (lit 2)) (factorial (lit 3))) ⟨⟨rfl, rfl⟩, rfl, rfl⟩
  · obtain ⟨hu, hd⟩ := iterate_neg 128 (a := lit 1) ⟨rfl, rfl⟩
    obtain ⟨ts, hts, h⟩ := ofTokens_text _ hu
    rw [hd, if_neg (by decide)] at h
    exact ⟨ts, hts, h⟩

end SciCalc
