import SciCalc.Expr.Phrase
import Mathlib.Logic.Function.Iterate

namespace SciCalc.Grammar

/-- The two layers of operators that group to the left. -/
inductive Layer where
  | sum
  | product

/-- `rest l a` is what stands behind the first part of a phrase of layer `l`, with `a` the tree so
far. -/
inductive Symbol where
  | chain (l : Layer)
  | rest (l : Layer) (a : Expr)
  | signed
  | power
  | factorial
  | primary

namespace Layer

def op? : Layer → Token → Option BinaryOp
  | sum => Phrase.sumOp?
  | product => Phrase.productOp?

def operand : Layer → Symbol
  | sum => .chain .product
  | product => .signed

end Layer

abbrev Symbol.sum : Symbol := .chain .sum

abbrev Symbol.product : Symbol := .chain .product

/-- `Derives s u e d`: the tokens `u` are a phrase `s` with the tree `e`, by a derivation in which
no path from the root passes more than `d` times through `signed`, and one path does so `d`
times. -/
inductive Derives : Symbol → List Token → Expr → Nat → Prop
  | chain {l : Layer} {u v : List Token} {a e : Expr} {d d' : Nat} :
      Derives l.operand u a d → Derives (.rest l a) v e d' →
      Derives (.chain l) (u ++ v) e (max d d')
  | done {l : Layer} {a : Expr} : Derives (.rest l a) [] a 0
  | more {l : Layer} {t : Token} {op : BinaryOp} {u v : List Token} {a b e : Expr} {d d' : Nat} :
      l.op? t = some op → Derives l.operand u b d → Derives (.rest l (.binary op a b)) v e d' →
      Derives (.rest l a) (t :: (u ++ v)) e (max d d')
  | negative {u : List Token} {a : Expr} {d : Nat} :
      Derives .signed u a d → Derives .signed (.minus :: u) (.neg a) (d + 1)
  | positive {u : List Token} {a : Expr} {d : Nat} :
      Derives .signed u a d → Derives .signed (.plus :: u) a (d + 1)
  | unsigned {u : List Token} {a : Expr} {d : Nat} :
      Derives .power u a d → Derives .signed u a (d + 1)
  | base {u : List Token} {a : Expr} {d : Nat} : Derives .factorial u a d → Derives .power u a d
  | raised {u v : List Token} {a b : Expr} {d d' : Nat} :
      Derives .factorial u a d → Derives .signed v b d' →
      Derives .power (u ++ .caret :: v) (.binary .pow a b) (max d d')
  | bangs {u : List Token} {a : Expr} {d : Nat} (n : Nat) :
      Derives .primary u a d →
      Derives .factorial (u ++ List.replicate n .bang) (Expr.factorial^[n] a) d
  | num {x : Float} : Derives .primary [.num x] (.lit x) 0
  | pi : Derives .primary [.pi] (.lit Number.pi) 0
  | euler : Derives .primary [.euler] (.lit Number.euler) 0
  | bracketed {u : List Token} {e : Expr} {d : Nat} :
      Derives .sum u e d → Derives .primary (.openParen :: (u ++ [.closeParen])) e d
  | call {f : Func} {u : List Token} {a : Expr} {d : Nat} :
      Derives .sum u a d →
      Derives .primary (.word f.name :: .openParen :: (u ++ [.closeParen])) (.call f a) d

theorem Derives.chain_of_operand {l : Layer} {u : List Token} {e : Expr} {d : Nat}
    (h : Derives l.operand u e d) : Derives (.chain l) u e d := by
  have hc := Derives.chain h .done
  rwa [List.append_nil, Nat.max_zero] at hc

theorem Derives.sum_of_signed {u : List Token} {e : Expr} {d : Nat} (h : Derives .signed u e d) :
    Derives .sum u e d :=
  chain_of_operand (l := .sum) (chain_of_operand (l := .product) h)

theorem derives_num (x : Float) : Derives .sum [.num x] (.lit x) 1 :=
  Derives.sum_of_signed (.unsigned (.base (.bangs 0 .num)))

def Layer.level : Layer → Nat
  | sum => 1
  | product => 2

/-- How strongly a phrase binds: a stronger one stands in a weaker one without brackets. -/
def Symbol.level : Symbol → Nat
  | chain l | rest l _ => l.level
  | signed | power => 3
  | factorial => 4
  | primary => 5

theorem Symbol.level_pos (s : Symbol) : 0 < s.level := by
  cases s <;> first | exact Nat.succ_pos _ | (rename_i l _; cases l <;> exact Nat.succ_pos _) | skip
  rename_i l
  cases l <;> exact Nat.succ_pos _

/-- The level of the phrases that a token can go on with; the tokens of strength zero end every
phrase. -/
def strength : Token → Nat
  | .plus | .minus => 1
  | .star | .slash => 2
  | .caret => 3
  | .bang => 4
  | _ => 0

/-- A phrase `s` in front of `r` ends there, whatever the phrase is. -/
def Stops (s : Symbol) (r : List Token) : Prop := ∀ t ∈ r.head?, strength t < s.level

theorem stops_nil (s : Symbol) : Stops s [] := by
  intro t ht
  cases ht

theorem stops_cons {s : Symbol} {t : Token} {r : List Token} :
    Stops s (t :: r) ↔ strength t < s.level := by
  simp [Stops]

theorem stops_closeParen (s : Symbol) (r : List Token) : Stops s (.closeParen :: r) :=
  stops_cons.2 s.level_pos

theorem stops_primary (r : List Token) : Stops .primary r := by
  intro t _
  cases t <;> exact Nat.lt_of_sub_eq_succ rfl

theorem Stops.mono {s s' : Symbol} {r : List Token} (h : Stops s r) (hl : s.level ≤ s'.level) :
    Stops s' r := fun t ht => Nat.lt_of_lt_of_le (h t ht) hl

/-- The operators of a layer are the tokens of its strength. -/
theorem strength_of_op? {l : Layer} {t : Token} {op : BinaryOp} (h : l.op? t = some op) :
    strength t = l.level := by
  cases l <;> cases t <;> first | rfl | cases h

theorem Layer.level_lt_operand (l : Layer) : l.level < l.operand.level := by
  cases l <;> decide

/-- What follows the first part of a chain ends that part. -/
theorem Derives.stops_operand {l : Layer} {a e : Expr} {v r : List Token} {d : Nat}
    (h : Derives (.rest l a) v e d) (hr : Stops (.chain l) r) : Stops l.operand (v ++ r) := by
  cases h with
  | done => exact hr.mono (Nat.le_of_lt l.level_lt_operand)
  | more ho _ _ =>
    rw [List.cons_append, stops_cons, strength_of_op? ho]
    exact l.level_lt_operand

/-- A phrase stronger than a sign does not start with a sign. -/
theorem Derives.head_unsigned {s : Symbol} {u : List Token} {e : Expr} {d : Nat}
    (h : Derives s u e d) (hs : s = .power ∨ s = .factorial ∨ s = .primary) (r : List Token) :
    ∃ t w, u ++ r = t :: w ∧ strength t = 0 := by
  induction h generalizing r with
  | base _ ih => exact ih (by simp) r
  | raised _ _ ih _ =>
    rw [List.append_assoc]
    exact ih (by simp) _
  | bangs _ _ ih =>
    rw [List.append_assoc]
    exact ih (by simp) _
  | num | pi | euler | bracketed | call => exact ⟨_, _, rfl, rfl⟩
  | _ => simp at hs

theorem Derives.not_op {s : Symbol} {u r w : List Token} {e : Expr} {d : Nat} {t : Token}
    (h : Derives s u e d) (hs : s = .power ∨ s = .factorial ∨ s = .primary) (ht : 0 < strength t) :
    u ++ r ≠ t :: w := by
  intro he
  obtain ⟨t', w', hu, ht'⟩ := h.head_unsigned hs r
  cases hu.symm.trans he
  omega

/-- Equal numbers of factorial signs, as none follows. -/
theorem replicate_bang_inj {n n' : Nat} {r r' : List Token} (hr : Stops .factorial r)
    (hr' : Stops .factorial r')
    (h : List.replicate n Token.bang ++ r = List.replicate n' Token.bang ++ r') :
    n = n' ∧ r = r' := by
  induction n generalizing n' with
  | zero =>
    cases n' with
    | zero => exact ⟨rfl, h⟩
    | succ n' =>
      have : r = .bang :: (List.replicate n' .bang ++ r') := h
      subst this
      exact absurd (stops_cons.1 hr) (by decide)
  | succ n ih =>
    cases n' with
    | zero =>
      have : r' = .bang :: (List.replicate n .bang ++ r) := h.symm
      subst this
      exact absurd (stops_cons.1 hr') (by decide)
    | succ n' =>
      obtain ⟨rfl, hr⟩ := ih (List.cons.inj h).2
      exact ⟨rfl, hr⟩

/-- In front of tokens that end it, a phrase is read in one way. -/
theorem Derives.unique {s : Symbol} {u u' r r' : List Token} {e e' : Expr} {d d' : Nat}
    (h : Derives s u e d) (h' : Derives s u' e' d') (hr : Stops s r) (hr' : Stops s r')
    (hu : u ++ r = u' ++ r') : e = e' ∧ d = d' ∧ r = r' := by
  induction h generalizing u' r r' e' d' with
  | chain _ hv ihu ihv =>
    cases h' with
    | chain hu' hv' =>
      rw [List.append_assoc, List.append_assoc] at hu
      obtain ⟨rfl, rfl, hvr⟩ := ihu hu' (hv.stops_operand hr) (hv'.stops_operand hr') hu
      obtain ⟨rfl, rfl, rfl⟩ := ihv hv' hr hr' hvr
      exact ⟨rfl, rfl, rfl⟩
  | done =>
    cases h' with
    | done => exact ⟨rfl, rfl, hu⟩
    | more ho _ _ =>
      simp only [List.nil_append, List.cons_append] at hu
      subst hu
      have := stops_cons.1 hr
      rw [strength_of_op? ho] at this
      exact absurd this (Nat.lt_irrefl _)
  | more ho _ hv ihu ihv =>
    cases h' with
    | done =>
      simp only [List.nil_append, List.cons_append] at hu
      subst hu
      have := stops_cons.1 hr'
      rw [strength_of_op? ho] at this
      exact absurd this (Nat.lt_irrefl _)
    | more ho' hu' hv' =>
      simp only [List.cons_append, List.append_assoc, List.cons.injEq] at hu
      obtain ⟨rfl, hu⟩ := hu
      cases ho.symm.trans ho'
      obtain ⟨rfl, rfl, hvr⟩ := ihu hu' (hv.stops_operand hr) (hv'.stops_operand hr') hu
      obtain ⟨rfl, rfl, rfl⟩ := ihv hv' hr hr' hvr
      exact ⟨rfl, rfl, rfl⟩
  | negative _ ih =>
    cases h' with
    | negative hu' =>
      obtain ⟨rfl, rfl, rfl⟩ := ih hu' hr hr' (List.cons.inj hu).2
      exact ⟨rfl, rfl, rfl⟩
    | positive _ => cases (List.cons.inj hu).1
    | unsigned hp => exact absurd hu.symm (hp.not_op (.inl rfl) (by decide))
  | positive _ ih =>
    cases h' with
    | negative _ => cases (List.cons.inj hu).1
    | positive hu' =>
      obtain ⟨rfl, rfl, rfl⟩ := ih hu' hr hr' (List.cons.inj hu).2
      exact ⟨rfl, rfl, rfl⟩
    | unsigned hp => exact absurd hu.symm (hp.not_op (.inl rfl) (by decide))
  | unsigned hp ih =>
    cases h' with
    | negative _ => exact absurd hu (hp.not_op (.inl rfl) (by decide))
    | positive _ => exact absurd hu (hp.not_op (.inl rfl) (by decide))
    | unsigned hp' =>
      obtain ⟨rfl, rfl, rfl⟩ := ih hp' hr hr' hu
      exact ⟨rfl, rfl, rfl⟩
  | base _ ih =>
    cases h' with
    | base hu' => exact ih hu' (hr.mono (by decide)) (hr'.mono (by decide)) hu
    | raised hu' _ =>
      rw [List.append_assoc] at hu
      obtain ⟨-, -, rfl⟩ := ih hu' (hr.mono (by decide)) (stops_cons.2 (by decide)) hu
      exact absurd (stops_cons.1 hr) (by decide)
  | raised _ _ ihu ihv =>
    rw [List.append_assoc] at hu
    cases h' with
    | base hu' =>
      obtain ⟨-, -, rfl⟩ := ihu hu' (stops_cons.2 (by decide)) (hr'.mono (by decide)) hu
      exact absurd (stops_cons.1 hr') (by decide)
    | raised hu' hv' =>
      rw [List.append_assoc] at hu
      obtain ⟨rfl, rfl, hvr⟩ := ihu hu' (stops_cons.2 (by decide)) (stops_cons.2 (by decide)) hu
      obtain ⟨rfl, rfl, rfl⟩ := ihv hv' hr hr' (List.cons.inj hvr).2
      exact ⟨rfl, rfl, rfl⟩
  | bangs _ _ ih =>
    cases h' with
    | bangs _ hu' =>
      rw [List.append_assoc, List.append_assoc] at hu
      obtain ⟨rfl, rfl, hbr⟩ := ih hu' (stops_primary _) (stops_primary _) hu
      obtain ⟨rfl, rfl⟩ := replicate_bang_inj hr hr' hbr
      exact ⟨rfl, rfl, rfl⟩
  | num =>
    cases h' <;> cases hu
    exact ⟨rfl, rfl, rfl⟩
  | pi =>
    cases h' <;> cases hu
    exact ⟨rfl, rfl, rfl⟩
  | euler =>
    cases h' <;> cases hu
    exact ⟨rfl, rfl, rfl⟩
  | bracketed _ ih =>
    cases h' with
    | bracketed hu' =>
      simp only [List.cons_append, List.append_assoc, List.cons.injEq, true_and,
        List.nil_append] at hu
      obtain ⟨rfl, rfl, hvr⟩ := ih hu' (stops_closeParen _ _) (stops_closeParen _ _) hu
      exact ⟨rfl, rfl, (List.cons.inj hvr).2⟩
    | num | pi | euler | call => cases (List.cons.inj hu).1
  | call _ ih =>
    cases h' with
    | call hu' =>
      simp only [List.cons_append, List.append_assoc, List.cons.injEq, true_and, List.nil_append,
        Token.word.injEq] at hu
      obtain ⟨rfl, rfl, hvr⟩ := ih hu' (stops_closeParen _ _) (stops_closeParen _ _) hu.2
      cases Func.name_inj hu.1
      exact ⟨rfl, rfl, (List.cons.inj hvr).2⟩
    | num | pi | euler | bracketed => cases (List.cons.inj hu).1

end SciCalc.Grammar
