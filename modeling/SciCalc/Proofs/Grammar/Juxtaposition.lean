import SciCalc.Proofs.Grammar.Reading
import Mathlib.Data.List.Chain

namespace SciCalc.Grammar

def endsOperand : Token → Bool
  | .num _ | .pi | .euler | .closeParen | .bang => true
  | _ => false

/-- The signs of an operand are left out here, for behind an operand they are operators. -/
def startsUnsigned : Token → Bool
  | .num _ | .pi | .euler | .openParen | .word _ => true
  | _ => false

/-- The tokens `t` and `t'` are not the seam between two operands. -/
def Apart (t t' : Token) : Prop := endsOperand t = true → startsUnsigned t' = false

variable {s : Symbol} {u v : List Token} {t : Token} {e : Expr} {d : Nat}

theorem isChain_cons (ht : endsOperand t = false) (hu : u.IsChain Apart) :
    (t :: u).IsChain Apart := by
  refine List.isChain_cons.mpr ⟨fun t' _ h => ?_, hu⟩
  rw [ht] at h
  cases h

theorem isChain_append (hu : u.IsChain Apart) (hv : v.IsChain Apart)
    (hhead : ∀ t ∈ v.head?, startsUnsigned t = false) : (u ++ v).IsChain Apart :=
  List.isChain_append.mpr ⟨hu, hv, fun _ _ t ht _ => hhead t ht⟩

theorem class_of_op? {l : Layer} {op : BinaryOp} (h : l.op? t = some op) :
    endsOperand t = false ∧ startsUnsigned t = false := by
  cases l <;> cases t <;> first | exact ⟨rfl, rfl⟩ | cases h

/-- What follows the first part of a chain starts with an operator. -/
theorem Derives.head_rest {l : Layer} {a : Expr} (h : Derives (.rest l a) v e d) :
    ∀ t ∈ v.head?, startsUnsigned t = false := by
  intro t ht
  cases h with
  | done => cases ht
  | more ho =>
    cases ht
    exact (class_of_op? ho).2

theorem Derives.isChain (h : Derives s u e d) : u.IsChain Apart := by
  have hclose : ∀ {u : List Token}, u.IsChain Apart → (u ++ [Token.closeParen]).IsChain Apart := by
    intro u hu
    exact isChain_append hu (List.isChain_singleton _) (by simp [startsUnsigned])
  induction h with
  | chain _ hv ihu ihv => exact isChain_append ihu ihv hv.head_rest
  | done => exact List.isChain_nil
  | more ho _ hv ihu ihv =>
    exact isChain_cons (class_of_op? ho).1 (isChain_append ihu ihv hv.head_rest)
  | negative _ ih | positive _ ih => exact isChain_cons rfl ih
  | unsigned _ ih | base _ ih => exact ih
  | raised _ _ ihu ihv => exact isChain_append ihu (isChain_cons rfl ihv) (by simp [startsUnsigned])
  | bangs n _ ih =>
    refine isChain_append ih (List.isChain_replicate_of_rel n fun _ => rfl) ?_
    intro t ht
    rw [List.eq_of_mem_replicate (List.mem_of_mem_head? ht)]
    rfl
  | num | pi | euler => exact List.isChain_singleton _
  | bracketed _ ih => exact isChain_cons rfl (hclose ih)
  | call _ ih => exact isChain_cons rfl (isChain_cons rfl (hclose ih))

/-- No two operands side by side are read as a tree. -/
theorem not_beside_of_ofTokens {ts : List Token} {t t' : Token} (h : Expr.ofTokens ts = .ok e)
    (ht : endsOperand t = true) (ht' : startsUnsigned t' = true) : ¬[t, t'] <:+: ts := by
  intro hpart
  obtain ⟨_, hd, _⟩ := derives_of_ofTokens h
  have hpair := List.IsChain.infix hd.isChain hpart
  rw [(List.isChain_cons_cons.mp hpair).1 ht] at ht'
  cases ht'

end SciCalc.Grammar
