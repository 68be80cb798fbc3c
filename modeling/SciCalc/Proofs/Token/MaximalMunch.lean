import SciCalc.Proofs.Token.Lexeme

namespace SciCalc.Token

/-- The tokens `ts` are taken from `cs`, and `rest` is left. -/
inductive Reads : List Char → List Token → List Char → Prop
  | done (rest : List Char) : Reads rest [] rest
  | blank {c : Char} {cs rest : List Char} {ts : List Token} (hb : Text.isBlank c = true)
      (h : Reads cs ts rest) : Reads (c :: cs) ts rest
  | lexeme {l cs rest : List Char} {t : Token} {ts : List Token} (hl : Longest l t (l ++ cs))
      (hp : ∀ m, ¬SecondPoint m (l ++ cs)) (h : Reads cs ts rest) : Reads (l ++ cs) (t :: ts) rest

namespace Reads

variable {cs rest : List Char} {ts : List Token}

/-- Nothing is lost, and `readOn` goes on behind what was taken. -/
theorem readOn_eq (h : Reads cs ts rest) :
    ∃ front, cs = front ++ rest ∧
      ∀ p, readOn [] p cs = (readOn [] (p + front.length) rest).map (ts ++ ·) := by
  induction h with
  | done rest =>
    refine ⟨[], rfl, fun p => ?_⟩
    cases readOn [] p rest <;> rfl
  | @blank c cs rest ts hb h ih =>
    obtain ⟨front, rfl, hf⟩ := ih
    refine ⟨c :: front, rfl, fun p => ?_⟩
    rw [readOn_blank p c _ hb, hf, List.length_cons]
    congr 2
    omega
  | @lexeme l cs rest t ts hl hp h ih =>
    obtain ⟨front, rfl, hf⟩ := ih
    refine ⟨l ++ front, by rw [List.append_assoc], fun p => ?_⟩
    obtain ⟨c, ds, rfl, hb, hlex⟩ := lexeme_of_longest p hl hp
    rw [List.cons_append, readOn_token hb hlex, hf, List.length_append, List.length_cons]
    rw [show p + 1 + ds.length + front.length = p + (ds.length + 1 + front.length) by omega]
    cases readOn [] (p + (ds.length + 1 + front.length)) rest <;> rfl

theorem ofChars_eq (h : Reads cs ts []) : ofChars cs = .ok ts := by
  obtain ⟨front, _, hf⟩ := h.readOn_eq
  rw [ofChars, hf, readOn]
  simp [Except.map]

theorem ofChars_eq_error {front : List Char} {f : Fault} (h : Reads cs ts rest)
    (hcs : cs = front ++ rest) (hu : Unreadable front.length rest f) : ofChars cs = .error f := by
  obtain ⟨front', hcs', hf⟩ := h.readOn_eq
  obtain rfl : front' = front := List.append_cancel_right (hcs'.symm.trans hcs)
  obtain ⟨c, ds, rfl, hb, hl⟩ := lexeme_of_unreadable hu
  rw [ofChars, hf, Nat.zero_add, readOn_lexeme _ c ds hb, hl]
  rfl

end Reads

/-- Either everything is taken, or what is left is unreadable. -/
theorem reads_of_readOn (p : ℕ) (cs : List Char) :
    (∃ ts, readOn [] p cs = .ok ts ∧ Reads cs ts []) ∨
      ∃ f front rest ts, readOn [] p cs = .error f ∧ cs = front ++ rest ∧ Reads cs ts rest ∧
        Unreadable (p + front.length) rest f := by
  induction hn : cs.length using Nat.strongRecOn generalizing p cs with
  | ind n ih =>
    cases cs with
    | nil => exact .inl ⟨[], by rw [readOn]; rfl, .done []⟩
    | cons c cs =>
      cases hb : Text.isBlank c with
      | true =>
        rw [readOn_blank p c cs hb]
        obtain ⟨ts, hr, hts⟩ | ⟨f, front, rest, ts, hr, rfl, hts, hu⟩ :=
          ih cs.length (by simp at hn; omega) (p + 1) cs rfl
        · exact .inl ⟨ts, hr, .blank hb hts⟩
        · refine .inr ⟨f, c :: front, rest, ts, hr, rfl, .blank hb hts, ?_⟩
          rwa [List.length_cons, show p + (front.length + 1) = p + 1 + front.length by omega]
      | false =>
        rw [readOn_lexeme p c cs hb]
        cases hl : Token.lexeme p c cs with
        | error f =>
          exact .inr ⟨f, [], c :: cs, [], rfl, rfl, .done _, unreadable_of_lexeme hb hl⟩
        | ok found =>
          obtain ⟨t, k⟩ := found
          obtain ⟨hlong, hk, hp⟩ := longest_of_lexeme hl
          have hsplit : c :: cs = (c :: cs.take k) ++ cs.drop k := by simp
          have hlen : (cs.take k).length = k := by simp [hk]
          obtain ⟨ts, hr, hts⟩ | ⟨f, front, rest, ts, hr, hfront, hts, hu⟩ :=
            ih (cs.drop k).length (by simp at hn ⊢; omega) (p + 1 + k) (cs.drop k) rfl
          · refine .inl ⟨t :: ts, ?_, ?_⟩
            · simp only [bind, Except.bind, hr]
              rfl
            · rw [hsplit] at hlong hp ⊢
              exact .lexeme hlong hp hts
          · refine .inr ⟨f, (c :: cs.take k) ++ front, rest, t :: ts, ?_, ?_, ?_, ?_⟩
            · simp only [bind, Except.bind, hr]
            · rw [List.append_assoc, ← hfront, ← hsplit]
            · rw [hsplit] at hlong hp ⊢
              exact .lexeme hlong hp hts
            · rw [List.length_append, List.length_cons, hlen]
              rwa [show p + (k + 1 + front.length) = p + 1 + k + front.length by omega]

theorem reads_of_ofChars {cs : List Char} {ts : List Token} (h : ofChars cs = .ok ts) :
    Reads cs ts [] := by
  obtain ⟨us, hr, hus⟩ | ⟨f, _, _, _, hr, _⟩ := reads_of_readOn 0 cs
  · rw [ofChars, hr] at h
    cases h
    exact hus
  · rw [ofChars, hr] at h
    cases h

theorem unreadable_of_ofChars {cs : List Char} {f : Fault} (h : ofChars cs = .error f) :
    ∃ front rest ts, cs = front ++ rest ∧ Reads cs ts rest ∧ Unreadable front.length rest f := by
  obtain ⟨us, hr, _⟩ | ⟨f', front, rest, ts, hr, hcs, hts, hu⟩ := reads_of_readOn 0 cs
  · rw [ofChars, hr] at h
    cases h
  · rw [ofChars, hr] at h
    cases h
    rw [Nat.zero_add] at hu
    exact ⟨front, rest, ts, hcs, hts, hu⟩

/-- A text has the tokens of its longest lexemes, or the fault at the first place where none can be
taken; and the characters of a number are always read as that number. -/
theorem ofString_maximal_munch (s : String) :
    (∀ ts, ofString s = .ok ts ↔ Reads s.toList ts []) ∧
    (∀ f, ofString s = .error f ↔ ∃ front rest ts, s.toList = front ++ rest ∧
      Reads s.toList ts rest ∧ Unreadable front.length rest f) ∧
    ∀ n : Numeral, n.WellFormed → Numeral.ofChars? n.chars = some n := by
  refine ⟨fun ts => ⟨reads_of_ofChars, Reads.ofChars_eq⟩, fun f => ⟨unreadable_of_ofChars, ?_⟩,
    fun n hn => hn.ofChars?_chars⟩
  rintro ⟨front, rest, ts, hs, hr, hu⟩
  exact hr.ofChars_eq_error hs hu

end SciCalc.Token
