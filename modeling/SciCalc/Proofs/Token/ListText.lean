import SciCalc.Proofs.Grammar.Rendering
import SciCalc.Proofs.Token.Blank
import SciCalc.Proofs.Token.Range

namespace SciCalc.Token

open Number

variable {t : Token} {ts : List Token} {w : String}

/-- The tokens that are written as they are read: numbers without a sign, and names. -/
def Written : Token → Prop
  | num x => x.isFinite = true ∧ sign x = .positive
  | word w => IsName w
  | _ => True

theorem IsName.lowered_eq (h : IsName w) : lowered w.toList = w := by
  have hmap : w.toList.map Char.toLower = w.toList := by
    refine (List.map_congr_left fun c hc => ?_).trans (List.map_id _)
    exact Char.toLower_eq_of_not_isUpper (Char.not_isUpper_of_isLower (h.isLower c hc))
  rw [lowered, hmap, String.ofList_toList]

theorem IsName.lexeme (h : IsName w) : Lexeme w.toList (.word w) := by
  have hne : w.toList ≠ [] := fun hnil => h.ne_empty (String.toList_eq_nil_iff.mp hnil)
  have ha : ∀ c ∈ w.toList, c.isAlpha = true := by
    intro c hc
    rw [Char.isAlpha, h.isLower c hc, Bool.or_true]
  have hl := h.lowered_eq
  have hlex := Lexeme.word hne ha (by rw [hl]; exact h.ne_pi) (by rw [hl]; exact h.ne_euler)
  rwa [hl] at hlex

theorem lexeme_num_text {x : Float} (hx : x.isFinite = true) (hs : sign x = .positive) :
    Lexeme (Number.text x).toList (.num x) := by
  obtain ⟨d, hd, htext, hv⟩ := Number.text_eq_chars hx hs
  obtain ⟨n, hn, hchars⟩ := d.exists_numeral
  have hfloat : n.toFloat = x := by
    rw [Numeral.toFloat, hn.toDecimal_eq hd hchars, hv]
  rw [htext, ← hchars, ← hfloat]
  exact .number hn.toWellFormed

theorem lexeme_text (h : t.Written) : Lexeme t.text.toList t := by
  cases t with
  | num x => exact lexeme_num_text h.1 h.2
  | word w => exact IsName.lexeme h
  | euler => exact .euler (by simp [text]) (by decide)
  | _ => exact .sign (by decide)

/-- By induction on the list: in front of the rest stands the lexeme of a token, and a blank. -/
theorem reads_listText (h : ∀ t ∈ ts, t.Written) : Reads (listText ts).toList ts [] := by
  induction ts with
  | nil => exact .done []
  | cons t ts ih =>
    have ht := (lexeme_text (h t List.mem_cons_self)).reads
    cases ts with
    | nil =>
      rw [listText, List.map_singleton, String.intercalate_singleton]
      exact ht
    | cons u us =>
      have hrest := ih fun u hu => h u (List.mem_cons_of_mem t hu)
      rw [listText, List.map_cons, List.map_cons, String.intercalate_cons_cons,
        String.toList_append, String.toList_append]
      exact ht.append_blanks_append (by simp) (by simp [Text.isBlank]) hrest

theorem Lexeme.written {l : List Char} (h : Lexeme l t) (hf : ∀ x, t = .num x → x.isFinite = true) :
    t.Written := by
  cases t with
  | num x =>
    obtain ⟨n, _, _, rfl⟩ := h.exists_numeral
    exact ⟨hf _ rfl, n.toDecimal.sign_toFloat⟩
  | word w => exact h.isName
  | _ => exact trivial

/-- Every list of tokens that is read from some text and has no infinite number is read back from
its own text; so no two of them have the same text. -/
theorem ofString_listText (s : String) (ts : List Token) (h : ofString s = .ok ts)
    (hf : ∀ x, .num x ∈ ts → x.isFinite = true) :
    ofString (listText ts) = .ok ts ∧
    ∀ s' us, ofString s' = .ok us → (∀ x, .num x ∈ us → x.isFinite = true) →
    listText ts = listText us → ts = us := by
  have hback : ∀ s ts, ofString s = .ok ts → (∀ x, .num x ∈ ts → x.isFinite = true) →
      ofString (listText ts) = .ok ts := by
    intro s ts h hf
    apply (reads_listText fun t ht => ?_).ofChars_eq
    obtain ⟨l, hl, _⟩ := (reads_of_ofChars h).exists_lexeme ht
    exact hl.written fun x hx => hf x (hx ▸ ht)
  refine ⟨hback s ts h hf, fun s' us h' hf' htext => ?_⟩
  have hread := hback s ts h hf
  rw [htext, hback s' us h' hf'] at hread
  exact (Except.ok.inj hread).symm

/-- The text of a number with an exponent, the root, a constant in capitals and two stars is read
back, and it is not the text of the list with a power. -/
theorem ofString_listText_stars :
    ofString "2e-1√PI* *" = .ok [.num 0.2, .word "sqrt", .pi, .star, .star] ∧
    listText [.num 0.2, .word "sqrt", .pi, .star, .star] = "0.2 sqrt π * *" ∧
    ofString "0.2 sqrt π * *" = .ok [.num 0.2, .word "sqrt", .pi, .star, .star] ∧
    ofString ".2√π**" = .ok [.num 0.2, .word "sqrt", .pi, .caret] ∧
    listText [.num 0.2, .word "sqrt", .pi, .star, .star] ≠
      listText [.num 0.2, .word "sqrt", .pi, .caret] := by
  have hstars : ofString "2e-1√PI* *" = .ok [.num 0.2, .word "sqrt", .pi, .star, .star] := by
    decide +kernel
  have hcaret : ofString ".2√π**" = .ok [.num 0.2, .word "sqrt", .pi, .caret] := by decide +kernel
  have hfinite : (0.2 : Float).isFinite = true := by decide +kernel
  have htext : listText [.num 0.2, .word "sqrt", .pi, .star, .star] = "0.2 sqrt π * *" := by
    decide +kernel
  obtain ⟨hback, hone⟩ := ofString_listText _ _ hstars (by simpa using hfinite)
  refine ⟨hstars, htext, htext ▸ hback, hcaret, fun heq => ?_⟩
  have hlists := hone _ _ hcaret (by simpa using hfinite) heq
  simp at hlists

end SciCalc.Token
