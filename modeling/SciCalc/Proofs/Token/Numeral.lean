import SciCalc.Token.Lexer
import Mathlib

namespace SciCalc

structure Exponent.WellFormed (x : Exponent) : Prop where
  marker : x.marker = 'e' ∨ x.marker = 'E'
  sign : x.sign = [] ∨ x.sign = ['+'] ∨ x.sign = ['-']
  digits_ne_nil : x.digits ≠ []
  isDigit : ∀ c ∈ x.digits, c.isDigit = true

/-- A digit stands in front of the point or behind it. -/
structure Numeral.WellFormed (n : Numeral) : Prop where
  whole : ∀ c ∈ n.whole, c.isDigit = true
  fraction : ∀ ds, n.fraction = some ds → ∀ c ∈ ds, c.isDigit = true
  ne_nil : n.whole ≠ [] ∨ n.fraction.getD [] ≠ []
  exponent : ∀ x, n.exponent = some x → x.WellFormed

theorem isDigit_of_mem_takeWhile {c : Char} {cs : List Char} (h : c ∈ cs.takeWhile Char.isDigit) :
    c.isDigit = true := List.mem_takeWhile_imp h

theorem head?_dropWhile_isDigit (cs : List Char) (c : Char)
    (h : (cs.dropWhile Char.isDigit).head? = some c) : c.isDigit = false := by
  have hn := List.head?_dropWhile_not Char.isDigit cs
  rw [h] at hn
  simpa using hn

namespace Exponent

variable {x : Exponent} {cs : List Char}

theorem WellFormed.head_ne (h : x.WellFormed) (rest : List Char) :
    ∀ c, (x.chars ++ rest).head? = some c → c.isDigit = false ∧ c ≠ '.' := by
  intro c hc
  cases hc
  obtain hm | hm := h.marker
  all_goals
    rw [hm]
    exact ⟨by decide, by decide⟩

/-- An exponent is scanned with all digits that follow it. -/
theorem WellFormed.scan?_append (h : x.WellFormed) (rest : List Char) :
    scan? (x.chars ++ rest) =
      some ⟨x.marker, x.sign, x.digits ++ rest.takeWhile Char.isDigit⟩ := by
  obtain ⟨marker, sign, digits⟩ := x
  obtain ⟨hm, hs, hne, hd⟩ := h
  simp only at hm hs hne hd
  have ht : (digits ++ rest).takeWhile Char.isDigit = digits ++ rest.takeWhile Char.isDigit :=
    List.takeWhile_append_of_pos hd
  have hfront : ((sign ++ (digits ++ rest)).take 1).filter (fun c => c = '+' || c = '-') =
      sign := by
    obtain rfl | rfl | rfl := hs
    · obtain ⟨c, ds, rfl⟩ := List.exists_cons_of_ne_nil hne
      have hc := hd c List.mem_cons_self
      have hp : c ≠ '+' := fun he => absurd (he ▸ hc) (by decide)
      have hn : c ≠ '-' := fun he => absurd (he ▸ hc) (by decide)
      simp [hp, hn]
    · rfl
    · rfl
  simp only [chars, List.cons_append, List.append_assoc, scan?, hfront, List.drop_left, ht]
  rw [if_pos]
  simp [hm, hne]

theorem wellFormed_of_scan? (h : scan? cs = some x) : x.WellFormed := by
  cases cs with
  | nil => cases h
  | cons m cs =>
    simp only [scan?] at h
    split at h
    · rename_i hm
      cases h
      simp only [Bool.and_eq_true, Bool.or_eq_true, decide_eq_true_eq, Bool.not_eq_true',
        List.isEmpty_eq_false_iff] at hm
      refine ⟨hm.1, ?_, hm.2, fun c => isDigit_of_mem_takeWhile⟩
      cases cs with
      | nil => exact .inl rfl
      | cons c cs =>
        by_cases hp : c = '+'
        · exact .inr (.inl (by simp [hp]))
        · by_cases hn : c = '-'
          · exact .inr (.inr (by simp [hn]))
          · exact .inl (by simp [hp, hn])
    · cases h

end Exponent

namespace Numeral

variable {n : Numeral} {cs : List Char}

/-- A mantissa is scanned up to what does not go on with it. -/
theorem scan_append {whole : List Char} (fraction : Option (List Char)) (rest : List Char)
    (hw : ∀ c ∈ whole, c.isDigit = true)
    (hf : ∀ ds, fraction = some ds → ∀ c ∈ ds, c.isDigit = true)
    (hr : ∀ c, rest.head? = some c → c.isDigit = false)
    (hp : fraction = none → rest.head? ≠ some '.') :
    scan ((⟨whole, fraction, none⟩ : Numeral).mantissa ++ rest) =
      ⟨whole, fraction, Exponent.scan? rest⟩ := by
  cases fraction with
  | none =>
    obtain ⟨ht, hd⟩ := takeWhile_all hw hr
    have hs : scanFraction rest = none := by
      unfold scanFraction
      split
      · exact absurd rfl (hp rfl)
      · rfl
    simp [scan, mantissa, ht, hd, hs]
  | some ds =>
    obtain ⟨ht, hd⟩ := takeWhile_all (r := '.' :: (ds ++ rest)) hw (by simp)
    have hs : scanFraction ('.' :: (ds ++ rest)) = some ds :=
      congrArg some (takeWhile_all (hf ds rfl) hr).1
    simp [scan, mantissa, ht, hd, hs]

theorem hasDigits_iff : n.hasDigits = true ↔ n.whole ≠ [] ∨ n.fraction.getD [] ≠ [] := by
  simp [hasDigits]

theorem wellFormed_scan (h : (scan cs).hasDigits = true) : (scan cs).WellFormed where
  whole _ := isDigit_of_mem_takeWhile
  fraction ds hds := by
    intro c hc
    change scanFraction _ = some ds at hds
    unfold scanFraction at hds
    split at hds
    · cases hds
      exact isDigit_of_mem_takeWhile hc
    · cases hds
  ne_nil := hasDigits_iff.mp h
  exponent _ := Exponent.wellFormed_of_scan?

/-- A numeral is scanned as itself. -/
theorem WellFormed.scan_chars (h : n.WellFormed) : scan n.chars = n := by
  obtain ⟨whole, fraction, exponent⟩ := n
  cases exponent with
  | none =>
    exact scan_append fraction [] h.whole h.fraction (by simp) (by simp)
  | some x =>
    have hx := h.exponent x rfl
    have hr : ∀ c, x.chars.head? = some c → c.isDigit = false ∧ c ≠ '.' := by
      simpa using hx.head_ne []
    have hs := scan_append fraction x.chars h.whole h.fraction (fun c hc => (hr c hc).1)
      (fun _ hc => (hr '.' hc).2 rfl)
    have he := hx.scan?_append []
    rw [List.append_nil, List.takeWhile_nil, List.append_nil] at he
    rw [he] at hs
    exact hs

theorem WellFormed.chars_inj {n' : Numeral} (h : n.WellFormed) (h' : n'.WellFormed)
    (he : n.chars = n'.chars) : n = n' := by
  rw [← h.scan_chars, ← h'.scan_chars, he]

theorem WellFormed.exists_chars_eq_cons (h : n.WellFormed) :
    ∃ c cs, n.chars = c :: cs ∧ (c.isDigit = true ∨ c = '.') := by
  obtain ⟨whole, fraction, exponent⟩ := n
  cases whole with
  | cons d ds => exact ⟨d, _, rfl, .inl (h.whole d List.mem_cons_self)⟩
  | nil =>
    cases fraction with
    | none => exact absurd h.ne_nil (by simp)
    | some ds => exact ⟨'.', _, rfl, .inr rfl⟩

theorem WellFormed.isDigit_or_mem (h : n.WellFormed) (c : Char) (hc : c ∈ n.chars) :
    c.isDigit = true ∨ c ∈ ['.', 'e', 'E', '+', '-'] := by
  obtain ⟨whole, fraction, exponent⟩ := n
  obtain hm | hx := List.mem_append.mp hc
  · obtain hw | hf := List.mem_append.mp hm
    · exact .inl (h.whole c hw)
    · cases fraction with
      | none => simp at hf
      | some ds =>
        obtain rfl | hf := List.mem_cons.mp hf
        · exact .inr (by simp)
        · exact .inl (h.fraction ds rfl c hf)
  · cases exponent with
    | none => simp at hx
    | some x =>
      have hwf := h.exponent x rfl
      obtain rfl | hx := List.mem_cons.mp hx
      · obtain hm | hm := hwf.marker <;> simp [hm]
      · obtain hs | hd := List.mem_append.mp hx
        · obtain hs' | hs' | hs' := hwf.sign
          all_goals
            rw [hs'] at hs
            simp at hs
          all_goals simp [hs]
        · exact .inl (hwf.isDigit c hd)

theorem WellFormed.ofChars?_chars (h : n.WellFormed) : ofChars? n.chars = some n := by
  unfold ofChars?
  simp [h.scan_chars, hasDigits_iff.mpr h.ne_nil]

/-- No numeral in front of a text goes on further than the one that is scanned. -/
theorem WellFormed.prefix_scan (h : n.WellFormed) (rest : List Char) :
    (scan (n.chars ++ rest)).hasDigits = true ∧ n.chars <+: (scan (n.chars ++ rest)).chars := by
  obtain ⟨whole, fraction, exponent⟩ := n
  obtain ⟨hw, hf, hne, hx⟩ := h
  simp only at hw hf hne hx
  cases exponent with
  | some x =>
    have hr := (hx x rfl).head_ne rest
    have hs := scan_append fraction (x.chars ++ rest) hw hf (fun c hc => (hr c hc).1)
      (fun _ hc => (hr '.' hc).2 rfl)
    rw [(hx x rfl).scan?_append, ← List.append_assoc] at hs
    change scan ((⟨whole, fraction, some x⟩ : Numeral).chars ++ rest) = _ at hs
    rw [hs]
    refine ⟨hasDigits_iff.mpr hne, rest.takeWhile Char.isDigit, ?_⟩
    simp [chars, Exponent.chars, mantissa]
  | none =>
    have hsplit := List.takeWhile_append_dropWhile (p := Char.isDigit) (l := rest)
    have hall : ∀ ds : List Char, (∀ c ∈ ds, c.isDigit = true) →
        ∀ c ∈ ds ++ rest.takeWhile Char.isDigit, c.isDigit = true := by
      intro ds hds c hc
      obtain hc | hc := List.mem_append.mp hc
      · exact hds c hc
      · exact isDigit_of_mem_takeWhile hc
    cases fraction with
    | some ds =>
      have hs :=
        scan_append (some (ds ++ rest.takeWhile Char.isDigit)) (rest.dropWhile Char.isDigit) hw
          (fun _ he => Option.some.inj he ▸ hall ds (hf ds rfl)) (head?_dropWhile_isDigit rest)
          (by simp)
      have hc : (⟨whole, some ds, none⟩ : Numeral).chars ++ rest =
          (⟨whole, some (ds ++ rest.takeWhile Char.isDigit), none⟩ : Numeral).mantissa ++
            rest.dropWhile Char.isDigit := by
        simp [chars, mantissa, hsplit]
      rw [hc, hs]
      refine ⟨hasDigits_iff.mpr ?_, ?_⟩
      · obtain hne | hne := hne
        · exact .inl hne
        · exact .inr (by simpa using fun h0 => absurd h0 (by simpa using hne))
      · simp [chars, mantissa, List.append_assoc]
    | none =>
      have hwhole : (scan (whole ++ rest)).whole = whole ++ rest.takeWhile Char.isDigit :=
        List.takeWhile_append_of_pos hw
      have hc : (⟨whole, none, none⟩ : Numeral).chars = whole := by
        simp [chars, mantissa]
      have hne : whole ≠ [] := by simpa using hne
      rw [hc]
      refine ⟨hasDigits_iff.mpr (.inl ?_), ?_⟩
      · rw [hwhole]
        simp [hne]
      · rw [chars, mantissa, hwhole]
        simp [List.append_assoc]

end Numeral

section Cut

variable {d d' : Char} {a b : List Char}

/-- A text of two parts is cut in front of one of its characters. -/
theorem append_eq_append_cons {l r : List Char} (h : l ++ r = a ++ d :: b) :
    (∃ c, l = a ++ d :: c) ∨ ∃ a', a = l ++ a' ∧ r = a' ++ d :: b := by
  obtain ⟨a', ha, hr⟩ | ⟨c, hl, hc⟩ := List.append_eq_append_iff.mp h
  · exact .inr ⟨a', ha, hr⟩
  · cases c with
    | nil => exact .inr ⟨[], by simpa using hl.symm, hc.symm⟩
    | cons e c =>
      obtain ⟨rfl, _⟩ := List.cons.inj hc
      exact .inl ⟨c, hl⟩

theorem isDigit_cut {l c : List Char} (hl : ∀ e ∈ l, e.isDigit = true) (h : l = a ++ d :: c)
    (hd' : d'.isDigit = true) : ∀ e ∈ a ++ [d'], e.isDigit = true := by
  intro e he
  obtain he | he := List.mem_append.mp he
  · exact hl e (by simp [h, he])
  · rwa [List.mem_singleton.mp he]

/-- An exponent may end with any digit in the place of one of its digits. -/
theorem Exponent.WellFormed.cut {x : Exponent} (h : x.WellFormed) (hx : x.chars = a ++ d :: b)
    (hd : d.isDigit = true) (hd' : d'.isDigit = true) :
    ∃ y : Exponent, y.WellFormed ∧ y.chars = a ++ [d'] := by
  obtain ⟨marker, sign, digits⟩ := x
  obtain ⟨hm, hs, -, hdigits⟩ := h
  simp only [Exponent.chars] at hm hs hdigits hx
  cases a with
  | nil =>
    obtain ⟨rfl, _⟩ := List.cons.inj hx
    obtain rfl | rfl := hm <;> cases hd
  | cons e a =>
    obtain ⟨rfl, hrest⟩ := List.cons.inj hx
    obtain ⟨c, rfl⟩ | ⟨a', rfl, rfl⟩ := append_eq_append_cons hrest
    -- a sign is no digit
    · have hmem : d ∈ ['+'] ∨ d ∈ ['-'] := by
        obtain hs | hs | hs := hs
        · simp at hs
        · exact .inl (hs ▸ by simp)
        · exact .inr (hs ▸ by simp)
      obtain hmem | hmem := hmem
      all_goals
        rw [List.mem_singleton.mp hmem] at hd
        cases hd
    · refine ⟨⟨marker, sign, a' ++ [d']⟩, ⟨hm, hs, by simp, isDigit_cut hdigits rfl hd'⟩, ?_⟩
      simp [Exponent.chars]

theorem Numeral.WellFormed.mantissa_cut {n : Numeral} (h : n.WellFormed)
    (hn : n.mantissa = a ++ d :: b) (hd : d.isDigit = true) (hd' : d'.isDigit = true) :
    ∃ m : Numeral, m.WellFormed ∧ m.chars = a ++ [d'] := by
  obtain ⟨c, hwhole⟩ | ⟨a', rfl, hrest⟩ := append_eq_append_cons hn
  · refine ⟨⟨a ++ [d'], none, none⟩, ⟨isDigit_cut h.whole hwhole hd', by simp, by simp, by simp⟩,
      ?_⟩
    simp [chars, mantissa]
  · cases hf : n.fraction with
    | none => simp [hf] at hrest
    | some ds =>
      simp only [hf] at hrest
      cases a' with
      | nil =>
        obtain ⟨rfl, _⟩ := List.cons.inj hrest
        cases hd
      | cons e a' =>
        obtain ⟨rfl, hds⟩ := List.cons.inj hrest
        have hdigits := isDigit_cut (h.fraction ds hf) hds hd'
        refine ⟨⟨n.whole, some (a' ++ [d']), none⟩, ⟨h.whole, ?_, by simp, by simp⟩, ?_⟩
        · intro _ he
          cases he
          exact hdigits
        · simp [chars, mantissa]

/-- A numeral may end with any digit in the place of one of its digits. -/
theorem Numeral.WellFormed.cut {n : Numeral} (h : n.WellFormed) (hn : n.chars = a ++ d :: b)
    (hd : d.isDigit = true) (hd' : d'.isDigit = true) :
    ∃ m : Numeral, m.WellFormed ∧ m.chars = a ++ [d'] := by
  obtain ⟨c, hmantissa⟩ | ⟨a', rfl, hrest⟩ := append_eq_append_cons hn
  · exact h.mantissa_cut hmantissa hd hd'
  · cases hx : n.exponent with
    | none => simp [hx] at hrest
    | some x =>
      simp only [hx] at hrest
      obtain ⟨y, hy, hchars⟩ := (h.exponent x hx).cut hrest hd hd'
      refine ⟨{ n with exponent := some y }, ⟨h.whole, h.fraction, h.ne_nil, by simpa using hy⟩, ?_⟩
      simp [chars, mantissa, hchars]

end Cut

/-- The characters that are scanned as a number are never refused as one. -/
theorem Token.numeral_eq (cs : List Char) :
    numeral cs =
      if (Numeral.scan cs).hasDigits &&
          (cs.drop (Numeral.scan cs).mantissa.length).head? ≠ some '.' then
        .ok (.num (Numeral.scan cs).toFloat, (Numeral.scan cs).chars.length - 1)
      else .error
        (.invalidNumber (String.ofList (cs.take ((Numeral.scan cs).mantissa.length + 1)))) := by
  unfold numeral
  simp only
  split
  · rename_i h
    simp only [Bool.and_eq_true] at h
    rw [(Numeral.wellFormed_scan h.1).ofChars?_chars]
  · rfl

end SciCalc
