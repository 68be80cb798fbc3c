import SciCalc.Proofs.Evaluation.Stages
import SciCalc.Proofs.Grammar.Juxtaposition
import SciCalc.Proofs.Token.PlainSign

namespace SciCalc

open Token (CutsNumber Reads)

variable {s : String}

theorem value?_map_plainSign (h : ¬CutsNumber s.toList) (m : AngleMode) :
    value? m s = value? m (s.map plainSign) := by
  apply value?_congr
  intro ts
  rw [Token.ofString_map_plainSign h]
  cases Token.ofString s <;> simp [Except.mapError]

/-- A text in which a number is cut has no value. -/
theorem value?_of_cutsNumber (h : CutsNumber s.toList) (m : AngleMode) : value? m s = none := by
  cases hv : value? m s with
  | none => rfl
  | some v =>
    obtain ⟨ts, e, hts, he⟩ := exists_tree_of_value? hv
    obtain ⟨x, hx⟩ := h.exists_beside hts
    exact absurd hx (Grammar.not_beside_of_ofTokens he rfl rfl)

/-- What is read of a text is read of the text with the plain signs too, exactly if no number is cut
in front of an exponent with a typographic minus sign; then both texts have the same tokens or the
same fault. A text in which a number is cut has no value, so it has that of the text with the plain
signs exactly if that one has none. -/
theorem typographic_signs_iff (s : String) :
    ((∀ ts rest, Reads s.toList ts rest → Reads (s.map plainSign).toList ts (rest.map plainSign)) ↔
      ¬CutsNumber s.toList) ∧
    (¬CutsNumber s.toList →
      Token.ofString (s.map plainSign) = (Token.ofString s).mapError Fault.plain) ∧
    (CutsNumber s.toList → ∀ m, value? m s = none) ∧
    ∀ m, value? m s = value? m (s.map plainSign) ↔
      (CutsNumber s.toList → value? m (s.map plainSign) = none) := by
  refine ⟨?_, Token.ofString_map_plainSign, value?_of_cutsNumber,
    fun m => ⟨fun h hcut => ?_, fun h => ?_⟩⟩
  · rw [String.toList_map]
    exact Token.reads_map_plainSign_iff s.toList
  · rw [← h, value?_of_cutsNumber hcut]
  · by_cases hcut : CutsNumber s.toList
    · rw [value?_of_cutsNumber hcut, h hcut]
    · exact value?_map_plainSign hcut m

/-- A difference with both typographic signs has the value of the plain one; in front of an exponent
a number is cut. -/
theorem typographic_signs_difference :
    ¬CutsNumber "2*e−6÷3".toList ∧
    Token.ofString "2*e-6/3" = .ok [.num 2, .star, .euler, .minus, .num 6, .slash, .num 3] ∧
    value? .degrees "2*e−6÷3" = value? .degrees "2*e-6/3" ∧
    (value? .degrees "2*e-6/3").isSome = true ∧
    CutsNumber "2e−3".toList ∧ value? .degrees "2e−3" = none := by
  have hmap : "2*e−6÷3".map plainSign = "2*e-6/3" := by decide +kernel
  have htokens : Token.ofString "2*e−6÷3" =
      .ok [.num 2, .star, .euler, .minus, .num 6, .slash, .num 3] := by
    decide +kernel
  have hsome : (value? .degrees "2*e-6/3").isSome = true := by decide +kernel
  obtain ⟨_, hplain, hnone, hvalue⟩ := typographic_signs_iff "2*e−6÷3"
  have hcut : ¬CutsNumber "2*e−6÷3".toList := by
    intro hcut
    have hne : (value? .degrees "2*e−6÷3").isSome = true := by decide +kernel
    rw [hnone hcut .degrees] at hne
    cases hne
  rw [hmap] at hplain hvalue
  have hexponent : CutsNumber "2e−3".toList := by
    have hn : (⟨['2'], none, none⟩ : Numeral).WellFormed := ⟨by simp, by simp, by simp, by simp⟩
    exact ⟨[], _, .done _, _, ['e', '−', '3'], hn, rfl, ⟨'e', '3', [], .inl rfl, rfl, rfl⟩, rfl⟩
  refine ⟨hcut, ?_, (hvalue .degrees).mpr fun h => absurd h hcut, hsome, hexponent, ?_⟩
  · rw [hplain hcut, htokens]
    rfl
  · exact (typographic_signs_iff "2e−3").2.2.1 hexponent .degrees

/-- An exponent has the plain minus sign and no other. -/
theorem typographic_exponent_refused :
    "2e−3".map plainSign = "2e-3" ∧
    Token.ofString "2e−3" = .ok [.num 2, .euler, .minus, .num 3] ∧
    Token.ofString "2e-3" = .ok [.num 0.002] ∧
    value? .degrees "2e−3" = none ∧ value? .degrees "2e-3" = some 0.002 := by
  decide +kernel

end SciCalc
