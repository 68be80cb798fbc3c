import SciCalc.Number.Parts
import Mathlib

namespace SciCalc.Number

open Float.Model Float.Model.UnpackedFloat

/-- The bits of a float, from the sign down. -/
private theorem toNat_packComponents (s : Sign) (e : BitVec 11) (m : BitVec 52) :
    (packComponents .binary64 s e m).toNat =
      (s.toBitVec.toNat * 2 ^ 11 + e.toNat) * 2 ^ 52 + m.toNat := by
  change (s.toBitVec ++ e ++ m).toNat = _
  have he := e.isLt
  have hm := m.isLt
  rw [BitVec.toNat_append, BitVec.toNat_append, ← Nat.shiftLeft_add_eq_or_of_lt he,
    ← Nat.shiftLeft_add_eq_or_of_lt hm, Nat.shiftLeft_eq, Nat.shiftLeft_eq]

private theorem toNat_unpackSign (b : BitVec 64) :
    (@unpackSign .binary64 b).toNat = b.toNat / 2 ^ 63 := by
  have hb := b.isLt
  change ((b.extractLsb 63 63).cast _).toNat = _
  rw [BitVec.toNat_cast, BitVec.extractLsb_toNat, Nat.shiftRight_eq_div_pow]
  omega

private theorem toNat_unpackExponent (b : BitVec 64) :
    (@unpackExponent .binary64 b).toNat = b.toNat / 2 ^ 52 % 2 ^ 11 := by
  change ((b.extractLsb 62 52).cast _).toNat = _
  rw [BitVec.toNat_cast, BitVec.extractLsb_toNat, Nat.shiftRight_eq_div_pow]

private theorem toNat_unpackMantissa (b : BitVec 64) :
    (@unpackMantissa .binary64 b).toNat = b.toNat % 2 ^ 52 := by
  change ((b.extractLsb 51 0).cast _).toNat = _
  rw [BitVec.toNat_cast, BitVec.extractLsb_toNat, Nat.shiftRight_zero]

theorem toBitVec_ofBitVec (b : BitVec 1) : (Sign.ofBitVec b).toBitVec = b := by
  have h : b = 0#1 ∨ b = 1#1 := by
    have hb := b.isLt
    obtain hp | hz := Nat.lt_or_ge 0 b.toNat
    · exact Or.inr (BitVec.eq_of_toNat_eq (by simp; omega))
    · exact Or.inl (BitVec.eq_of_toNat_eq (by simp; omega))
  rcases h with rfl | rfl <;> rfl

theorem ofBitVec_toBitVec (s : Sign) : Sign.ofBitVec s.toBitVec = s := by
  cases s <;> rfl

theorem unpackSign_packComponents (s : Sign) (e : BitVec 11) (m : BitVec 52) :
    unpackSign (packComponents .binary64 s e m) = s.toBitVec := by
  apply BitVec.eq_of_toNat_eq
  rw [toNat_unpackSign, toNat_packComponents]
  have he := e.isLt
  have hm := m.isLt
  omega

theorem packComponents_unpack (b : BitVec 64) :
    packComponents .binary64 (.ofBitVec (@unpackSign .binary64 b)) (@unpackExponent .binary64 b)
      (@unpackMantissa .binary64 b) = b := by
  apply BitVec.eq_of_toNat_eq
  rw [toNat_packComponents, toBitVec_ofBitVec, toNat_unpackSign, toNat_unpackExponent,
    toNat_unpackMantissa]
  have hb := b.isLt
  omega

/-- The shapes of finite numbers that rounding leaves: 53 bits, or fewer in the smallest units. -/
structure Canonical (m : ℕ) (e : ℤ) : Prop where
  lt : m < 2 ^ 53
  ge : -1074 ≤ e
  normal : 2 ^ 52 ≤ m ∨ e = -1074

def ofParts (u : UnpackedFloat) : Float := .ofModel (.pack u)

theorem parts_eq_unpack (x : Float) :
    parts x = UnpackedFloat.unpack .binary64 x.toModel.toBits.toBitVec := rfl

theorem parts_ofParts (u : UnpackedFloat) :
    parts (ofParts u) = UnpackedFloat.unpack .binary64 (UnpackedFloat.pack .binary64 u) := rfl

private theorem unpack_normal (s : Sign) {e : BitVec 11} (m : BitVec 52) (h1 : e.toNat ≠ 2047)
    (h0 : e.toNat ≠ 0) (h : 0 < 2 ^ 52 + m.toNat) :
    UnpackedFloat.unpack .binary64 (packComponents .binary64 s e m) =
      .finite s (2 ^ 52 + m.toNat) (e.toNat - 1075) h := by
  have h1' : e ≠ -1#11 := by
    intro he
    exact h1 (by rw [he]; rfl)
  have h0' : e ≠ 0#11 := by
    intro he
    exact h0 (by rw [he]; rfl)
  have hm : (1#1 ++ m).toNat = 2 ^ 52 + m.toNat := by
    rw [BitVec.toNat_append, ← Nat.shiftLeft_add_eq_or_of_lt m.isLt]
    rfl
  unfold UnpackedFloat.unpack
  simp only [unpackExponent_packComponents, unpackMantissa_packComponents]
  rw [unpackSign_packComponents, ofBitVec_toBitVec, if_neg h1', if_neg h0']
  simp only [hm]
  rfl

private theorem unpack_subnormal (s : Sign) (m : BitVec 52) (h : 0 < m.toNat) :
    UnpackedFloat.unpack .binary64 (packComponents .binary64 s 0#11 m) =
      .finite s m.toNat (-1074) h := by
  have hm : m ≠ 0#52 := by
    intro hz
    rw [hz] at h
    exact absurd h (by decide)
  unfold UnpackedFloat.unpack
  simp only [unpackExponent_packComponents, unpackMantissa_packComponents]
  rw [unpackSign_packComponents, ofBitVec_toBitVec, if_neg (by decide), if_pos trivial, dif_neg hm]
  rfl

private theorem pack_finite (s : Sign) {m : ℕ} (e : ℤ) (h : 0 < m) :
    UnpackedFloat.pack .binary64 (.finite s m e h) =
      if 2047 ≤ (e + 1075).toNat then packedInfinity .binary64 s
      else if m.log2 = 52 then
        packComponents .binary64 s (BitVec.ofNat 11 (e + 1075).toNat) (BitVec.ofNat 52 m)
      else packComponents .binary64 s 0#11 (BitVec.ofNat 52 m) := by
  have hb : e + (Format.binary64.exponentBias : ℤ) + (52 : ℕ) = e + 1075 := by
    change e + 1023 + 52 = e + 1075
    ring
  simp only [UnpackedFloat.pack, hb]
  have h1 : (2 ^ 11 ≤ (e + 1075).toNat + 1) = (2047 ≤ (e + 1075).toNat) := by
    apply propext
    omega
  have h2 : (m.log2 + 1 = Format.binary64.mantissaBits) = (m.log2 = 52) := by
    apply propext
    change m.log2 + 1 = 53 ↔ _
    omega
  simp only [h1, h2]

/-- A canonical shape is kept by packing unless it is too large. -/
theorem parts_ofParts_finite {s : Sign} {m : ℕ} {e : ℤ} (h : 0 < m) (hc : Canonical m e)
    (he : e ≤ 971) : parts (ofParts (.finite s m e h)) = .finite s m e h := by
  have hlt := hc.lt
  have hge := hc.ge
  rw [parts_ofParts, pack_finite, if_neg (by omega)]
  by_cases hn : 2 ^ 52 ≤ m
  · have hl : m.log2 = 52 := (Nat.log2_eq_iff (by omega)).mpr ⟨hn, hlt⟩
    have hm : 2 ^ 52 + (BitVec.ofNat 52 m).toNat = m := by
      rw [BitVec.toNat_ofNat]
      omega
    have he' : (BitVec.ofNat 11 (e + 1075).toNat).toNat = (e + 1075).toNat := by
      rw [BitVec.toNat_ofNat]
      omega
    rw [if_pos hl, unpack_normal s _ (by omega) (by omega) (by omega)]
    simp only [hm, he']
    congr 1
    omega
  · have hl : m.log2 ≠ 52 := by
      intro hl
      exact hn ((Nat.log2_eq_iff (by omega)).mp hl).1
    have hm : (BitVec.ofNat 52 m).toNat = m := by
      rw [BitVec.toNat_ofNat]
      omega
    have he' : e = -1074 := hc.normal.resolve_left hn
    rw [if_neg hl, unpack_subnormal s _ (by omega)]
    simp only [hm, he']

theorem parts_ofParts_large {s : Sign} {m : ℕ} {e : ℤ} (h : 0 < m) (he : 971 < e) :
    parts (ofParts (.finite s m e h)) = .infinity s := by
  rw [parts_ofParts, pack_finite, if_pos (by omega)]
  cases s <;> rfl

@[simp] theorem parts_ofParts_zero (s : Sign) : parts (ofParts (.zero s)) = .zero s := by
  cases s <;> rfl

@[simp] theorem parts_ofParts_infinity (s : Sign) :
    parts (ofParts (.infinity s)) = .infinity s := by
  cases s <;> rfl

/-- How the bits of a float make up its shape. -/
inductive Encodes : BitVec 64 → UnpackedFloat → Prop
  | infinity (s : Sign) : Encodes (packedInfinity .binary64 s) (.infinity s)
  | notANumber (s : Sign) (m : BitVec 52) (hm : m ≠ 0#52) :
      Encodes (packComponents .binary64 s (-1#11) m) .notANumber
  | zero (s : Sign) : Encodes (packedZero .binary64 s) (.zero s)
  | subnormal (s : Sign) (m : BitVec 52) (h : 0 < m.toNat) :
      Encodes (packComponents .binary64 s 0#11 m) (.finite s m.toNat (-1074) h)
  | normal (s : Sign) (e : BitVec 11) (m : BitVec 52) (h1 : e.toNat ≠ 2047) (h0 : e.toNat ≠ 0)
      (h : 0 < 2 ^ 52 + m.toNat) :
      Encodes (packComponents .binary64 s e m) (.finite s (2 ^ 52 + m.toNat) (e.toNat - 1075) h)

theorem encodes_unpack (b : BitVec 64) : Encodes b (UnpackedFloat.unpack .binary64 b) := by
  have hb := packComponents_unpack b
  generalize Sign.ofBitVec (@unpackSign .binary64 b) = s at hb
  generalize @unpackExponent .binary64 b = e at hb
  generalize @unpackMantissa .binary64 b = m at hb
  subst hb
  by_cases h1 : e.toNat = 2047
  · have h1' : e = -1#11 := BitVec.eq_of_toNat_eq h1
    subst h1'
    by_cases hm : m = 0#52
    · subst hm
      have h := Encodes.infinity s
      rw [← parts_ofParts_infinity s] at h
      exact h
    · have h := Encodes.notANumber s m hm
      unfold UnpackedFloat.unpack
      simp only [unpackExponent_packComponents, unpackMantissa_packComponents]
      rw [if_pos trivial, if_neg hm]
      exact h
  by_cases h0 : e.toNat = 0
  · have h0' : e = 0#11 := BitVec.eq_of_toNat_eq h0
    subst h0'
    obtain hm | hm := Nat.eq_zero_or_pos m.toNat
    · have hm' : m = 0#52 := BitVec.eq_of_toNat_eq hm
      subst hm'
      have h := Encodes.zero s
      rw [← parts_ofParts_zero s] at h
      exact h
    · rw [unpack_subnormal s m hm]
      exact Encodes.subnormal s m hm
  · rw [unpack_normal s m h1 h0 (by omega)]
    exact Encodes.normal s e m h1 h0 _

theorem pack_eq_of_encodes {b : BitVec 64} {u : UnpackedFloat} (h : Encodes b u)
    (hv : Format.binary64.Valid b) : UnpackedFloat.pack .binary64 u = b := by
  cases h with
  | infinity s => rfl
  | notANumber s m hm =>
    have hn := hv.eq_packedNaN unpackExponent_packComponents
    rw [unpackMantissa_packComponents] at hn
    exact (hn hm).symm
  | zero s => rfl
  | subnormal s m h =>
    have hlt := m.isLt
    have hl : m.toNat.log2 ≠ 52 := by
      intro hl
      have := ((Nat.log2_eq_iff (by omega)).mp hl).1
      omega
    rw [pack_finite, if_neg (by decide), if_neg hl, BitVec.ofNat_toNat, BitVec.setWidth_eq]
  | normal s e m h1 h0 h =>
    have hlt := m.isLt
    have hlt' := e.isLt
    have hl : (2 ^ 52 + m.toNat).log2 = 52 := (Nat.log2_eq_iff (by omega)).mpr ⟨by omega, by omega⟩
    have he : ((e.toNat : ℤ) - 1075 + 1075).toNat = e.toNat := by omega
    have hm : BitVec.ofNat 52 (2 ^ 52 + m.toNat) = m := by
      apply BitVec.eq_of_toNat_eq
      rw [BitVec.toNat_ofNat]
      omega
    rw [pack_finite, he, if_neg (by omega), if_pos hl, hm, BitVec.ofNat_toNat, BitVec.setWidth_eq]

/-- Every float is packed from its shape. -/
theorem ofParts_parts (x : Float) : ofParts (parts x) = x := by
  obtain ⟨⟨b, hv⟩⟩ := x
  have h := pack_eq_of_encodes (encodes_unpack b.toBitVec) hv
  unfold ofParts parts Float.Model.pack Float.Model.unpack
  simp only [h]

theorem canonical_of_parts {x : Float} {s : Sign} {m : ℕ} {e : ℤ} {h : 0 < m}
    (hx : parts x = .finite s m e h) : Canonical m e ∧ e ≤ 971 := by
  have hu := encodes_unpack x.toModel.toBits.toBitVec
  rw [← parts_eq_unpack, hx] at hu
  generalize x.toModel.toBits.toBitVec = b at hu
  cases hu with
  | subnormal s m h => exact ⟨⟨by omega, by omega, by omega⟩, by omega⟩
  | normal s e m h1 h0 h => exact ⟨⟨by omega, by omega, by omega⟩, by omega⟩

theorem parts_injective {x y : Float} (h : parts x = parts y) : x = y := by
  rw [← ofParts_parts x, ← ofParts_parts y, h]

/-- A shape that has all but its sign from a float is kept by packing. -/
theorem parts_ofParts_of_abs_eq {x : Float} {u : UnpackedFloat} (h : u.abs = (parts x).abs) :
    parts (ofParts u) = u := by
  cases u with
  | infinity s => exact parts_ofParts_infinity s
  | notANumber => rfl
  | zero s => exact parts_ofParts_zero s
  | finite s m e hm =>
    cases hx : parts x with
    | finite t n f hn =>
      rw [hx] at h
      cases h
      obtain ⟨hc, he⟩ := canonical_of_parts hx
      exact parts_ofParts_finite hm hc he
    | _ =>
      rw [hx] at h
      cases h

@[simp] theorem parts_neg (x : Float) : parts (-x) = (parts x).neg := by
  have h : (parts x).neg.abs = (parts x).abs := by
    cases parts x <;> rfl
  exact parts_ofParts_of_abs_eq h

@[simp] theorem parts_abs (x : Float) : parts x.abs = (parts x).abs := by
  have h : (parts x).abs.abs = (parts x).abs := by
    cases parts x <;> rfl
  exact parts_ofParts_of_abs_eq h

end SciCalc.Number
