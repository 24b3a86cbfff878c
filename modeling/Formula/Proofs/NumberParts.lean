import Formula.Number.Reading
import Formula.Proofs.ShortestDecimals
import Mathlib

/-! # A number and its parts

The parts that are read off the bits of a finite number are those that the model of binary numbers
computes with (`unpack_eq`), so the number is what its parts are packed to.  A decimal that lies
near a number is therefore read as the number (`Number.ofDecimal_eq`), and the shortest decimal of a
number is one (`Number.ofDecimal_shortest`).
-/
namespace Formula.Binary64
open Float.Model (Format UnpackedFloat)
open Float.Model.UnpackedFloat

/-! ## Bits -/

/-- The bits of a number as the model takes them apart. -/
def word (x : Float) : BitVec Format.binary64.numBits := x.toModel.toBits.toBitVec

section
variable (x : Float)

theorem toNat_unpackExponent : (unpackExponent (word x)).toNat = exponentField x := by
  rw [unpackExponent_def, BitVec.extractLsb'_toNat, Nat.shiftRight_eq_div_pow]
  rfl

theorem toNat_unpackMantissa : (unpackMantissa (word x)).toNat = fractionField x := by
  rw [unpackMantissa_def, BitVec.extractLsb'_toNat, Nat.shiftRight_zero]
  rfl

/-- The bit that normal numbers do not store stands before their fraction. -/
theorem toNat_lead_unpackMantissa :
    (1#1 ++ unpackMantissa (word x)).toNat = fractionField x + 2 ^ 52 := by
  rw [BitVec.toNat_append, ← Nat.shiftLeft_add_eq_or_of_lt (unpackMantissa (word x)).isLt,
    toNat_unpackMantissa, add_comm]
  rfl

theorem fractionField_lt : fractionField x < 2 ^ 52 := Nat.mod_lt _ (by decide)

theorem unpackExponent_eq_iff (n : ℕ) (hn : n < 2 ^ 11) :
    unpackExponent (word x) = BitVec.ofNat 11 n ↔ exponentField x = n := by
  rw [← BitVec.toNat_inj, toNat_unpackExponent, BitVec.toNat_ofNat, Nat.mod_eq_of_lt hn]

theorem unpackMantissa_eq_zero_iff : unpackMantissa (word x) = 0#52 ↔ fractionField x = 0 := by
  rw [← BitVec.toNat_inj, toNat_unpackMantissa]
  rfl

end

theorem ofBitVec_unpackSign {x : Float} (h : isNegative x = false) :
    Sign.ofBitVec (unpackSign (word x)) = .positive := by
  have hbits : x.toModel.toBits.toNat < 2 ^ 64 := UInt64.toNat_lt _
  have hsign : ¬ x.toModel.toBits.toNat / 2 ^ 63 = 1 := of_decide_eq_false h
  refine if_pos (BitVec.toNat_inj.mp ?_)
  rw [unpackSign_def, BitVec.extractLsb'_toNat, Nat.shiftRight_eq_div_pow]
  change x.toModel.toBits.toNat / 2 ^ 63 % 2 ^ 1 = 0
  omega

/-! ## Finite numbers -/

section
variable {x : Float}

theorem significand_eq_zero_iff :
    significand x = 0 ↔ exponentField x = 0 ∧ fractionField x = 0 := by
  unfold significand
  split <;> simp [*, Nat.pow_eq]

/-- The parts of a number other than zero are as the format has them. -/
theorem canonical_parts (hzero : 0 < significand x) : Canonical (significand x) (exponent x) := by
  have hfraction := fractionField_lt x
  unfold significand exponent at *
  by_cases hfield : exponentField x = 0
  · simp only [if_pos hfield] at hzero ⊢
    exact ⟨hzero, by omega, le_rfl, .inr rfl⟩
  · simp only [if_neg hfield, Nat.pow_eq] at hzero ⊢
    exact ⟨hzero, by omega, by omega, .inl (by omega)⟩

theorem exponent_le (hfinite : isFinite x = true) : exponent x ≤ 971 := by
  have hfield : exponentField x < 2047 := of_decide_eq_true hfinite
  unfold exponent
  split <;> omega

/-- **The model computes with the parts of a number.** -/
theorem unpack_eq (hfinite : isFinite x = true) (hsign : isNegative x = false)
    (hzero : 0 < significand x) :
    x.toModel.unpack = .finite .positive (significand x) (exponent x) hzero := by
  have hfield : exponentField x < 2047 := of_decide_eq_true hfinite
  have htop : ¬ unpackExponent (word x) = -1#11 :=
    mt (unpackExponent_eq_iff x 2047 (by decide)).mp hfield.ne
  have hbias : ((Format.binary64.exponentBias : ℕ) : ℤ) = 1023 := rfl
  change unpack Format.binary64 (word x) = _
  rw [unpack]
  dsimp only
  rw [if_neg htop, ofBitVec_unpackSign hsign]
  by_cases hsmall : exponentField x = 0
  · have hfraction : fractionField x ≠ 0 := fun h =>
      hzero.ne' (significand_eq_zero_iff.mpr ⟨hsmall, h⟩)
    rw [if_pos ((unpackExponent_eq_iff x 0 (by decide)).mpr hsmall),
      dif_neg (mt (unpackMantissa_eq_zero_iff x).mp hfraction), UnpackedFloat.finite.injEq,
      toNat_unpackMantissa, toNat_unpackExponent, hbias, significand, exponent, if_pos hsmall,
      if_pos hsmall, hsmall]
    exact ⟨rfl, rfl, rfl⟩
  · rw [if_neg (mt (unpackExponent_eq_iff x 0 (by decide)).mp hsmall), UnpackedFloat.finite.injEq,
      toNat_lead_unpackMantissa, toNat_unpackExponent, hbias, significand, exponent, if_neg hsmall,
      if_neg hsmall]
    exact ⟨rfl, rfl, by omega⟩

/-- A number is what its parts are packed to. -/
theorem ofModel_pack_parts (hfinite : isFinite x = true) (hsign : isNegative x = false)
    (hzero : 0 < significand x) :
    Float.ofModel (Float.Model.pack (.finite .positive (significand x) (exponent x) hzero))
      = x := by
  rw [← unpack_eq hfinite hsign hzero]
  exact Float.ofBits_toBits x

/-- Of the finite numbers only the two zeros have no significand. -/
theorem eq_zero_of_significand (hsign : isNegative x = false) (hzero : significand x = 0) :
    x = 0.0 := by
  obtain ⟨hfield, hfraction⟩ := significand_eq_zero_iff.mp hzero
  have hbits : x.toBits.toNat < 2 ^ 64 := UInt64.toNat_lt _
  have hnegative : ¬ x.toBits.toNat / 2 ^ 63 = 1 := of_decide_eq_false hsign
  have hfield' : x.toBits.toNat / 2 ^ 52 % 2 ^ 11 = 0 := hfield
  have hfraction' : x.toBits.toNat % 2 ^ 52 = 0 := hfraction
  have hnone : x.toBits.toNat = 0 := by omega
  have hbits : (0.0 : Float).toBits.toNat = 0 := by decide +kernel
  exact Float.toBits_inj.mp (UInt64.toNat_inj.mp (hnone.trans hbits.symm))

theorem significand_pos (hsign : isNegative x = false) (h : ¬ (x == 0.0) = true) :
    0 < significand x := by
  refine Nat.pos_of_ne_zero fun hzero => h ?_
  rw [eq_zero_of_significand hsign hzero]
  decide +kernel

theorem eq_zero_of_beq (hsign : isNegative x = false) (h : (x == 0.0) = true) : x = 0.0 := by
  obtain ⟨-, -, rfl | ⟨rfl, -⟩ | ⟨rfl, -⟩⟩ := Float.beq_iff_ne_nan_and_eq.mp h
  · rfl
  · decide +kernel
  · exact absurd hsign (by decide +kernel)

theorem isNaN_of_isFinite (hfinite : isFinite x = true) : x.isNaN = false := by
  rw [Float.isNaN_eq_decide_eq_nan]
  refine decide_eq_false ?_
  rintro rfl
  exact absurd hfinite (by decide +kernel)

/-- A number without a minus sign is not below zero. -/
theorem not_lt_zero (hfinite : isFinite x = true) (hsign : isNegative x = false) : ¬ x < 0.0 := by
  rcases Nat.eq_zero_or_pos (significand x) with hzero | hpos
  · rw [eq_zero_of_significand hsign hzero]
    decide +kernel
  · intro h
    have hless : x.toModel.unpack.lt (0.0 : Float).toModel.unpack = true := of_decide_eq_true h
    have hnone : (0.0 : Float).toModel.unpack = .zero .positive := rfl
    rw [unpack_eq hfinite hsign hpos, hnone] at hless
    exact Bool.false_ne_true hless

end
end Formula.Binary64

/-! ## Decimals of numbers -/

namespace Formula.Number
open Binary64

section
variable {x : Float} {d : Decimal} (hfinite : isFinite x = true) (hsign : isNegative x = false)
  (hpos : 0 < significand x)

/-- What is beyond the cuts of `ofDecimal` is beyond the range of the format. -/
theorem range_of_roundsTo (hc : 0 < d.coefficient) {m : ℕ} {e : ℤ} (hm : Canonical m e)
    (he : e ≤ 971) (h : RoundsTo d.value m e) :
    -400 ≤ Decimal.digitCount d.coefficient + d.exponent ∧
      Decimal.digitCount d.coefficient + d.exponent ≤ 400 := by
  generalize hcount : (Decimal.digitCount d.coefficient : ℤ) + d.exponent = top
  have hrange : (2 : ℚ) ^ (1200 : ℤ) < 10 ^ (400 : ℤ) :=
    calc (2 : ℚ) ^ (1200 : ℤ) = (2 ^ (3 : ℤ)) ^ (400 : ℤ) := zpow_mul 2 3 400
      _ < 10 ^ (400 : ℤ) := zpow_lt_zpow_left₀ (by norm_num) (by norm_num) (by decide)
  have hlow : (10 : ℚ) ^ (-400 : ℤ) < 10 ^ top :=
    calc (10 : ℚ) ^ (-400 : ℤ) < 2 ^ (-1200 : ℤ) := by
          rw [zpow_neg, zpow_neg]
          exact inv_strictAnti₀ (two_zpow_pos _) hrange
      _ ≤ 2 ^ (-1076 : ℤ) := zpow_le_zpow_right₀ one_le_two (by decide)
      _ ≤ d.value := h.ge hm
      _ < 10 ^ top := hcount ▸ Decimal.lt_ten_zpow d.coefficient d.exponent
  have hhigh : (10 : ℚ) ^ (top - 1) < 10 ^ (400 : ℤ) :=
    calc (10 : ℚ) ^ (top - 1) ≤ d.value := hcount ▸ Decimal.ten_zpow_le hc d.exponent
      _ < 2 ^ (e + 53) := h.lt hm
      _ ≤ 2 ^ (1200 : ℤ) := zpow_le_zpow_right₀ one_le_two (by omega)
      _ < 10 ^ (400 : ℤ) := hrange
  have hlow' := (zpow_lt_zpow_iff_right₀ (by norm_num)).mp hlow
  have hhigh' := (zpow_lt_zpow_iff_right₀ (by norm_num)).mp hhigh
  omega

include hpos in
/-- The shortest decimal of a number is rounded to it. -/
theorem roundsTo_shortest : RoundsTo (Decimal.shortest x).value (significand x) (exponent x) :=
  Decimal.roundsTo_search (canonical_parts hpos) rfl

include hfinite hsign hpos

/-- **What is rounded to a number is read as the number.** -/
theorem ofDecimal_eq (h : RoundsTo d.value (significand x) (exponent x)) : ofDecimal d = x := by
  have hm := canonical_parts hpos
  have hc : 0 < d.coefficient := by
    refine Nat.pos_of_ne_zero fun hzero => (h.pos hm).ne' ?_
    rw [Decimal.value, hzero, Nat.cast_zero, zero_mul]
  have hcount := Decimal.digitCount_pos d.coefficient
  have hlog := Decimal.digitCount_le_log2 d.coefficient
  obtain ⟨hlow, hhigh⟩ := range_of_roundsTo hc hm (exponent_le hfinite) h
  rw [ofDecimal, if_neg hc.ne']
  dsimp only
  rw [if_neg (not_lt.mpr hhigh), if_neg (not_lt.mpr hlow), Float.Model.ofScientific,
    ofScientific_eq hc (by omega) (by omega) hm h]
  exact ofModel_pack_parts hfinite hsign hpos

/-- **The shortest decimal of a number is read as the number.** -/
theorem ofDecimal_shortest : ofDecimal (Decimal.shortest x) = x :=
  ofDecimal_eq hfinite hsign hpos (roundsTo_shortest hpos)

end
end Formula.Number
