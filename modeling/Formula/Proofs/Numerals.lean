import Formula.Number.Reading
import Mathlib

/-! # What is read is a number

Whatever digits a text has, the number nearest to what they denote is never `NaN`
(`isNaN_ofDecimal`, `isNaN_of_readCode?`): it may be infinite, but multiplication and division make
`NaN` only of zeros and infinities, and powers of ten are neither.
-/
namespace Formula
open Float.Model (Format UnpackedFloat)
open Float.Model.UnpackedFloat

/-! ## Packing -/

/-- In packed form `NaN` has the highest exponent and a fraction. -/
theorem isNaN_unpack {spec : Format} (bits : BitVec spec.numBits) :
    (unpack spec bits).isNaN = true ↔ unpackExponent bits = -1#_ ∧ unpackMantissa bits ≠ 0#_ := by
  unfold unpack
  dsimp only
  split
  · rename_i htop
    split
    · rename_i hnone
      exact iff_of_false Bool.false_ne_true fun h => h.2 hnone
    · rename_i hfraction
      exact iff_of_true rfl ⟨htop, hfraction⟩
  · rename_i htop
    refine iff_of_false ?_ fun h => htop h.1
    split
    · split <;> exact Bool.false_ne_true
    · exact Bool.false_ne_true

theorem isNaN_unpack_packComponents (spec : Format) (sign : Sign)
    (exponent : BitVec spec.exponentBits) (mantissa : BitVec spec.mantissaBitsWithoutImplicit) :
    (unpack spec (packComponents spec sign exponent mantissa)).isNaN = true ↔
      exponent = -1#_ ∧ mantissa ≠ 0#_ := by
  rw [isNaN_unpack, unpackExponent_packComponents, unpackMantissa_packComponents]

theorem zero_ne_topExponent (spec : Format) : (0#(spec.exponentBits)) ≠ -1#_ := by
  have hpos := spec.he
  intro h
  have hbits := congrArg BitVec.toNat h
  simp only [BitVec.toNat_zero, BitVec.neg_one_eq_allOnes, BitVec.toNat_allOnes] at hbits
  have htwo : 2 ^ 1 ≤ 2 ^ spec.exponentBits := Nat.pow_le_pow_right (by decide) hpos
  omega

/-- Only `NaN` is packed to `NaN`. -/
theorem isNaN_unpack_pack {spec : Format} {f : UnpackedFloat} (h : f.isNaN = false) :
    (unpack spec (pack spec f)).isNaN = false := by
  have hzero := zero_ne_topExponent spec
  rw [← Bool.not_eq_true]
  fun_cases pack with
  | case1 => cases h
  | case2 s =>
    rw [packedInfinity, isNaN_unpack_packComponents]
    exact fun h => h.2 rfl
  | case3 s =>
    rw [packedZero, isNaN_unpack_packComponents]
    exact fun h => hzero h.1
  | case4 s m e hm biased htop =>
    rw [packedInfinity, isNaN_unpack_packComponents]
    exact fun h => h.2 rfl
  | case5 s m e hm bits biased htop hnormal =>
    rw [isNaN_unpack_packComponents]
    rintro ⟨hexponent, -⟩
    have hbits := congrArg BitVec.toNat hexponent
    rw [BitVec.toNat_ofNat, BitVec.neg_one_eq_allOnes, BitVec.toNat_allOnes,
      Nat.mod_eq_of_lt (by omega)] at hbits
    omega
  | case6 s m e hm bits biased htop hnormal =>
    rw [isNaN_unpack_packComponents]
    exact fun h => hzero h.1

theorem isNaN_ofModel_pack {f : UnpackedFloat} (h : f.isNaN = false) :
    (Float.ofModel (Float.Model.pack f)).isNaN = false :=
  isNaN_unpack_pack h

/-! ## Operations -/

/-- Neither a zero nor infinite nor `NaN`. -/
def isFiniteNonzero : UnpackedFloat → Bool
  | .finite .. => true
  | _ => false

theorem isNaN_roundWithAccuracy (spec : Format) (sign : Sign) (mantissa : Nat) (exponent : Int)
    (accuracy : Accuracy) :
    (roundWithAccuracy spec sign mantissa exponent accuracy).isNaN = false := by
  unfold roundWithAccuracy
  dsimp only
  split <;> rfl

theorem isNaN_mul (spec : Format) {f g : UnpackedFloat} (hf : f.isNaN = false)
    (hg : isFiniteNonzero g = true) : (mul spec f g).isNaN = false := by
  cases g with
  | finite =>
    cases f with
    | notANumber => cases hf
    | infinity => rfl
    | zero => rfl
    | finite => exact isNaN_roundWithAccuracy ..
  | _ => cases hg

theorem isNaN_div (spec : Format) {f g : UnpackedFloat} (hf : f.isNaN = false)
    (hg : isFiniteNonzero g = true) : (div spec f g).isNaN = false := by
  cases g with
  | finite =>
    cases f with
    | notANumber => cases hf
    | infinity => rfl
    | zero => rfl
    | finite => exact isNaN_roundWithAccuracy ..
  | _ => cases hg

theorem isNaN_normalize (spec : Format) (mantissa exponent : Int) (sign : Sign) :
    (UnpackedFloat.normalize spec mantissa exponent sign).isNaN = false := by
  unfold UnpackedFloat.normalize UnpackedFloat.round
  split
  · exact isNaN_roundWithAccuracy ..
  · rfl
  · exact isNaN_roundWithAccuracy ..

theorem isNaN_ofScientific (spec : Format) (m : Nat) (e : Int) :
    (ofScientific spec m e).isNaN = false := by
  unfold ofScientific
  split_ifs
  · rfl
  · rfl
  · rfl
  · exact isNaN_mul spec rfl rfl
  · exact isNaN_div spec rfl rfl

/-! ## Decimals -/

/-- The powers of ten that are kept are finite. -/
theorem isFiniteNonzero_power : ∀ e : Fin Float.exactlyRepresentablePowersOfTen.size,
    isFiniteNonzero Float.exactlyRepresentablePowersOfTen[e].toModel.unpack = true := by
  decide +kernel

theorem isNaN_floatOfScientific (m : Nat) (s : Bool) (e : Nat) :
    (Float.ofScientific m s e).isNaN = false := by
  have hm : (m.toUInt64.toFloat.toModel.unpack).isNaN = false :=
    isNaN_ofModel_pack (isNaN_normalize ..)
  unfold Float.ofScientific
  split
  · rename_i h
    have he : e < Float.exactlyRepresentablePowersOfTen.size := Nat.lt_succ_of_le h.2
    dsimp only
    split
    · exact isNaN_ofModel_pack (isNaN_div _ hm (isFiniteNonzero_power ⟨e, he⟩))
    · exact isNaN_ofModel_pack (isNaN_mul _ hm (isFiniteNonzero_power ⟨e, he⟩))
  · exact isNaN_ofModel_pack (isNaN_ofScientific ..)

namespace Number

/-- **A decimal is never `NaN`.** -/
theorem isNaN_ofDecimal (d : Decimal) : (ofDecimal d).isNaN = false := by
  unfold ofDecimal
  split
  · decide +kernel
  · extract_lets top
    split_ifs
    · decide +kernel
    · decide +kernel
    · exact isNaN_ofModel_pack (isNaN_ofScientific ..)

theorem isNaN_ofDecimalText (whole fraction : List Char) (power : Int) :
    (ofDecimalText whole fraction power).isNaN = false := isNaN_ofDecimal _

/-- **Nor are the digits of a base.** -/
theorem isNaN_of_readCode? {base : Nat} {digits : List Char} {x : Float}
    (h : readCode? base digits = some x) : x.isNaN = false := by
  unfold readCode? at h
  split at h
  · cases h
  · dsimp only at h
    split at h
    · obtain rfl := Option.some.inj h
      exact isNaN_floatOfScientific ..
    · cases h

end Number
end Formula
