import Mathlib
import OptionSchema.Value.Json
/-!
# Integers beyond the signed range become finite floats

An integer of 64 unsigned bits is rounded to 53 bits of mantissa, which may carry into one more
bit. Its exponent is then far from the largest one, which infinities and NaNs have.
-/
namespace OptionSchema.Value

open Float.Model Float.Model.UnpackedFloat

theorem isFinite_iff {bits : UInt64} :
    isFinite bits = true ↔ @unpackExponent Format.binary64 bits.toBitVec ≠ -1#_ := by
  rw [isFinite, decide_eq_true_iff, ne_eq, ne_eq, not_congr, ← BitVec.toNat_inj]
  simp [unpackExponent, BitVec.extractLsb, BitVec.extractLsb'_toNat, Nat.shiftRight_eq_div_pow]

section Rounding

variable (sign : Sign) (mantissa : Nat) (exponent : Int) (accuracy : Accuracy)

theorem shiftRight_mantissa (extended : ExtendedMantissa) (places : Nat) :
    (extended >>> places).mantissa = extended.mantissa / 2 ^ places := by
  induction places with
  | zero => simp [HShiftRight.hShiftRight, Nat.repeat]
  | succ places ih =>
    have step : extended >>> (places + 1) = (extended >>> places).shiftRightOne := rfl
    rw [step, ExtendedMantissa.shiftRightOne, ih, Nat.div_div_eq_div_mul, Nat.pow_succ]

theorem roundToNearestEven_le : accuracy.roundToNearestEven mantissa ≤ mantissa + 1 := by
  fun_cases Accuracy.roundToNearestEven <;> omega

theorem ofMantissaAndAccuracy_mantissa :
    (ExtendedMantissa.ofMantissaAndAccuracy mantissa accuracy).mantissa = mantissa := by
  fun_cases ExtendedMantissa.ofMantissaAndAccuracy <;> rfl

theorem targetExponent_eq :
    Format.binary64.targetExponent (totalExponent mantissa exponent) =
      max (mantissa.log2 + exponent - 52) (-1074) := by
  show max ((mantissa.log2 : Int) + 1 + exponent - (1 + 52 : Nat)) (3 - 2 ^ 10 - (1 + 52 : Nat)) = _
  omega

/-- Bits are dropped until the exponent is the one that the format asks for. -/
theorem shiftToTargetExponent_eq :
    (shiftToTargetExponent Format.binary64 mantissa exponent accuracy).1.mantissa =
        mantissa / 2 ^ (max (mantissa.log2 + exponent - 52) (-1074) - exponent).toNat ∧
      (shiftToTargetExponent Format.binary64 mantissa exponent accuracy).2 =
        max exponent (max (mantissa.log2 + exponent - 52) (-1074)) := by
  rw [shiftToTargetExponent]
  simp only [targetExponent_eq, shiftToExponent, shiftRight_mantissa,
    ofMantissaAndAccuracy_mantissa]
  exact ⟨trivial, by omega⟩

theorem unpackExponent_pack_zero :
    unpackExponent (UnpackedFloat.pack Format.binary64 (.zero sign)) ≠ -1#_ := by
  rw [UnpackedFloat.pack, packedZero, unpackExponent_packComponents]
  decide

theorem unpackExponent_pack_finite {exponent : Int} (positive : 0 < mantissa)
    (small : exponent ≤ 971) :
    unpackExponent (UnpackedFloat.pack Format.binary64 (.finite sign mantissa exponent positive)) ≠
      -1#_ := by
  have biased : (exponent + Format.binary64.exponentBias +
      Format.binary64.mantissaBitsWithoutImplicit).toNat ≤ 2046 := by
    show (exponent + 1023 + 52).toNat ≤ 2046
    omega
  rw [UnpackedFloat.pack]
  generalize (exponent + Format.binary64.exponentBias +
      Format.binary64.mantissaBitsWithoutImplicit).toNat = field at biased
  simp only
  rw [if_neg (show ¬ 2 ^ 11 ≤ field + 1 by omega)]
  split
  · rw [unpackExponent_packComponents, ne_eq, ← BitVec.toNat_inj]
    simp
    omega
  · rw [unpackExponent_packComponents]
    decide

theorem unpackExponent_round {mantissa : Nat} {exponent : Int} (wide : 52 ≤ mantissa.log2)
    (normal : -1074 ≤ exponent) (small : mantissa.log2 + exponent ≤ 1022) :
    unpackExponent (UnpackedFloat.pack Format.binary64
      (roundWithAccuracy Format.binary64 sign mantissa exponent .exact)) ≠ -1#_ := by
  rw [roundWithAccuracy]
  obtain ⟨dropped, shifted⟩ := shiftToTargetExponent_eq mantissa exponent .exact
  generalize shiftToTargetExponent Format.binary64 mantissa exponent .exact = first
    at dropped shifted
  obtain ⟨extended, exponent'⟩ := first
  simp only at dropped shifted ⊢
  obtain ⟨-, shifted'⟩ := shiftToTargetExponent_eq extended.roundedMantissa exponent' .exact
  generalize shiftToTargetExponent Format.binary64 extended.roundedMantissa exponent' .exact =
    second at shifted'
  split
  · exact unpackExponent_pack_zero sign
  · refine unpackExponent_pack_finite _ _ _ ?_
    have kept : extended.mantissa < 2 ^ 53 := by
      rw [dropped, Nat.div_lt_iff_lt_mul (Nat.two_pow_pos _), ← Nat.pow_add]
      exact Nat.lt_of_lt_of_le mantissa.lt_log2_self
        (Nat.pow_le_pow_right (by decide) (by omega))
    have rounded : extended.roundedMantissa ≤ extended.mantissa + 1 := roundToNearestEven_le _ _
    -- Rounding up can carry into a 54th bit, and the second shift is by that bit.
    have carried : extended.roundedMantissa.log2 ≤ 53 := by
      rcases Nat.eq_zero_or_pos extended.roundedMantissa with zero | positive
      · rw [zero]; decide
      · exact Nat.lt_succ_iff.mp ((Nat.log2_lt (Nat.ne_of_gt positive)).mpr (by omega))
    omega

end Rounding

theorem ofNat_eq_ofScientific {n : Nat} (wide : 2 ^ 53 ≤ n) :
    Float.ofNat n = .ofModel (.ofScientific n 0) := by
  show Float.ofScientific n false 0 = _
  rw [Float.ofScientific, dif_neg fun h => absurd h.1 (Nat.not_lt.mpr wide)]
  rfl

theorem isFinite_ofInt {n : Int} (low : Int64.maxValue.toInt < n) (high : n < 2 ^ 64) :
    isFinite (Float.ofInt n).toBits = true := by
  have bound : Int64.maxValue.toInt = 2 ^ 63 - 1 := rfl
  obtain ⟨n, rfl⟩ := Int.eq_ofNat_of_zero_le (by omega : 0 ≤ n)
  have size : (n <<< 53 * 10 ^ (0 : Int).toNat).log2 = 116 := by
    have wide : 2 ^ 63 ≤ n ∧ n < 2 ^ 64 := by omega
    rw [Nat.log2_eq_iff (by simp; omega)]
    simp only [Nat.shiftLeft_eq, Int.toNat_zero, Nat.pow_zero]
    omega
  have model : Float.ofInt n = .ofModel (.ofScientific n 0) := ofNat_eq_ofScientific (by omega)
  rw [isFinite_iff, model]
  show unpackExponent (UnpackedFloat.pack Format.binary64
    (UnpackedFloat.ofScientific Format.binary64 n 0)) ≠ -1#_
  rw [UnpackedFloat.ofScientific, dif_neg (by omega), if_neg (by decide), if_neg,
    if_pos (by decide)]
  · rw [UnpackedFloat.mul]
    refine unpackExponent_round _ ?_ (by decide) ?_
    · show 52 ≤ (n <<< 53 * 10 ^ (0 : Int).toNat).log2
      omega
    · show ((n <<< 53 * 10 ^ (0 : Int).toNat).log2 : Int) + (-53 + 0) ≤ 1022
      omega
  · show ¬ (0 : Int) < -((2 ^ 11 : Int) + (n.log2 : Int))
    omega

end OptionSchema.Value
