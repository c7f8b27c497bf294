import PhpTypes.Decimal.Nearest

/-!
Doubles that are numbers. The double nearest to a quotient is one: the mantissa is rounded to at
most 53 bits, so that the bits stay at or below those of infinity.
-/

namespace PhpTypes.Decimal

/-- A double that is a number. -/
structure Numeric where
  value : Float
  isNumber : value.isNaN = false

instance : Coe Numeric Float := ⟨Numeric.value⟩

section

open Float.Model

theorem beq_self_of_isNaN {x : Float} (h : x.isNaN = false) : (x == x) = true := by
  change x.toModel.unpack.isNaN = false at h
  change (x.toModel.unpack.compare x.toModel.unpack == some .eq) = true
  generalize x.toModel.unpack = u at h
  cases u with
  | notANumber => cases h
  | infinity s => cases s <;> rfl
  | zero s => rfl
  | finite s m e hm =>
    have hself : (compare e e).then (compare m m) = .eq := by simp [Std.ReflCmp.compare_self]
    cases s with
    | positive =>
      change (some ((compare e e).then (compare m m)) == some .eq) = true
      rw [hself]
      rfl
    | negative =>
      change (some ((compare e e).then (compare m m)).swap == some .eq) = true
      rw [hself]
      rfl

/-! The fields of a double, as `split` computes them. -/

private theorem exponentField (b : BitVec Format.binary64.numBits) :
    (UnpackedFloat.unpackExponent b).toNat = b.toNat / Nat.pow 2 52 % Nat.pow 2 11 := by
  simp [UnpackedFloat.unpackExponent, BitVec.extractLsb_toNat, Nat.shiftRight_eq_div_pow]

private theorem fractionField (b : BitVec Format.binary64.numBits) :
    (UnpackedFloat.unpackMantissa b).toNat = b.toNat % Nat.pow 2 52 := by
  simp [UnpackedFloat.unpackMantissa, BitVec.extractLsb_toNat]

private theorem fields_of_isNaN {b : BitVec Format.binary64.numBits}
    (h : (UnpackedFloat.unpack .binary64 b).isNaN = true) :
    UnpackedFloat.unpackExponent b = -1#11 ∧ UnpackedFloat.unpackMantissa b ≠ 0#52 := by
  by_cases hexponent : UnpackedFloat.unpackExponent b = -1#11
  · refine ⟨hexponent, fun hfraction => ?_⟩
    have hinfinity : UnpackedFloat.unpack .binary64 b = .infinity _ :=
      (if_pos hexponent).trans (if_pos hfraction)
    rw [hinfinity] at h
    cases h
  · exfalso
    by_cases hzero : UnpackedFloat.unpackExponent b = 0#11
    · by_cases hfraction : UnpackedFloat.unpackMantissa b = 0#52
      · have hunpack : UnpackedFloat.unpack .binary64 b = .zero _ :=
          (if_neg hexponent).trans ((if_pos hzero).trans (dif_pos hfraction))
        rw [hunpack] at h
        cases h
      · have hunpack : UnpackedFloat.unpack .binary64 b = .finite .. :=
          (if_neg hexponent).trans ((if_pos hzero).trans (dif_neg hfraction))
        rw [hunpack] at h
        cases h
    · have hunpack : UnpackedFloat.unpack .binary64 b = .finite .. :=
        (if_neg hexponent).trans (if_neg hzero)
      rw [hunpack] at h
      cases h

private theorem isNaN_unpack_pack {u : UnpackedFloat} (h : u.isNaN = false) :
    (UnpackedFloat.unpack .binary64 (UnpackedFloat.pack .binary64 u)).isNaN = false := by
  rw [Bool.eq_false_iff]
  intro hnan
  obtain ⟨hexponent, hfraction⟩ := fields_of_isNaN hnan
  cases u with
  | notANumber => cases h
  | infinity s => exact hfraction UnpackedFloat.unpackMantissa_packComponents
  | zero s => exact hfraction UnpackedFloat.unpackMantissa_packComponents
  | finite s m e hpos =>
    let biased := (e + (Format.binary64.exponentBias : Int) + 52).toNat
    by_cases hbig : 2 ^ 11 ≤ biased + 1
    · have hpack : UnpackedFloat.pack .binary64 (.finite s m e hpos) =
          UnpackedFloat.packedInfinity .binary64 s := if_pos hbig
      rw [hpack] at hfraction
      exact hfraction UnpackedFloat.unpackMantissa_packComponents
    · -- The packed exponent is below the one that infinity and NaN have.
      by_cases hfull : m.log2 + 1 = Format.binary64.mantissaBits
      · have hpack : UnpackedFloat.pack .binary64 (.finite s m e hpos) =
            UnpackedFloat.packComponents .binary64 s (BitVec.ofNat 11 biased) (BitVec.ofNat 52 m) :=
          (if_neg hbig).trans (if_pos hfull)
        rw [hpack, UnpackedFloat.unpackExponent_packComponents] at hexponent
        have hvalue := congrArg BitVec.toNat hexponent
        simp at hvalue
        omega
      · have hpack : UnpackedFloat.pack .binary64 (.finite s m e hpos) =
            UnpackedFloat.packComponents .binary64 s 0#11 (BitVec.ofNat 52 m) :=
          (if_neg hbig).trans (if_neg hfull)
        rw [hpack, UnpackedFloat.unpackExponent_packComponents] at hexponent
        exact absurd hexponent (by decide)

theorem isNaN_ofBits {bits : UInt64} (h : bits.toNat ≤ 2047 * Nat.pow 2 52) :
    (Float.ofBits bits).isNaN = false := by
  refine isNaN_unpack_pack ?_
  rw [Bool.eq_false_iff]
  intro hnan
  obtain ⟨hexponent, hfraction⟩ := fields_of_isNaN hnan
  have hfield := exponentField bits.toBitVec
  rw [hexponent] at hfield
  refine hfraction (BitVec.eq_of_toNat_eq ?_)
  rw [fractionField]
  simp at h hfield ⊢
  omega

theorem isNaN_of_isFinite {x : Float} (h : isFinite x = true) : x.isNaN = false := by
  change (UnpackedFloat.unpack .binary64 x.toBits.toBitVec).isNaN = false
  rw [Bool.eq_false_iff]
  intro hnan
  have hfield := exponentField x.toBits.toBitVec
  rw [(fields_of_isNaN hnan).1] at hfield
  have hbits : x.toBits.toNat / Nat.pow 2 52 % Nat.pow 2 11 = 2047 := hfield.symm
  simp only [isFinite, truncate?, split, hbits, beq_self_eq_true, if_true] at h
  split at h
  · rename_i hparts
    split at hparts <;> cases hparts
  · cases h

end

/-! Rounding. -/

/-- A quotient has no more bits before the point than its logarithm says. -/
private theorem mul_pow_lt_of_ratioLog2 {num den : Nat} (hden : 0 < den) {a b : Nat}
    (h : ratioLog2 num den < (b : Int) - a) : num * Nat.pow 2 a < den * Nat.pow 2 b := by
  simp only [ratioLog2, Nat.pow_eq] at h ⊢
  split at h
  · have hnum : num < 2 ^ (num.log2 + 1) := Nat.lt_log2_self
    have hle : 2 ^ den.log2 ≤ den := Nat.log2_self_le (by omega)
    calc num * 2 ^ a < 2 ^ (num.log2 + 1) * 2 ^ a :=
          Nat.mul_lt_mul_of_pos_right hnum (Nat.two_pow_pos a)
      _ = 2 ^ (num.log2 + 1 + a) := (Nat.pow_add ..).symm
      _ ≤ 2 ^ (den.log2 + b) := Nat.pow_le_pow_right (by decide) (by omega)
      _ = 2 ^ den.log2 * 2 ^ b := Nat.pow_add ..
      _ ≤ den * 2 ^ b := Nat.mul_le_mul_right _ hle
  · rename_i hlt
    generalize (num.log2 : Int) - den.log2 = l at h hlt
    refine Nat.lt_of_mul_lt_mul_right (a := 2 ^ (-l).toNat) ?_
    calc num * 2 ^ a * 2 ^ (-l).toNat = num * 2 ^ (-l).toNat * 2 ^ a := Nat.mul_right_comm ..
      _ < den * 2 ^ l.toNat * 2 ^ a :=
          Nat.mul_lt_mul_of_pos_right (Nat.lt_of_not_ge hlt) (Nat.two_pow_pos a)
      _ = den * 2 ^ (l.toNat + a) := by rw [Nat.mul_assoc, ← Nat.pow_add]
      _ ≤ den * 2 ^ (b + (-l).toNat) :=
          Nat.mul_le_mul_left _ (Nat.pow_le_pow_right (by decide) (by omega))
      _ = den * 2 ^ b * 2 ^ (-l).toNat := by rw [Nat.mul_assoc, ← Nat.pow_add]

private theorem roundDiv_le {num den n : Nat} (h : num < den * n) : roundDiv num den ≤ n := by
  have hq : num / den < n := Nat.div_lt_of_lt_mul h
  simp only [roundDiv]
  split <;> omega

private theorem packBits_le {mantissa : Nat} {exponent : Int} (h : mantissa < Nat.pow 2 53) :
    packBits mantissa exponent ≤ 2047 * Nat.pow 2 52 := by
  simp only [packBits, Nat.pow_eq] at h ⊢
  split
  · omega
  · split <;> omega

private theorem nearestBits_le (num : Nat) {den : Nat} (hden : 0 < den) :
    nearestBits num den ≤ 2047 * Nat.pow 2 52 := by
  simp only [nearestBits]
  split
  · omega
  · generalize he : max (ratioLog2 num den - 52) (-1074) = e
    have hlog : ratioLog2 num den < ((e.toNat + 53 : Nat) : Int) - (-e).toNat := by omega
    have hmantissa : roundDiv (num * Nat.pow 2 (-e).toNat) (den * Nat.pow 2 e.toNat) ≤
        Nat.pow 2 53 := by
      refine roundDiv_le ?_
      have hpow : Nat.pow 2 (e.toNat + 53) = Nat.pow 2 e.toNat * Nat.pow 2 53 := Nat.pow_add ..
      rw [Nat.mul_assoc, ← hpow]
      exact mul_pow_lt_of_ratioLog2 hden hlog
    split
    · exact packBits_le (by decide)
    · rename_i hne
      exact packBits_le (Nat.lt_of_le_of_ne hmantissa (by simpa using hne))

theorem isNaN_nearest (num : Nat) {den : Nat} (hden : 0 < den) :
    (nearest num den).isNaN = false := by
  have hle := nearestBits_le num hden
  have hlt : nearestBits num den < UInt64.size := Nat.lt_of_le_of_lt hle (by decide)
  refine isNaN_ofBits ?_
  rwa [UInt64.toNat_ofNat_of_lt' hlt]

theorem isNaN_ofDecimal (digits : Nat) (exponent : Int) :
    (ofDecimal digits exponent).isNaN = false := by
  simp only [ofDecimal]
  split
  · decide +kernel
  · split
    · exact isNaN_nearest _ (by decide)
    · exact isNaN_nearest _ (Nat.pow_pos (by decide))

end PhpTypes.Decimal
