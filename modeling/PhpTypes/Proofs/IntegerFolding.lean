import Mathlib.Algebra.Order.Ring.Abs
import Mathlib.Algebra.Order.Ring.Int
import Mathlib.Data.Int.Bitwise
import Mathlib.Data.Int.ModEq
import Mathlib.Tactic.Linarith
import PhpTypes.Ty.Arithmetic

/-!
# Operations on known integers

What is computed from two integers of known value is what a machine with 64 bits computes, except
that a sum, difference, product, quotient or power that does not fit is a float. Operators on bits
are computed on words of 64 bits, and agree with those on integers of any size.
-/

namespace PhpTypes.Ty

/-- An integer of 64 bits. -/
def Fits (n : Int) : Prop := -2 ^ 63 ≤ n ∧ n ≤ 2 ^ 63 - 1

instance (n : Int) : Decidable (Fits n) := inferInstanceAs (Decidable (_ ∧ _))

/-- The type of a computed integer: its value if that fits, and otherwise a float. -/
structure Computed (n : Int) (t : Ty) : Prop where
  fits : Fits n → t = .int (some n)
  overflows : ¬ Fits n → t.isFloat = true

private theorem isFloat_ofFloat? (x : Float) :
    ((ofFloat? x).getD (.float none)).isFloat = true := by
  rw [ofFloat?]
  split <;> rfl

private theorem computed_ofNumber? (n : Int) :
    Computed n ((ofNumber? (.int n)).getD (.float none)) := by
  have hrange : (minInt ≤ n ∧ n ≤ maxInt) ↔ Fits n := Iff.rfl
  constructor
  · intro h
    rw [ofNumber?, if_pos (hrange.mpr h)]
    rfl
  · intro h
    rw [ofNumber?, if_neg (mt hrange.mp h)]
    exact isFloat_ofFloat? _

/-! Quotients, remainders and powers. -/

section

variable {a b : Int}

private theorem binary_of_arithmetic? {op : Source.BinaryOp} {n : Number}
    (hop : ∀ l r, binary op l r = arithmetic op l r)
    (h : Number.arithmetic? op (.int a) (.int b) = some n) :
    binary op (.int (some a)) (.int (some b)) = (ofNumber? n).getD (.float none) := by
  rw [hop]
  change foldedArithmetic op _ _ (.int a) (.int b) = _
  rw [foldedArithmetic, h]

private theorem number_div_of_ne_zero (hb : b ≠ 0) :
    Number.arithmetic? .div (.int a) (.int b) =
      if a % b = 0 then some (.int (a / b)) else some (.float (Decimal.ofQuotient a b)) := by
  have hzero : (Number.int b).isZero = false := by simpa [Number.isZero] using hb
  change Number.div (.int a) (.int b) = _
  rw [Number.div, hzero]
  rfl

private theorem computed_div {q : Int} (hb : b ≠ 0) (h : a = q * b) :
    Computed q (binary .div (.int (some a)) (.int (some b))) := by
  have hdiv : Number.arithmetic? .div (.int a) (.int b) = some (.int q) := by
    rw [number_div_of_ne_zero hb, h, Int.mul_emod_left, if_pos rfl, Int.mul_ediv_cancel q hb]
  rw [binary_of_arithmetic? (fun _ _ => rfl) hdiv]
  exact computed_ofNumber? q

private theorem isFloat_div (hb : b ≠ 0) (h : ¬ b ∣ a) :
    (binary .div (.int (some a)) (.int (some b))).isFloat = true := by
  have hdiv : Number.arithmetic? .div (.int a) (.int b) =
      some (.float (Decimal.ofQuotient a b)) := by
    rw [number_div_of_ne_zero hb, if_neg (mt Int.dvd_of_emod_eq_zero h)]
  rw [binary_of_arithmetic? (fun _ _ => rfl) hdiv]
  exact isFloat_ofFloat? _

/-- The remainder of a division whose quotient is rounded towards zero: it is smaller than the
divisor, and it has the sign of the dividend. -/
structure IsRemainder (a b r : Int) : Prop where
  dvd : b ∣ a - r
  small : |r| < |b|
  sign : 0 ≤ a * r

private theorem isRemainder_tmod (a : Int) (hb : b ≠ 0) : IsRemainder a b (a.tmod b) := by
  refine ⟨Int.dvd_self_sub_tmod, ?_, ?_⟩
  · rw [Int.abs_eq_natAbs, Int.abs_eq_natAbs, Int.natAbs_tmod]
    exact_mod_cast Nat.mod_lt _ (Int.natAbs_pos.mpr hb)
  · rcases le_total 0 a with ha | ha
    · exact mul_nonneg ha (Int.tmod_nonneg b ha)
    · have hneg : 0 ≤ (-a).tmod b := Int.tmod_nonneg b (neg_nonneg.mpr ha)
      rw [Int.neg_tmod] at hneg
      exact mul_nonneg_of_nonpos_of_nonpos ha (neg_nonneg.mp hneg)

theorem IsRemainder.fits {r : Int} (h : IsRemainder a b r) (hb : Fits b) : Fits r := by
  have hsmall := abs_lt.mp h.small
  have habs : |b| ≤ 2 ^ 63 := abs_le.mpr ⟨hb.1, by have := hb.2; omega⟩
  constructor
  · linarith [hsmall.1]
  · linarith [hsmall.2]

private theorem binary_mod (hb : b ≠ 0) (hfits : Fits b) :
    ∃ r, binary .mod (.int (some a)) (.int (some b)) = .int (some r) ∧ IsRemainder a b r := by
  have hmod : Number.arithmetic? .mod (.int a) (.int b) = some (.int (a.tmod b)) := by
    change (if b = 0 then none else some (Number.int (a.tmod b))) = _
    rw [if_neg hb]
  have hrem := isRemainder_tmod a hb
  refine ⟨a.tmod b, ?_, hrem⟩
  rw [binary_of_arithmetic? (fun _ _ => rfl) hmod]
  exact (computed_ofNumber? _).fits (hrem.fits hfits)

private theorem smallPow_eq {a : Int} (ha : a.natAbs ≤ 1) (n : Nat) : smallPow a n = a ^ n := by
  have hcases : a = 0 ∨ a = 1 ∨ a = -1 := by omega
  rw [smallPow]
  split
  · rename_i hn
    rw [hn, pow_zero]
  · rename_i hn
    rcases hcases with rfl | rfl | rfl
    · simp [hn]
    · simp
    · split
      · rename_i heven
        exact ((Nat.even_iff.mpr heven).neg_one_pow).symm
      · rename_i hodd
        exact ((Nat.odd_iff.mpr (by omega)).neg_one_pow).symm

/-- Beyond an exponent of 64 only the powers of numbers up to one in size fit. -/
theorem not_fits_pow {n : Nat} (ha : 1 < a.natAbs) (hn : 64 < n) : ¬ Fits (a ^ n) := by
  intro hfits
  have hlarge : 2 ^ 64 ≤ (a ^ n).natAbs := by
    rw [Int.natAbs_pow]
    calc 2 ^ 64 ≤ 2 ^ n := Nat.pow_le_pow_right (by decide) hn.le
      _ ≤ a.natAbs ^ n := Nat.pow_le_pow_left ha n
  have hsmall : (a ^ n).natAbs ≤ 2 ^ 63 := by
    have hl := hfits.1
    have hu := hfits.2
    omega
  omega

private theorem computed_pow (hb : 0 ≤ b) :
    Computed (a ^ b.toNat) (binary .pow (.int (some a)) (.int (some b))) := by
  have hpow : Number.arithmetic? .pow (.int a) (.int b) =
      if a.natAbs ≤ 1 then some (.int (smallPow a b.toNat))
      else if b ≤ 64 then some (.int (a ^ b.toNat))
      else some (floatPow (.int a) (.int b)) :=
    if_neg (not_lt.mpr hb)
  by_cases ha : a.natAbs ≤ 1
  · rw [if_pos ha, smallPow_eq ha] at hpow
    rw [binary_of_arithmetic? (fun _ _ => rfl) hpow]
    exact computed_ofNumber? _
  · rw [if_neg ha] at hpow
    by_cases hexp : b ≤ 64
    · rw [if_pos hexp] at hpow
      rw [binary_of_arithmetic? (fun _ _ => rfl) hpow]
      exact computed_ofNumber? _
    · rw [if_neg hexp] at hpow
      have hlarge : ¬ Fits (a ^ b.toNat) := not_fits_pow (by omega) (by omega)
      rw [binary_of_arithmetic? (fun _ _ => rfl) hpow]
      exact ⟨fun h => (hlarge h).elim, fun _ => isFloat_ofFloat? _⟩

private theorem isFloat_pow (hb : b < 0) :
    (binary .pow (.int (some a)) (.int (some b))).isFloat = true := by
  have hpow : Number.arithmetic? .pow (.int a) (.int b) =
      if a = 0 then none else some (floatPow (.int a) (.int b)) :=
    if_pos hb
  change (foldedArithmetic .pow _ _ (.int a) (.int b)).isFloat = true
  by_cases ha : a = 0
  · rw [if_pos ha] at hpow
    rw [foldedArithmetic, hpow]
    rfl
  · rw [if_neg ha] at hpow
    rw [foldedArithmetic, hpow]
    exact isFloat_ofFloat? _

end

/-! Bits. -/

private theorem getLsbD_ofInt {w i : Nat} (n : Int) (hi : i < w) :
    (BitVec.ofInt w n).getLsbD i = n.testBit i := by
  cases n with
  | ofNat m =>
    change (BitVec.ofNat w m).getLsbD i = m.testBit i
    rw [BitVec.getLsbD_ofNat, decide_eq_true hi, Bool.true_and]
  | negSucc m =>
    rw [BitVec.ofInt_negSucc_eq_not_ofNat, BitVec.getLsbD_not, BitVec.getLsbD_ofNat,
      decide_eq_true hi, Bool.true_and, Bool.true_and]
    rfl

/-- From the last bit of a word on, the bits of an integer that fits only repeat its sign. -/
theorem Fits.testBit {n : Int} (h : Fits n) {i : Nat} (hi : 63 ≤ i) :
    n.testBit i = decide (n < 0) := by
  obtain ⟨hl, hu⟩ := h
  have hpow : 2 ^ 63 ≤ 2 ^ i := Nat.pow_le_pow_right (by decide) hi
  cases n with
  | ofNat m =>
    have hm : m < 2 ^ i := by
      have : (m : Int) ≤ 2 ^ 63 - 1 := hu
      omega
    simp [Int.testBit, Nat.testBit_lt_two_pow hm]
  | negSucc m =>
    have hm : m < 2 ^ i := by omega
    have hsign : Int.negSucc m < 0 := Int.negSucc_lt_zero m
    simp [Int.testBit, Nat.testBit_lt_two_pow hm, hsign]

private theorem nat_lt_of_testBit {m : Nat} {s : Bool} (h : ∀ i, 63 ≤ i → m.testBit i = s) :
    m < 2 ^ 63 := by
  have hs : s = false := by
    have hlarge : m < 2 ^ (63 + m) :=
      Nat.lt_of_lt_of_le Nat.lt_two_pow_self (Nat.pow_le_pow_right (by decide) (by omega))
    rw [← h (63 + m) (by omega), Nat.testBit_lt_two_pow hlarge]
  exact Nat.lt_pow_two_of_testBit m fun i hi => by rw [h i hi, hs]

private theorem fits_of_testBit {n : Int} {s : Bool} (h : ∀ i, 63 ≤ i → n.testBit i = s) :
    Fits n := by
  cases n with
  | ofNat m =>
    have hm : m < 2 ^ 63 := nat_lt_of_testBit h
    constructor
    · have := Int.natCast_nonneg m
      simp only [Int.ofNat_eq_natCast]
      omega
    · simp only [Int.ofNat_eq_natCast]
      omega
  | negSucc m =>
    have hm : m < 2 ^ 63 := nat_lt_of_testBit (s := !s) fun i hi => by simp [← h i hi, Int.testBit]
    constructor <;> omega

theorem Fits.bitwise {a b : Int} (ha : Fits a) (hb : Fits b) (f : Bool → Bool → Bool) :
    Fits (Int.bitwise f a b) :=
  fits_of_testBit fun i hi => by rw [Int.testBit_bitwise, ha.testBit hi, hb.testBit hi]

theorem Fits.toInt_ofInt {n : Int} (h : Fits n) : (BitVec.ofInt 64 n).toInt = n :=
  BitVec.toInt_ofInt_eq_self (by decide) h.1 (Int.lt_of_le_sub_one h.2)

/-- What is computed bit by bit on words is what is computed bit by bit on integers. -/
theorem toInt_eq_bitwise {a b : Int} (ha : Fits a) (hb : Fits b) (f : Bool → Bool → Bool)
    {x : BitVec 64}
    (hx : ∀ i < 64,
      x.getLsbD i = f ((BitVec.ofInt 64 a).getLsbD i) ((BitVec.ofInt 64 b).getLsbD i)) :
    x.toInt = Int.bitwise f a b := by
  have hword : x = BitVec.ofInt 64 (Int.bitwise f a b) := by
    apply BitVec.eq_of_getLsbD_eq
    intro i hi
    rw [hx i hi, getLsbD_ofInt _ hi, getLsbD_ofInt _ hi, getLsbD_ofInt _ hi, Int.testBit_bitwise]
  rw [hword, (ha.bitwise hb f).toInt_ofInt]

section

variable {a b : Int}

private theorem binary_bitAnd (ha : Fits a) (hb : Fits b) :
    binary .bitAnd (.int (some a)) (.int (some b)) = .int (some (Int.land a b)) := by
  rw [← Int.bitwise_and, ← toInt_eq_bitwise ha hb and fun _ _ => BitVec.getLsbD_and]
  rfl

private theorem binary_bitOr (ha : Fits a) (hb : Fits b) :
    binary .bitOr (.int (some a)) (.int (some b)) = .int (some (Int.lor a b)) := by
  rw [← Int.bitwise_or, ← toInt_eq_bitwise ha hb or fun _ _ => BitVec.getLsbD_or]
  rfl

private theorem binary_bitXor (ha : Fits a) (hb : Fits b) :
    binary .bitXor (.int (some a)) (.int (some b)) = .int (some (Int.xor a b)) := by
  rw [← Int.bitwise_xor, ← toInt_eq_bitwise ha hb xor fun _ _ => BitVec.getLsbD_xor]
  rfl

private theorem binary_shiftRight (ha : Fits a) (hb : 0 ≤ b) (hle : b ≤ 63) :
    binary .shiftRight (.int (some a)) (.int (some b)) = .int (some (a / 2 ^ b.toNat)) := by
  have hword : ((BitVec.ofInt 64 a).sshiftRight b.toNat).toInt = a / 2 ^ b.toNat := by
    rw [BitVec.toInt_sshiftRight, ha.toInt_ofInt, Int.shiftRight_eq_div_pow]
    push_cast
    rfl
  change Ty.int (if 0 ≤ b ∧ b ≤ 63 then some _ else none) = _
  rw [if_pos ⟨hb, hle⟩, hword]

/-- A shift to the left keeps the last 64 bits. -/
theorem binary_shiftLeft (hb : 0 ≤ b) (hle : b ≤ 63) :
    ∃ n, binary .shiftLeft (.int (some a)) (.int (some b)) = .int (some n) ∧ Fits n ∧
      n ≡ a * 2 ^ b.toNat [ZMOD 2 ^ 64] := by
  refine ⟨(BitVec.ofInt 64 a <<< b.toNat).toInt, ?_, ?_, ?_⟩
  · change Ty.int (if 0 ≤ b ∧ b ≤ 63 then some _ else none) = _
    rw [if_pos ⟨hb, hle⟩]
  · exact ⟨BitVec.le_toInt _, Int.le_sub_one_of_lt BitVec.toInt_lt⟩
  · have hword : ((BitVec.ofInt 64 a).toNat : Int) ≡ a [ZMOD 2 ^ 64] := by
      rw [BitVec.toNat_ofInt, Int.toNat_of_nonneg (Int.emod_nonneg a (by decide))]
      exact Int.mod_modEq a _
    have hwrap : ∀ k : Int, k.bmod (2 ^ 64) ≡ k [ZMOD 2 ^ 64] := fun k => Int.bmod_emod
    rw [BitVec.toInt_shiftLeft]
    calc _ ≡ (((BitVec.ofInt 64 a).toNat <<< b.toNat : Nat) : Int) [ZMOD 2 ^ 64] := hwrap _
      _ = (BitVec.ofInt 64 a).toNat * 2 ^ b.toNat := by
        rw [Nat.shiftLeft_eq]
        push_cast
        rfl
      _ ≡ a * 2 ^ b.toNat [ZMOD 2 ^ 64] := hword.mul_right _

private theorem binary_shift_of_not_le (h : ¬ (0 ≤ b ∧ b ≤ 63)) :
    binary .shiftLeft (.int (some a)) (.int (some b)) = .int none ∧
      binary .shiftRight (.int (some a)) (.int (some b)) = .int none := by
  constructor
  · change Ty.int (if 0 ≤ b ∧ b ≤ 63 then some _ else none) = _
    rw [if_neg h]
  · change Ty.int (if 0 ≤ b ∧ b ≤ 63 then some _ else none) = _
    rw [if_neg h]

end

private theorem unary_minus {a : Int} (ha : Fits a) (hleast : a ≠ -2 ^ 63) :
    unary .minus (.int (some a)) = .int (some (-a)) := by
  have hfits : minInt ≤ -a ∧ -a ≤ maxInt := by
    obtain ⟨hl, hu⟩ := ha
    constructor
    · change -2 ^ 63 ≤ -a
      omega
    · change -a ≤ 2 ^ 63 - 1
      omega
  change (ofNumber? (.int (-a))).getD (.int none) = _
  rw [ofNumber?, if_pos hfits]
  rfl

/-- The least integer has no negative; the float that stands for it is finite. -/
theorem isFloat_minus_least : (unary .minus (.int (some (-2 ^ 63)))).isFloat = true := by
  have hfinite : Decimal.isFinite (Decimal.ofInt (2 ^ 63)) = true := by decide +kernel
  change ((ofFloat? (Decimal.ofInt (2 ^ 63))).getD (.int none)).isFloat = true
  rw [ofFloat?, if_pos hfinite]
  rfl

/-- The operations on two integers of known value are those of a machine with 64 bits, with floats
for the results that do not fit. -/
structure MachineArithmetic (a b : Int) : Prop where
  add : Computed (a + b) (binary .add (.int (some a)) (.int (some b)))
  sub : Computed (a - b) (binary .sub (.int (some a)) (.int (some b)))
  mul : Computed (a * b) (binary .mul (.int (some a)) (.int (some b)))
  quotient : ∀ q, b ≠ 0 → a = q * b → Computed q (binary .div (.int (some a)) (.int (some b)))
  fraction : b ≠ 0 → ¬ b ∣ a → (binary .div (.int (some a)) (.int (some b))).isFloat = true
  divZero : b = 0 →
    binary .div (.int (some a)) (.int (some b)) = .union [.int none, .float none]
  remainder : b ≠ 0 →
    ∃ r, binary .mod (.int (some a)) (.int (some b)) = .int (some r) ∧ IsRemainder a b r
  modZero : b = 0 → binary .mod (.int (some a)) (.int (some b)) = .int none
  power : 0 ≤ b → Computed (a ^ b.toNat) (binary .pow (.int (some a)) (.int (some b)))
  negativePower : b < 0 → (binary .pow (.int (some a)) (.int (some b))).isFloat = true
  bitAnd : binary .bitAnd (.int (some a)) (.int (some b)) = .int (some (Int.land a b))
  bitOr : binary .bitOr (.int (some a)) (.int (some b)) = .int (some (Int.lor a b))
  bitXor : binary .bitXor (.int (some a)) (.int (some b)) = .int (some (Int.xor a b))
  shiftRight : 0 ≤ b → b ≤ 63 →
    binary .shiftRight (.int (some a)) (.int (some b)) = .int (some (a / 2 ^ b.toNat))
  shiftLeft : 0 ≤ b → b ≤ 63 →
    ∃ n, binary .shiftLeft (.int (some a)) (.int (some b)) = .int (some n) ∧ Fits n ∧
      n ≡ a * 2 ^ b.toNat [ZMOD 2 ^ 64]
  wideShift : ¬ (0 ≤ b ∧ b ≤ 63) →
    binary .shiftLeft (.int (some a)) (.int (some b)) = .int none ∧
      binary .shiftRight (.int (some a)) (.int (some b)) = .int none
  minus : a ≠ -2 ^ 63 → unary .minus (.int (some a)) = .int (some (-a))
  minusLeast : a = -2 ^ 63 → (unary .minus (.int (some a))).isFloat = true

theorem machineArithmetic_of_fits {a b : Int} (ha : Fits a) (hb : Fits b) :
    MachineArithmetic a b where
  add := computed_ofNumber? _
  sub := computed_ofNumber? _
  mul := computed_ofNumber? _
  quotient _ := computed_div
  fraction := isFloat_div
  divZero h := by
    subst h
    rfl
  remainder h := binary_mod h hb
  modZero h := by
    subst h
    rfl
  power := computed_pow
  negativePower := isFloat_pow
  bitAnd := binary_bitAnd ha hb
  bitOr := binary_bitOr ha hb
  bitXor := binary_bitXor ha hb
  shiftRight := binary_shiftRight ha
  shiftLeft := binary_shiftLeft
  wideShift := binary_shift_of_not_le
  minus := unary_minus ha
  minusLeast h := by
    subst h
    exact isFloat_minus_least

/-- The least integer divided by minus one does not fit, while its remainder is zero. -/
theorem leastInt_arithmetic :
    Fits (-2 ^ 63) ∧ Fits (-1) ∧
      (binary .div (.int (some (-2 ^ 63))) (.int (some (-1)))).isFloat = true ∧
      binary .mod (.int (some (-2 ^ 63))) (.int (some (-1))) = .int (some 0) ∧
      binary .bitXor (.int (some (-2 ^ 63))) (.int (some (-1))) = .int (some (2 ^ 63 - 1)) := by
  have hl : Fits (-2 ^ 63) := by decide
  have hb : Fits (-1) := by decide
  have h := machineArithmetic_of_fits hl hb
  refine ⟨hl, hb, ?_, ?_, ?_⟩
  · exact (h.quotient (2 ^ 63) (by decide) (by decide)).overflows (by decide)
  · obtain ⟨r, hr, hrem⟩ := h.remainder (by decide)
    have hzero : r = 0 := Int.abs_lt_one_iff.mp hrem.small
    rw [hr, hzero]
  · rw [h.bitXor]
    rfl

end PhpTypes.Ty
