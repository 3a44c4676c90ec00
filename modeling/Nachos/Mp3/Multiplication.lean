import Nachos.Base.DoubleWord
import Nachos.Mp3.Instruction

/-!
# Multiplication

The loop of `Mult` adds a shifted value of `b` for each bit of `a`. What is left of the bits of `a`
times what `b` has become, added to what is in `hi` and `lo`, does not change.
-/

namespace Nachos.Mp3
open DoubleWord

theorem and_signBit (x : BitVec 32) : x &&& signBit ≠ 0 ↔ x.msb = true := by
  have top : (x &&& signBit).msb = x.msb := by
    rw [BitVec.msb_and, show signBit.msb = true from rfl, Bool.and_true]
  constructor
  · intro some
    by_contra no
    apply some
    apply BitVec.eq_of_getLsbD_eq
    intro i bound
    have mask : ∀ k < 32, signBit.getLsbD k = decide (k = 31) := by decide
    have nothing : (0 : BitVec 32).getLsbD i = false := BitVec.getLsbD_zero
    rw [BitVec.getLsbD_and, mask i bound, nothing]
    by_cases last : i = 31
    · rw [last, ← show x.msb = x.getLsbD 31 from BitVec.msb_eq_getLsbD_last x, Bool.eq_false_iff.2 no, Bool.false_and]
    · rw [decide_eq_false last, Bool.and_false]
  · intro sign none
    rw [none, sign] at top
    exact absurd top (by decide)

theorem and_one (x : BitVec 32) : x &&& 1#32 ≠ 0 ↔ x.toNat % 2 = 1 := by
  rw [ne_eq, ← BitVec.toNat_inj, BitVec.toNat_and]
  change ¬ x.toNat &&& 1 = 0 ↔ _
  rw [Nat.and_one_is_mod]
  omega

/-- No bit is left of a number behind its first one. -/
theorem and_rest (x : BitVec 32) (rest : x &&& 0xfffffffe#32 = 0) : x.toNat / 2 = 0 := by
  apply Nat.eq_of_testBit_eq
  intro i
  have bit : (x &&& 0xfffffffe#32).getLsbD (i + 1) = false := by rw [rest]; simp
  rw [Nat.testBit_div_two, Nat.zero_testBit]
  by_cases bound : i + 1 < 32
  · have mask : ∀ k < 32, (0xfffffffe#32).getLsbD k = decide (k ≠ 0) := by decide
    rw [BitVec.getLsbD_and, mask _ bound] at bit
    simpa [BitVec.getLsbD] using bit
  · exact Nat.testBit_lt_two_pow (lt_of_lt_of_le x.isLt (Nat.pow_le_pow_right (by decide) (not_lt.1 bound)))

/-- An arithmetic shift moves the low bits as any shift does. -/
theorem sshiftRight_one_mod (x : BitVec 32) {n : ℕ} (bound : n < 32) : (x.sshiftRight 1).toNat % 2 ^ n = x.toNat / 2 % 2 ^ n := by
  have top : 2 ^ 31 = 2 ^ (31 - n) * 2 ^ n := by rw [← Nat.pow_add, Nat.sub_add_cancel (Nat.le_of_lt_succ bound)]
  cases sign : x.msb with
  | false => rw [BitVec.toNat_sshiftRight_of_msb_false sign, Nat.shiftRight_eq_div_pow, Nat.pow_one]
  | true =>
    have big := BitVec.msb_eq_true_iff_two_mul_ge.1 sign
    have less := x.isLt
    have value : (x.sshiftRight 1).toNat = x.toNat / 2 + 2 ^ 31 := by
      rw [BitVec.toNat_sshiftRight_of_msb_true sign, Nat.shiftRight_eq_div_pow]
      omega
    rw [value, top, Nat.add_mul_mod_self_right]

/-- What the loop makes of `b`. -/
theorem shifted_value (bLo bHi : BitVec 32) :
    value (if bLo &&& signBit ≠ 0 then (bHi <<< 1) ||| 1#32 else bHi <<< 1) (bLo <<< 1) = 2 * value bHi bLo % (2 ^ 32 * 2 ^ 32) := by
  have same : (if bLo &&& signBit ≠ 0 then (bHi <<< 1) ||| 1#32 else bHi <<< 1) =
      if bLo.msb then (bHi <<< 1) ||| 1#32 else bHi <<< 1 := if_congr (and_signBit bLo) rfl rfl
  rw [same, value_double bHi bLo (by decide)]

/-- Half of the bits that are left are to be added twice. -/
theorem mod_double (v x y M : ℕ) : (v + x * (2 * y % M)) % M = (v + 2 * x * y) % M := by
  have twice := ((Nat.mod_modEq (2 * y) M).mul_left x).add_left v
  calc (v + x * (2 * y % M)) % M = (v + x * (2 * y)) % M := twice
    _ = (v + 2 * x * y) % M := by ring_nf

/-- **The loop of `Mult`.** -/
theorem multLoop_value {n : ℕ} (bound : n ≤ 32) (a bLo bHi lo hi : BitVec 32) :
    value (multLoop n a bLo bHi lo hi).1 (multLoop n a bLo bHi lo hi).2 =
      (value hi lo + a.toNat % 2 ^ n * value bHi bLo) % (2 ^ 32 * 2 ^ 32) := by
  induction n generalizing a bLo bHi lo hi with
  | zero =>
    change value hi lo = _
    rw [Nat.pow_zero, Nat.mod_one, Nat.zero_mul, Nat.add_zero, Nat.mod_eq_of_lt (value_lt hi lo)]
  | succ n ih =>
    have bits : a.toNat % 2 ^ (n + 1) = a.toNat % 2 + 2 * (a.toNat / 2 % 2 ^ n) := by rw [Nat.pow_succ', Nat.mod_mul]
    rw [bits, multLoop]
    dsimp only
    by_cases odd : a &&& 1#32 ≠ 0
    · have one := (and_one a).1 odd
      rw [if_pos odd]
      by_cases rest : a &&& 0xfffffffe#32 = 0
      · -- this was the last bit
        rw [if_pos rest, value_add, one, and_rest a rest, Nat.zero_mod, Nat.mul_zero, Nat.add_zero, Nat.one_mul]
      · rw [if_neg rest, ih (Nat.le_of_succ_le bound), shifted_value, value_add, sshiftRight_one_mod a bound,
          Nat.mod_add_mod, mod_double, one, Nat.add_mul, Nat.one_mul, Nat.add_assoc]
    · have zero : a.toNat % 2 = 0 := by
        have even := mt (and_one a).2 odd
        omega
      rw [if_neg odd, ih (Nat.le_of_succ_le bound), shifted_value, sshiftRight_one_mod a bound, mod_double, zero,
        Nat.zero_add]

/-! ## The product -/

theorem slt_zero (x : BitVec 32) : x.slt 0 = decide (x.toInt < 0) := by
  have zero : (0 : BitVec 32).toInt = 0 := BitVec.toInt_zero
  rw [BitVec.slt_eq_decide, zero]

/-- The value of a register without its sign. -/
theorem magnitude (x : BitVec 32) : (if x.slt 0 then -x else x).toNat = x.toInt.natAbs := by
  have bound := x.isLt
  rw [slt_zero]
  split
  case isTrue sign =>
    have negative : x.toInt < 0 := of_decide_eq_true sign
    rw [BitVec.toNat_neg]
    rw [BitVec.toInt_eq_toNat_cond] at negative ⊢
    split_ifs at negative ⊢ <;> omega
  case isFalse sign =>
    have positive : 0 ≤ x.toInt := not_lt.1 fun negative => sign (decide_eq_true negative)
    rw [BitVec.toInt_eq_toNat_cond] at positive ⊢
    split_ifs at positive ⊢ <;> omega

/-- A product of two words fits in two words. -/
theorem product_lt {a b : ℕ} (ha : a < 2 ^ 32) (hb : b < 2 ^ 32) : a * b < 2 ^ 32 * 2 ^ 32 := Nat.mul_lt_mul'' ha hb

/-- **`MULTU` leaves the product.** -/
theorem mult_unsigned (a b : BitVec 32) : value (mult a b false).1 (mult a b false).2 = a.toNat * b.toNat := by
  unfold mult
  split
  case isTrue zero =>
    obtain rfl | rfl := zero
    · exact value_zero.trans (by simp)
    · exact value_zero.trans (by simp)
  case isFalse =>
    have product := multLoop_value le_rfl a b 0 0 0
    simp only [Bool.false_and, Bool.false_eq_true, if_false]
    rw [product, value_zero, value_low, Nat.zero_add, Nat.mod_eq_of_lt a.isLt, Nat.mod_eq_of_lt (product_lt a.isLt b.isLt)]

/-- The product of the signed values from the one without signs. -/
theorem product_sign (a b : ℤ) : a * b = if (decide (a < 0) != decide (b < 0)) = true then -((a.natAbs * b.natAbs : ℕ) : ℤ)
    else ((a.natAbs * b.natAbs : ℕ) : ℤ) := by
  by_cases ha : a < 0
  · by_cases hb : b < 0
    · simp [ha, hb, abs_of_neg ha, abs_of_neg hb]
    · simp [ha, hb, abs_of_neg ha, abs_of_nonneg (not_lt.1 hb)]
  · by_cases hb : b < 0
    · simp [ha, hb, abs_of_nonneg (not_lt.1 ha), abs_of_neg hb]
    · simp [ha, hb, abs_of_nonneg (not_lt.1 ha), abs_of_nonneg (not_lt.1 hb)]

theorem cast_neg_mod {n M : ℕ} (le : n ≤ M) : (((M - n) % M : ℕ) : ℤ) = -(n : ℤ) % M := by
  rw [Int.natCast_mod, Nat.cast_sub le, sub_eq_neg_add, Int.add_emod_right]

/-- **`MULT` leaves the product of the signed values.** -/
theorem mult_signed (a b : BitVec 32) :
    (value (mult a b true).1 (mult a b true).2 : ℤ) = a.toInt * b.toInt % (2 ^ 32 * 2 ^ 32) := by
  unfold mult
  split
  case isTrue zero =>
    have product : a.toInt * b.toInt = 0 := by
      obtain rfl | rfl := zero
      · exact Int.zero_mul _
      · exact Int.mul_zero _
    rw [product]
    exact congrArg Nat.cast value_zero
  case isFalse =>
    have boundA : a.toInt.natAbs < 2 ^ 32 := magnitude a ▸ BitVec.isLt _
    have boundB : b.toInt.natAbs < 2 ^ 32 := magnitude b ▸ BitVec.isLt _
    have fits := product_lt boundA boundB
    have product := multLoop_value le_rfl (if a.slt 0 then -a else a) (if b.slt 0 then -b else b) 0 0 0
    rw [value_zero, value_low, Nat.zero_add, magnitude, magnitude, Nat.mod_eq_of_lt boundA, Nat.mod_eq_of_lt fits] at product
    simp only [Bool.true_and]
    generalize multLoop 32 (if a.slt 0 then -a else a) (if b.slt 0 then -b else b) 0 0 0 = r at product ⊢
    obtain ⟨hi, lo⟩ := r
    rw [product_sign, ← slt_zero, ← slt_zero]
    dsimp only at product ⊢
    split
    case isTrue =>
      have complement := value_neg hi lo
      rw [product] at complement
      dsimp only
      rw [complement, cast_neg_mod fits.le]
      rfl
    case isFalse =>
      rw [product]
      exact (Int.emod_eq_of_lt (Int.natCast_nonneg _) (mod_cast fits)).symm

end Nachos.Mp3
