import Mathlib.Data.Nat.ModEq
import Mathlib.Tactic.Linarith
import Mathlib.Tactic.Ring

/-!
# Numbers in two words

A number below `2 ^ w * 2 ^ w` in a high and a low word. Addition with a carry, doubling and the two's
complement are computed word by word.
-/

namespace DoubleWord

variable {w : ℕ} {hi lo : BitVec w}

/-- The number in two words. -/
def value (hi lo : BitVec w) : ℕ := hi.toNat * 2 ^ w + lo.toNat

theorem value_low (lo : BitVec w) : value 0 lo = lo.toNat := by simp [value]

theorem value_zero : value (0 : BitVec w) 0 = 0 := by simp [value]

/-- **The carry rule.** What is left of a number in two words is in the words of it. -/
theorem value_mod (x y : ℕ) : (x * 2 ^ w + y) % (2 ^ w * 2 ^ w) = (x + y / 2 ^ w) % 2 ^ w * 2 ^ w + y % 2 ^ w := by
  have low : (x * 2 ^ w + y) % 2 ^ w = y % 2 ^ w := by
    rw [Nat.add_comm, Nat.add_mul_mod_self_right]
  have high : (x * 2 ^ w + y) / 2 ^ w = x + y / 2 ^ w := by
    rw [Nat.add_comm, Nat.add_mul_div_right _ _ (Nat.two_pow_pos w), Nat.add_comm]
  rw [Nat.mod_mul, low, high, Nat.mul_comm (2 ^ w), Nat.add_comm]

theorem value_lt (hi lo : BitVec w) : value hi lo < 2 ^ w * 2 ^ w := by
  have high : hi.toNat + 1 ≤ 2 ^ w := hi.isLt
  calc value hi lo < hi.toNat * 2 ^ w + 2 ^ w := Nat.add_lt_add_left lo.isLt _
    _ = (hi.toNat + 1) * 2 ^ w := by ring
    _ ≤ 2 ^ w * 2 ^ w := Nat.mul_le_mul_right _ high

/-- **The words of a number**, which may be negative. -/
theorem words_of_value {p : ℤ} (eq : (value hi lo : ℤ) = p % (2 ^ w * 2 ^ w)) : hi = .ofInt w (p / 2 ^ w) ∧ lo = .ofInt w p := by
  have pos : (0 : ℤ) < 2 ^ w := by positivity
  have boundHi : (hi.toNat : ℤ) < 2 ^ w := mod_cast hi.isLt
  have boundLo : (lo.toNat : ℤ) < 2 ^ w := mod_cast lo.isLt
  have number : p = (p / (2 ^ w * 2 ^ w) * 2 ^ w + hi.toNat) * 2 ^ w + lo.toNat := by
    have parts := Int.ediv_mul_add_emod p (2 ^ w * 2 ^ w)
    rw [← eq, value] at parts
    push_cast at parts
    linarith
  have high : p / 2 ^ w = p / (2 ^ w * 2 ^ w) * 2 ^ w + hi.toNat := by
    conv_lhs => rw [number]
    rw [Int.add_comm, Int.add_mul_ediv_right _ _ pos.ne', Int.ediv_eq_zero_of_lt (Int.natCast_nonneg _) boundLo, Int.zero_add]
  constructor
  · apply BitVec.eq_of_toNat_eq
    rw [BitVec.toNat_ofInt, high]
    push_cast
    rw [Int.add_comm, Int.add_mul_emod_self_right, Int.emod_eq_of_lt (Int.natCast_nonneg _) boundHi, Int.toNat_natCast]
  · apply BitVec.eq_of_toNat_eq
    rw [BitVec.toNat_ofInt, number]
    push_cast
    rw [Int.add_comm, Int.add_mul_emod_self_right, Int.emod_eq_of_lt (Int.natCast_nonneg _) boundLo, Int.toNat_natCast]

/-- The sum of two words is less than the second one if there is a carry. -/
theorem carry_of_lt {a b : BitVec w} (less : a + b < b) : (a.toNat + b.toNat) / 2 ^ w = 1 := by
  have bound := a.isLt
  rw [BitVec.lt_def, BitVec.toNat_add] at less
  have large : 2 ^ w ≤ a.toNat + b.toNat := by
    by_contra fits
    rw [Nat.mod_eq_of_lt (not_le.1 fits)] at less
    omega
  exact Nat.div_eq_of_lt_le (by omega) (by omega)

theorem no_carry_of_le {a b : BitVec w} (le : ¬ a + b < b) : (a.toNat + b.toNat) / 2 ^ w = 0 := by
  have bound := a.isLt
  have bound' := b.isLt
  rw [BitVec.lt_def, BitVec.toNat_add] at le
  apply Nat.div_eq_of_lt
  by_contra large
  rw [Nat.mod_eq_sub_mod (not_lt.1 large), Nat.mod_eq_of_lt (by omega)] at le
  omega

theorem toNat_succ (a : BitVec w) : (a + 1#w).toNat = (a.toNat + 1) % 2 ^ w := by
  rw [BitVec.toNat_add, BitVec.toNat_ofNat, Nat.add_mod_mod]

/-- **The sum of two numbers.** -/
theorem value_add (hi lo hi' lo' : BitVec w) : value ((if lo + lo' < lo' then hi + 1#w else hi) + hi') (lo + lo') =
    (value hi lo + value hi' lo') % (2 ^ w * 2 ^ w) := by
  have sum : value hi lo + value hi' lo' = (hi.toNat + hi'.toNat) * 2 ^ w + (lo.toNat + lo'.toNat) := by
    unfold value
    ring
  rw [sum, value_mod, value, BitVec.toNat_add lo, BitVec.toNat_add]
  congr 2
  split
  case isTrue less => rw [toNat_succ, Nat.mod_add_mod, carry_of_lt less, Nat.add_right_comm]
  case isFalse le => rw [no_carry_of_le le, Nat.add_zero]

/-- The top bit of a word is the carry of its double. -/
theorem double_carry (a : BitVec w) (pos : 0 < w) : 2 * a.toNat / 2 ^ w = if a.msb then 1 else 0 := by
  have half : 2 ^ w = 2 * 2 ^ (w - 1) := by
    rw [← Nat.pow_succ', Nat.succ_eq_add_one, Nat.sub_one_add_one pos.ne']
  have bound := a.isLt
  rw [half, Nat.mul_div_mul_left _ _ two_pos]
  cases top : a.msb with
  | true =>
    have big := BitVec.msb_eq_true_iff_two_mul_ge.1 top
    rw [if_pos rfl]
    exact Nat.div_eq_of_lt_le (by omega) (by omega)
  | false =>
    have small := BitVec.msb_eq_false_iff_two_mul_lt.1 top
    exact Nat.div_eq_of_lt (by omega)

theorem toNat_shiftLeft_one (a : BitVec w) : (a <<< 1).toNat = 2 * a.toNat % 2 ^ w := by
  rw [BitVec.toNat_shiftLeft, Nat.shiftLeft_eq, Nat.pow_one, Nat.mul_comm]

/-- A doubled word has room for the carry. -/
theorem toNat_shiftLeft_or (a : BitVec w) : ((a <<< 1) ||| 1#w).toNat = (2 * a.toNat + 1) % 2 ^ w := by
  have disjoint : (a <<< 1) &&& 1#w = 0#w := by
    ext i bound
    cases i <;> simp
  rw [← BitVec.add_eq_or_of_and_eq_zero _ _ disjoint, toNat_succ, toNat_shiftLeft_one, Nat.mod_add_mod]

/-- **The double of a number.** -/
theorem value_double (hi lo : BitVec w) (pos : 0 < w) :
    value (if lo.msb then (hi <<< 1) ||| 1#w else hi <<< 1) (lo <<< 1) = 2 * value hi lo % (2 ^ w * 2 ^ w) := by
  have sum : 2 * value hi lo = 2 * hi.toNat * 2 ^ w + 2 * lo.toNat := by
    unfold value
    ring
  rw [sum, value_mod, value, toNat_shiftLeft_one lo, double_carry lo pos]
  congr 2
  split
  · exact toNat_shiftLeft_or hi
  · exact toNat_shiftLeft_one hi

/-- **The complement of a number.** -/
theorem value_neg (hi lo : BitVec w) : value (if ~~~lo + 1#w = 0 then ~~~hi + 1#w else ~~~hi) (~~~lo + 1#w) =
    (2 ^ w * 2 ^ w - value hi lo) % (2 ^ w * 2 ^ w) := by
  have boundHi := hi.isLt
  have boundLo := lo.isLt
  have whole : 2 ^ w * 2 ^ w - value hi lo = (2 ^ w - 1 - hi.toNat) * 2 ^ w + (2 ^ w - lo.toNat) := by
    have high : (2 ^ w - 1 - hi.toNat) + 1 + hi.toNat = 2 ^ w := by omega
    have low : (2 ^ w - lo.toNat) + lo.toNat = 2 ^ w := by omega
    apply Nat.sub_eq_of_eq_add
    unfold value
    calc 2 ^ w * 2 ^ w = ((2 ^ w - 1 - hi.toNat) + 1 + hi.toNat) * 2 ^ w := by rw [high]
      _ = (2 ^ w - 1 - hi.toNat) * 2 ^ w + 2 ^ w + hi.toNat * 2 ^ w := by ring
      _ = (2 ^ w - 1 - hi.toNat) * 2 ^ w + ((2 ^ w - lo.toNat) + lo.toNat) + hi.toNat * 2 ^ w := by rw [low]
      _ = (2 ^ w - 1 - hi.toNat) * 2 ^ w + (2 ^ w - lo.toNat) + (hi.toNat * 2 ^ w + lo.toNat) := by ring
  have low : (~~~lo + 1#w).toNat = (2 ^ w - lo.toNat) % 2 ^ w := by
    rw [toNat_succ, BitVec.toNat_not]
    congr 1
    omega
  rw [whole, value_mod, value, low]
  congr 2
  split
  case isTrue zero =>
    -- the low word is zero, and the carry goes to the high word
    have none : lo.toNat = 0 := by
      have nothing : (0 : BitVec w).toNat = 0 := by simp
      rw [zero, nothing] at low
      by_contra some
      rw [Nat.mod_eq_of_lt (by omega)] at low
      omega
    rw [toNat_succ, BitVec.toNat_not, none, Nat.sub_zero, Nat.div_self (Nat.two_pow_pos w)]
  case isFalse more =>
    have some : lo.toNat ≠ 0 := by
      intro none
      apply more
      apply BitVec.eq_of_toNat_eq
      rw [low, none, Nat.sub_zero, Nat.mod_self]
      rfl
    rw [BitVec.toNat_not, Nat.div_eq_of_lt (by omega), Nat.add_zero, Nat.mod_eq_of_lt (by omega)]

end DoubleWord
