import Nachos.Mp3.Multiplication

/-!
# Integer arithmetic of the simulated processor

What the instructions leave according to the architecture, in exact integers, and where `OneInstruction`
leaves something else: `SRL` and `SRLV` shift an `int`, and the host cannot divide the smallest
`int` by -1.
-/

namespace Nachos.Mp3
open DoubleWord

namespace Registers

variable {m : Registers} {r : ℕ} {v v' : BitVec 32}

theorem delayedLoad_apply (m : Registers) (nextReg : ℕ) (nextValue : BitVec 32) (r : ℕ) :
    m.delayedLoad nextReg nextValue r = if r = 0 then 0 else if r = loadValueReg then nextValue
      else if r = loadReg then .ofNat 32 nextReg else if r = (m loadReg).toNat then m loadValueReg else m r := by
  simp only [delayedLoad, set, Function.update_apply]

/-- A result that nobody sees: it goes to register 0, or a load that is on its way overwrites it. -/
def Overwritten (m : Registers) (r : ℕ) : Prop := r = 0 ∨ r = (m loadReg).toNat

theorem set_of_ne (m : Registers) {r r' : ℕ} (v : BitVec 32) (ne : r' ≠ r) : m.set r v r' = m r' :=
  Function.update_of_ne (β := fun _ => BitVec 32) ne v m

theorem set_same (m : Registers) (r : ℕ) (v : BitVec 32) : m.set r v r = v :=
  Function.update_self (β := fun _ => BitVec 32) r v m

/-- Two results of an instruction cannot be told apart if they are equal or overwritten. -/
theorem advance_set_iff (general : r < 32) (pcAfter : BitVec 32) :
    (m.set r v).advance pcAfter = (m.set r v').advance pcAfter ↔ m.Overwritten r ∨ v = v' := by
  have load (u : BitVec 32) : m.set r u loadReg = m loadReg := m.set_of_ne u (by unfold loadReg; omega)
  have loadValue (u : BitVec 32) : m.set r u loadValueReg = m loadValueReg := m.set_of_ne u (by unfold loadValueReg; omega)
  constructor
  · intro same
    by_contra other
    obtain ⟨visible, differ⟩ := not_or.1 other
    obtain ⟨nonzero, noLoad⟩ := not_or.1 visible
    apply differ
    have at_r := congrFun same r
    have kept (u : BitVec 32) : (m.set r u).advance pcAfter r = u := by
      unfold advance
      rw [set_of_ne _ _ (by unfold nextPCReg; omega), set_of_ne _ _ (by unfold pcReg; omega),
        set_of_ne _ _ (by unfold prevPCReg; omega), delayedLoad_apply, load, if_neg nonzero,
        if_neg (by unfold loadValueReg; omega), if_neg (by unfold loadReg; omega), if_neg noLoad, set_same]
    rwa [kept, kept] at at_r
  · rintro (hidden | rfl)
    · have same : (m.set r v).delayedLoad 0 0 = (m.set r v').delayedLoad 0 0 := by
        funext r'
        rw [delayedLoad_apply, delayedLoad_apply, load, load, loadValue, loadValue]
        by_cases this : r' = r
        · subst this
          obtain zero | target := hidden
          · rw [if_pos zero, if_pos zero]
          · rw [if_pos target, if_pos target]
        · rw [set_of_ne _ _ this, set_of_ne _ _ this]
      unfold advance
      rw [same]
    · rfl

end Registers

/-! ## The architecture -/

/-- The result of an instruction of the architecture, for the shifts, the products, the quotients and the sums
with a check. A quotient by zero is any. -/
def Mips (instr : Instruction) (m : Registers) (o : Outcome) : Prop :=
  let rs := m instr.rs
  let rt := m instr.rt
  let result (r : ℕ) (n : ℤ) : Outcome := .done ((m.set r (.ofInt 32 n)).advance (m nextPCReg + 4))
  let words (hi lo : ℤ) : Outcome := .done (((m.set hiReg (.ofInt 32 hi)).set loReg (.ofInt 32 lo)).advance (m nextPCReg + 4))
  let checked (r : ℕ) (n : ℤ) : Outcome :=
    if -2 ^ 31 ≤ n ∧ n < 2 ^ 31 then result r n else .exception .overflowException (m.raiseException 0)
  match instr.opCode with
  | .sll => o = result instr.rd (rt.toNat * 2 ^ instr.extra.toNat)
  | .sllv => o = result instr.rd (rt.toNat * 2 ^ (rs.toNat % 32))
  | .srl => o = result instr.rd (rt.toNat / 2 ^ instr.extra.toNat)
  | .srlv => o = result instr.rd (rt.toNat / 2 ^ (rs.toNat % 32))
  | .sra => o = result instr.rd (rt.toInt / 2 ^ instr.extra.toNat)
  | .srav => o = result instr.rd (rt.toInt / 2 ^ (rs.toNat % 32))
  | .mult => o = words (rs.toInt * rt.toInt / 2 ^ 32) (rs.toInt * rt.toInt)
  | .multu => o = words (rs.toNat * rt.toNat / 2 ^ 32) (rs.toNat * rt.toNat)
  | .div => if rt = 0 then ∃ hi lo, o = words hi lo else o = words (rs.toInt.tmod rt.toInt) (rs.toInt.tdiv rt.toInt)
  | .divu => if rt = 0 then ∃ hi lo, o = words hi lo else o = words (rs.toNat % rt.toNat) (rs.toNat / rt.toNat)
  | .add => o = checked instr.rd (rs.toInt + rt.toInt)
  | .addi => o = checked instr.rt (rs.toInt + instr.extra.toInt)
  | .sub => o = checked instr.rd (rs.toInt - rt.toInt)
  | _ => True

/-- Where the simulation follows the architecture. -/
def Simulated (instr : Instruction) (m : Registers) : Prop :=
  match instr.opCode with
  | .srl => instr.extra.toNat = 0 ∨ 0 ≤ (m instr.rt).toInt ∨ m.Overwritten instr.rd
  | .srlv => (m instr.rs).toNat % 32 = 0 ∨ 0 ≤ (m instr.rt).toInt ∨ m.Overwritten instr.rd
  | .div => ¬ ((m instr.rs).toInt = -2 ^ 31 ∧ (m instr.rt).toInt = -1)
  | _ => True

/-! ## The results -/

theorem sll_eq (x : BitVec 32) (s : ℕ) : x <<< s = .ofInt 32 (x.toNat * 2 ^ s) := by
  apply BitVec.eq_of_toNat_eq
  rw [BitVec.toNat_shiftLeft, Nat.shiftLeft_eq, BitVec.toNat_ofInt]
  norm_cast

theorem sra_eq (x : BitVec 32) (s : ℕ) : x.sshiftRight s = .ofInt 32 (x.toInt / 2 ^ s) := by
  have shifted : (x.sshiftRight s).toInt = x.toInt / 2 ^ s := by
    rw [BitVec.toInt_sshiftRight, Int.shiftRight_eq_div_pow]
    norm_cast
  rw [← shifted, BitVec.ofInt_toInt]

/-- A word is its number. -/
theorem eq_ofInt {x : BitVec 32} {n : ℕ} {k : ℤ} (number : x.toNat = n) (cast : (n : ℤ) = k) : x = .ofInt 32 k := by
  subst number cast
  rw [BitVec.ofInt_natCast, BitVec.ofNat_toNat, BitVec.setWidth_eq]

theorem ushiftRight_eq_ofInt (x : BitVec 32) (s : ℕ) : x >>> s = .ofInt 32 (x.toNat / 2 ^ s) := by
  apply eq_ofInt (n := x.toNat / 2 ^ s)
  · rw [BitVec.toNat_ushiftRight, Nat.shiftRight_eq_div_pow]
  · rw [Int.natCast_ediv, Nat.cast_pow, Nat.cast_ofNat]

/-- **`SRL` copies the sign.** -/
theorem srl_iff (x : BitVec 32) (s : ℕ) : x.sshiftRight s = .ofInt 32 (x.toNat / 2 ^ s) ↔ s = 0 ∨ 0 ≤ x.toInt := by
  rw [← ushiftRight_eq_ofInt]
  cases sign : x.msb with
  | false =>
    have positive : 0 ≤ x.toInt := by
      rw [BitVec.msb_eq_toInt] at sign
      exact not_lt.1 (of_decide_eq_false sign)
    rw [BitVec.sshiftRight_eq_of_msb_false sign]
    exact ⟨fun _ => .inr positive, fun _ => rfl⟩
  | true =>
    have negative : x.toInt < 0 := by
      rw [BitVec.msb_eq_toInt] at sign
      exact of_decide_eq_true sign
    constructor
    · intro same
      by_contra other
      have some : s ≠ 0 := fun none => other (.inl none)
      -- the sign of the one is the sign of `x`, the other has none
      have signs := congrArg BitVec.msb same
      rw [BitVec.msb_sshiftRight, BitVec.msb_ushiftRight, sign, decide_eq_true (Nat.pos_of_ne_zero some)] at signs
      exact absurd signs (by decide)
    · rintro (rfl | positive)
      · simp
      · exact absurd positive (not_le.2 negative)

/-- What the checks look at: whether the signs differ. -/
theorem sign_xor (x y : BitVec 32) : (x ^^^ y) &&& signBit ≠ 0 ↔ ¬ (x.toInt < 0 ↔ y.toInt < 0) := by
  rw [and_signBit, BitVec.msb_xor, BitVec.msb_eq_toInt, BitVec.msb_eq_toInt]
  by_cases hx : x.toInt < 0 <;> by_cases hy : y.toInt < 0 <;> simp [hx, hy]

/-- The value of a sum that wraps. -/
theorem bmod_cases {n : ℤ} (lower : -2 ^ 32 ≤ n) (upper : n < 2 ^ 32) : (-2 ^ 31 ≤ n ∧ n < 2 ^ 31 ∧ n.bmod (2 ^ 32) = n) ∨
    (n < -2 ^ 31 ∧ n.bmod (2 ^ 32) = n + 2 ^ 32) ∨ (2 ^ 31 ≤ n ∧ n.bmod (2 ^ 32) = n - 2 ^ 32) := by
  rw [Int.bmod_def]
  split_ifs with small <;> omega

/-- **`ADD` and `ADDI` raise an exception when the sum does not fit.** -/
theorem add_overflow (x y : BitVec 32) : ((x ^^^ y) &&& signBit = 0 ∧ (x ^^^ (x + y)) &&& signBit ≠ 0) ↔
    ¬ (-2 ^ 31 ≤ x.toInt + y.toInt ∧ x.toInt + y.toInt < 2 ^ 31) := by
  have boundX := x.toInt_lt
  have boundX' := x.le_toInt
  have boundY := y.toInt_lt
  have boundY' := y.le_toInt
  have same : (x ^^^ y) &&& signBit = 0 ↔ (x.toInt < 0 ↔ y.toInt < 0) := not_iff_not.1 (sign_xor x y)
  rw [same, sign_xor, BitVec.toInt_add]
  obtain ⟨low, high, eq⟩ | ⟨low, eq⟩ | ⟨high, eq⟩ := bmod_cases (n := x.toInt + y.toInt) (by omega) (by omega) <;> rw [eq] <;> omega

/-- **`SUB` raises an exception when the difference does not fit.** -/
theorem sub_overflow (x y : BitVec 32) : ((x ^^^ y) &&& signBit ≠ 0 ∧ (x ^^^ (x - y)) &&& signBit ≠ 0) ↔
    ¬ (-2 ^ 31 ≤ x.toInt - y.toInt ∧ x.toInt - y.toInt < 2 ^ 31) := by
  have boundX := x.toInt_lt
  have boundX' := x.le_toInt
  have boundY := y.toInt_lt
  have boundY' := y.le_toInt
  rw [sign_xor, sign_xor, BitVec.toInt_sub]
  obtain ⟨low, high, eq⟩ | ⟨low, eq⟩ | ⟨high, eq⟩ := bmod_cases (n := x.toInt - y.toInt) (by omega) (by omega) <;> rw [eq] <;> omega

theorem add_eq_ofInt (x y : BitVec 32) : x + y = .ofInt 32 (x.toInt + y.toInt) := by
  rw [BitVec.ofInt_add, BitVec.ofInt_toInt, BitVec.ofInt_toInt]

theorem sub_eq_ofInt (x y : BitVec 32) : x - y = .ofInt 32 (x.toInt - y.toInt) := by
  apply BitVec.eq_of_toInt_eq
  rw [BitVec.toInt_sub, BitVec.toInt_ofInt]

/-- **The host divides**, unless the quotient is no `int`. -/
theorem intDiv_eq (x y : BitVec 32) : intDiv x y = if x.toInt = -2 ^ 31 ∧ y.toInt = -1 then none
    else some (.ofInt 32 (x.toInt.tdiv y.toInt), .ofInt 32 (x.toInt.tmod y.toInt)) := by
  have quotient : x.sdiv y = .ofInt 32 (x.toInt.tdiv y.toInt) := by
    apply BitVec.eq_of_toInt_eq
    rw [BitVec.toInt_sdiv, BitVec.toInt_ofInt]
  have remainder : x.srem y = .ofInt 32 (x.toInt.tmod y.toInt) := by
    rw [← BitVec.toInt_srem, BitVec.ofInt_toInt]
  have least : x = .intMin 32 ↔ x.toInt = -2 ^ 31 := by
    rw [← BitVec.toInt_inj]
    rfl
  have unit : y = -1 ↔ y.toInt = -1 := by
    rw [← BitVec.toInt_inj]
    rfl
  rw [intDiv, quotient, remainder]
  exact if_congr (and_congr least unit) rfl rfl

theorem shift_amount (x : BitVec 32) : (x &&& 0x1f#32).toNat = x.toNat % 32 := by
  rw [BitVec.toNat_and]
  exact Nat.and_two_pow_sub_one_eq_mod x.toNat 5

theorem rd_lt (raw : BitVec 32) : (decode raw).rd < 32 := by
  change ((raw >>> 11) &&& 0x1f#32).toNat < 32
  rw [shift_amount]
  exact Nat.mod_lt _ (by decide)

/-- The two words of a division, in the order of the source. -/
theorem words_comm (m : Registers) (hi lo : BitVec 32) : (m.set loReg lo).set hiReg hi = (m.set hiReg hi).set loReg lo :=
  Function.update_comm (β := fun _ => BitVec 32) (by decide : loReg ≠ hiReg) lo hi m

/-- The product without signs, as it stands in the two words. -/
theorem multu_words (x y : BitVec 32) : (mult x y false).1 = .ofInt 32 (x.toNat * y.toNat / 2 ^ 32) ∧
    (mult x y false).2 = .ofInt 32 (x.toNat * y.toNat) := by
  apply words_of_value
  rw [mult_unsigned, Int.emod_eq_of_lt (by positivity) (mod_cast product_lt x.isLt y.isLt)]
  exact Nat.cast_mul _ _

theorem udiv_eq_ofInt (x y : BitVec 32) : x / y = .ofInt 32 (x.toNat / y.toNat) :=
  eq_ofInt BitVec.toNat_udiv (Int.natCast_ediv _ _)

theorem umod_eq_ofInt (x y : BitVec 32) : x % y = .ofInt 32 (x.toNat % y.toNat) :=
  eq_ofInt BitVec.toNat_umod (Int.natCast_emod _ _)

/-- **The simulated processor computes as the architecture says**, in all of these instructions but the right shift of a
negative number that should bring in zeros, and the division whose quotient is no `int`. -/
theorem mips_iff (raw : BitVec 32) (m : Registers) :
    Mips (decode raw) m (oneInstruction raw m) ↔ Simulated (decode raw) m := by
  have general := rd_lt raw
  cases op : (decode raw).opCode with
  | sll => simp only [oneInstruction, Mips, Simulated, op, sll_eq]
  | sllv => simp only [oneInstruction, Mips, Simulated, op, sll_eq, shift_amount]
  | sra => simp only [oneInstruction, Mips, Simulated, op, sra_eq]
  | srav => simp only [oneInstruction, Mips, Simulated, op, sra_eq, shift_amount]
  | srl =>
    simp only [oneInstruction, Mips, Simulated, op, Outcome.done.injEq, Registers.advance_set_iff general, srl_iff]
    tauto
  | srlv =>
    simp only [oneInstruction, Mips, Simulated, op, Outcome.done.injEq, Registers.advance_set_iff general, srl_iff, shift_amount]
    tauto
  | mult =>
    obtain ⟨high, low⟩ := words_of_value (mult_signed (m (decode raw).rs) (m (decode raw).rt))
    simp only [oneInstruction, Mips, Simulated, op, high, low]
  | multu =>
    obtain ⟨high, low⟩ := multu_words (m (decode raw).rs) (m (decode raw).rt)
    simp only [oneInstruction, Mips, Simulated, op, high, low]
  | div =>
    simp only [oneInstruction, Mips, Simulated, op, intDiv_eq]
    by_cases zero : m (decode raw).rt = 0
    · have nothing : (m (decode raw).rt).toInt ≠ -1 := by rw [zero]; decide
      rw [if_pos zero, if_pos zero, words_comm]
      exact ⟨fun _ both => nothing both.2, fun _ => ⟨0, 0, rfl⟩⟩
    · rw [if_neg zero, if_neg zero]
      split_ifs with both
      · exact iff_of_false (fun trapped => nomatch trapped) (not_not.2 both)
      · dsimp only
        rw [words_comm]
        exact iff_of_true rfl both
  | divu =>
    simp only [oneInstruction, Mips, Simulated, op, udiv_eq_ofInt, umod_eq_ofInt, words_comm, iff_true]
    split_ifs
    · exact ⟨0, 0, rfl⟩
    · rfl
  | add =>
    simp only [oneInstruction, Mips, Simulated, op, add_overflow, ite_not, ← add_eq_ofInt]
  | addi =>
    have overflow := add_overflow (decode raw).extra (m (decode raw).rs)
    rw [BitVec.xor_comm, BitVec.add_comm, Int.add_comm] at overflow
    simp only [oneInstruction, Mips, Simulated, op, overflow, ite_not, ← add_eq_ofInt]
  | sub =>
    simp only [oneInstruction, Mips, Simulated, op, sub_overflow, ite_not, ← sub_eq_ofInt]
  | _ => simp only [Mips, Simulated, op]

/-- `srl $3, $2, 1` and `div $1, $2`. -/
def srlWord : BitVec 32 := 0x00021842#32
def divWord : BitVec 32 := 0x0022001a#32

/-- The registers 1 and 2, the others being zero. -/
def operands (x y : BitVec 32) : Registers := fun r => if r = 1 then x else if r = 2 then y else 0

/-- `SRL` of the smallest `int` by 1 gives a negative number, and its quotient by -1 traps on the host. -/
theorem sign_copied : ¬ Mips (decode srlWord) (operands 0 (.intMin 32)) (oneInstruction srlWord (operands 0 (.intMin 32))) ∧
    oneInstruction divWord (operands (.intMin 32) (-1)) = .trap ∧
    ¬ Mips (decode divWord) (operands (.intMin 32) (-1)) (oneInstruction divWord (operands (.intMin 32) (-1))) := by
  refine ⟨?_, rfl, ?_⟩
  · intro follows
    have at_3 := congrFun (Outcome.done.inj follows) 3
    revert at_3
    decide
  · intro follows
    cases follows

end Nachos.Mp3
