import Mathlib.Logic.Function.Basic
import Mathlib.Tactic.Common

/-!
# Instructions

`machine/mipssim.cc`: `Decode` with the tables of `machine/mipssim.h`, `Mult`, and `OneInstruction` for the
instructions that leave the memory alone. An `int` is 32 bits wide and its sums wrap, as they do on
the host; a right shift of an `int` copies the sign. The fetched word is an argument.
-/

namespace Nachos.Mp3

/-- What an instruction does; the last two stand in `opTable` only. -/
inductive OpCode where
  | add | addi | addiu | addu | and | andi | beq | bgez | bgezal | bgtz | blez | bltz
  | bltzal | bne | div | divu | j | jal | jalr | jr | lb | lbu | lh | lhu
  | lui | lw | lwl | lwr | mfhi | mflo | mthi | mtlo | mult | multu | nor | or
  | ori | sb | sh | sll | sllv | slt | slti | sltiu | sltu | sra | srav | srl
  | srlv | sub | subu | sw | swl | swr | xor | xori | syscall | unimp | res
  | special | bcond
  deriving DecidableEq, Repr

inductive Format where
  | ifmt
  | jfmt
  | rfmt
  deriving DecidableEq, Repr

structure OpInfo where
  opCode : OpCode
  format : Format
  deriving DecidableEq, Repr

/-- Bits 31 to 26 of an instruction. -/
def opTable : List OpInfo := [
  ⟨.special, .rfmt⟩, ⟨.bcond, .ifmt⟩, ⟨.j, .jfmt⟩, ⟨.jal, .jfmt⟩, ⟨.beq, .ifmt⟩, ⟨.bne, .ifmt⟩, ⟨.blez, .ifmt⟩, ⟨.bgtz, .ifmt⟩,
  ⟨.addi, .ifmt⟩, ⟨.addiu, .ifmt⟩, ⟨.slti, .ifmt⟩, ⟨.sltiu, .ifmt⟩, ⟨.andi, .ifmt⟩, ⟨.ori, .ifmt⟩, ⟨.xori, .ifmt⟩, ⟨.lui, .ifmt⟩,
  ⟨.unimp, .ifmt⟩, ⟨.unimp, .ifmt⟩, ⟨.unimp, .ifmt⟩, ⟨.unimp, .ifmt⟩, ⟨.res, .ifmt⟩, ⟨.res, .ifmt⟩, ⟨.res, .ifmt⟩, ⟨.res, .ifmt⟩,
  ⟨.res, .ifmt⟩, ⟨.res, .ifmt⟩, ⟨.res, .ifmt⟩, ⟨.res, .ifmt⟩, ⟨.res, .ifmt⟩, ⟨.res, .ifmt⟩, ⟨.res, .ifmt⟩, ⟨.res, .ifmt⟩,
  ⟨.lb, .ifmt⟩, ⟨.lh, .ifmt⟩, ⟨.lwl, .ifmt⟩, ⟨.lw, .ifmt⟩, ⟨.lbu, .ifmt⟩, ⟨.lhu, .ifmt⟩, ⟨.lwr, .ifmt⟩, ⟨.res, .ifmt⟩,
  ⟨.sb, .ifmt⟩, ⟨.sh, .ifmt⟩, ⟨.swl, .ifmt⟩, ⟨.sw, .ifmt⟩, ⟨.res, .ifmt⟩, ⟨.res, .ifmt⟩, ⟨.swr, .ifmt⟩, ⟨.res, .ifmt⟩,
  ⟨.unimp, .ifmt⟩, ⟨.unimp, .ifmt⟩, ⟨.unimp, .ifmt⟩, ⟨.unimp, .ifmt⟩, ⟨.res, .ifmt⟩, ⟨.res, .ifmt⟩, ⟨.res, .ifmt⟩, ⟨.res, .ifmt⟩,
  ⟨.unimp, .ifmt⟩, ⟨.unimp, .ifmt⟩, ⟨.unimp, .ifmt⟩, ⟨.unimp, .ifmt⟩, ⟨.res, .ifmt⟩, ⟨.res, .ifmt⟩, ⟨.res, .ifmt⟩, ⟨.res, .ifmt⟩]

/-- The function field of the special instructions. -/
def specialTable : List OpCode := [
  .sll, .res, .srl, .sra, .sllv, .res, .srlv, .srav,
  .jr, .jalr, .res, .res, .syscall, .unimp, .res, .res,
  .mfhi, .mthi, .mflo, .mtlo, .res, .res, .res, .res,
  .mult, .multu, .div, .divu, .res, .res, .res, .res,
  .add, .addu, .sub, .subu, .and, .or, .xor, .nor,
  .res, .res, .slt, .sltu, .res, .res, .res, .res,
  .res, .res, .res, .res, .res, .res, .res, .res,
  .res, .res, .res, .res, .res, .res, .res, .res]

structure Instruction where
  opCode : OpCode
  rs : ℕ
  rt : ℕ
  rd : ℕ
  extra : BitVec 32
  deriving DecidableEq, Repr

/-- `Instruction::Decode`. -/
def decode (value : BitVec 32) : Instruction :=
  let opPtr := opTable.getD ((value >>> 26) &&& 0x3f#32).toNat ⟨.res, .ifmt⟩
  let opCode := match opPtr.opCode with
    | .special => specialTable.getD (value &&& 0x3f#32).toNat .res
    | .bcond =>
      let i := value &&& 0x1f0000#32
      if i = 0 then .bltz
      else if i = 0x10000#32 then .bgez
      else if i = 0x100000#32 then .bltzal
      else if i = 0x110000#32 then .bgezal
      else .unimp
    | opCode => opCode
  let extra := match opPtr.format with
    | .ifmt =>
      let extra := value &&& 0xffff#32
      if extra &&& 0x8000#32 ≠ 0 then extra ||| 0xffff0000#32 else extra
    | .rfmt => (value >>> 6) &&& 0x1f#32
    | .jfmt => value &&& 0x3ffffff#32
  { opCode := opCode
    rs := ((value >>> 21) &&& 0x1f#32).toNat
    rt := ((value >>> 16) &&& 0x1f#32).toNat
    rd := ((value >>> 11) &&& 0x1f#32).toNat
    extra := extra }

/-! ## The registers -/

abbrev Registers := ℕ → BitVec 32

def r31 : ℕ := 31
def hiReg : ℕ := 32
def loReg : ℕ := 33
def pcReg : ℕ := 34
def nextPCReg : ℕ := 35
def prevPCReg : ℕ := 36
def loadReg : ℕ := 37
def loadValueReg : ℕ := 38
def badVAddrReg : ℕ := 39

inductive ExceptionType where
  | noException
  | syscallException
  | pageFaultException
  | readOnlyException
  | busErrorException
  | addressErrorException
  | overflowException
  | illegalInstrException
  | memoryLimitException
  deriving DecidableEq, Repr

namespace Registers

def set (m : Registers) (r : ℕ) (v : BitVec 32) : Registers := Function.update m r v

/-- `Machine::DelayedLoad`. -/
def delayedLoad (m : Registers) (nextReg : ℕ) (nextValue : BitVec 32) : Registers :=
  let m := m.set (m loadReg).toNat (m loadValueReg)
  let m := m.set loadReg (.ofNat 32 nextReg)
  let m := m.set loadValueReg nextValue
  m.set 0 0

/-- The end of `OneInstruction`. -/
def advance (m : Registers) (pcAfter : BitVec 32) : Registers :=
  let m := m.delayedLoad 0 0
  let m := m.set prevPCReg (m pcReg)
  let m := m.set pcReg (m nextPCReg)
  m.set nextPCReg pcAfter

/-- `Machine::RaiseException`, up to the call of the kernel. -/
def raiseException (m : Registers) (badVAddr : BitVec 32) : Registers := (m.set badVAddrReg badVAddr).delayedLoad 0 0

end Registers

/-! ## Multiplication -/

def signBit : BitVec 32 := 0x80000000#32

/-- The loop of `Mult`, for the rounds that are left: the words `hi` and `lo`. -/
def multLoop : ℕ → (a bLo bHi lo hi : BitVec 32) → BitVec 32 × BitVec 32
  | 0, _, _, _, lo, hi => (hi, lo)
  | n + 1, a, bLo, bHi, lo, hi =>
    let bLo' := bLo <<< 1
    let bHi' := if bLo &&& signBit ≠ 0 then (bHi <<< 1) ||| 1#32 else bHi <<< 1
    if a &&& 1#32 ≠ 0 then
      let lo := lo + bLo
      -- carry out of the low bits?
      let hi := if lo < bLo then hi + 1#32 else hi
      let hi := hi + bHi
      if a &&& 0xfffffffe#32 = 0 then (hi, lo) else multLoop n (a.sshiftRight 1) bLo' bHi' lo hi
    else multLoop n (a.sshiftRight 1) bLo' bHi' lo hi

/-- `Mult`: the words that are stored at `hiPtr` and `loPtr`. -/
def mult (a b : BitVec 32) (signedArith : Bool) : BitVec 32 × BitVec 32 :=
  if a = 0 ∨ b = 0 then (0, 0)
  else
    let negative := signedArith && (a.slt 0 != b.slt 0)
    let a := if signedArith && a.slt 0 then -a else a
    let b := if signedArith && b.slt 0 then -b else b
    let (hi, lo) := multLoop 32 a b 0 0 0
    if negative then
      let hi := ~~~hi
      let lo := ~~~lo + 1#32
      (if lo = 0 then hi + 1#32 else hi, lo)
    else (hi, lo)

/-! ## One instruction -/

/-- How an instruction ends. -/
inductive Outcome where
  | done (m : Registers)
  /-- The kernel is called. -/
  | exception (which : ExceptionType) (m : Registers)
  /-- A division traps on the host. -/
  | trap
  /-- The instruction reads or writes the memory. -/
  | memory
  | assertion

/-- `/` and `%` of an `int`, which the host computes unless the quotient is no `int`. -/
def intDiv (a b : BitVec 32) : Option (BitVec 32 × BitVec 32) :=
  if a = .intMin 32 ∧ b = -1 then none else some (a.sdiv b, a.srem b)

/-- `Machine::OneInstruction`, on the word that was fetched. -/
def oneInstruction (raw : BitVec 32) (m : Registers) : Outcome :=
  let instr := decode raw
  let rs := m instr.rs
  let rt := m instr.rt
  let extra := instr.extra
  let pcAfter := m nextPCReg + 4
  let done (m : Registers) : Outcome := .done (m.advance pcAfter)
  let branch (taken : Bool) (m : Registers) : Outcome :=
    .done (m.advance (if taken then m nextPCReg + (extra <<< 2) else pcAfter))
  match instr.opCode with
  | .add =>
    let sum := rs + rt
    if (rs ^^^ rt) &&& signBit = 0 ∧ (rs ^^^ sum) &&& signBit ≠ 0 then .exception .overflowException (m.raiseException 0)
    else done (m.set instr.rd sum)
  | .addi =>
    let sum := rs + extra
    if (rs ^^^ extra) &&& signBit = 0 ∧ (extra ^^^ sum) &&& signBit ≠ 0 then .exception .overflowException (m.raiseException 0)
    else done (m.set instr.rt sum)
  | .addiu => done (m.set instr.rt (rs + extra))
  | .addu => done (m.set instr.rd (rs + rt))
  | .and => done (m.set instr.rd (rs &&& rt))
  | .andi => done (m.set instr.rt (rs &&& (extra &&& 0xffff#32)))
  | .beq => branch (rs = rt) m
  | .bgezal =>
    let m := m.set r31 (m nextPCReg + 4)
    branch (m instr.rs &&& signBit = 0) m
  | .bgez => branch (rs &&& signBit = 0) m
  | .bgtz => branch (BitVec.slt 0 rs) m
  | .blez => branch (rs.sle 0) m
  | .bltzal =>
    let m := m.set r31 (m nextPCReg + 4)
    branch (m instr.rs &&& signBit ≠ 0) m
  | .bltz => branch (rs &&& signBit ≠ 0) m
  | .bne => branch (rs ≠ rt) m
  | .div =>
    if rt = 0 then done ((m.set loReg 0).set hiReg 0)
    else match intDiv rs rt with
      | none => .trap
      | some (quotient, remainder) => done ((m.set loReg quotient).set hiReg remainder)
  | .divu =>
    if rt = 0 then done ((m.set loReg 0).set hiReg 0)
    else done ((m.set loReg (rs / rt)).set hiReg (rs % rt))
  | .jal => .done ((m.set r31 (m nextPCReg + 4)).advance ((pcAfter &&& 0xf0000000#32) ||| (extra <<< 2)))
  | .j => .done (m.advance ((pcAfter &&& 0xf0000000#32) ||| (extra <<< 2)))
  | .jalr =>
    let m := m.set instr.rd (m nextPCReg + 4)
    .done (m.advance (m instr.rs))
  | .jr => .done (m.advance rs)
  | .lui => done (m.set instr.rt (extra <<< 16))
  | .mfhi => done (m.set instr.rd (m hiReg))
  | .mflo => done (m.set instr.rd (m loReg))
  | .mthi => done (m.set hiReg rs)
  | .mtlo => done (m.set loReg rs)
  | .mult => done ((m.set hiReg (mult rs rt true).1).set loReg (mult rs rt true).2)
  | .multu => done ((m.set hiReg (mult rs rt false).1).set loReg (mult rs rt false).2)
  | .nor => done (m.set instr.rd (~~~(rs ||| rt)))
  | .or => done (m.set instr.rd (rs ||| rt))
  | .ori => done (m.set instr.rt (rs ||| (extra &&& 0xffff#32)))
  | .sll => done (m.set instr.rd (rt <<< extra.toNat))
  | .sllv => done (m.set instr.rd (rt <<< (rs &&& 0x1f#32).toNat))
  | .slt => done (m.set instr.rd (if rs.slt rt then 1 else 0))
  | .slti => done (m.set instr.rt (if rs.slt extra then 1 else 0))
  | .sltiu => done (m.set instr.rt (if rs < extra then 1 else 0))
  | .sltu => done (m.set instr.rd (if rs < rt then 1 else 0))
  | .sra => done (m.set instr.rd (rt.sshiftRight extra.toNat))
  | .srav => done (m.set instr.rd (rt.sshiftRight (rs &&& 0x1f#32).toNat))
  -- `tmp` is an `int`
  | .srl => done (m.set instr.rd (rt.sshiftRight extra.toNat))
  | .srlv => done (m.set instr.rd (rt.sshiftRight (rs &&& 0x1f#32).toNat))
  | .sub =>
    let diff := rs - rt
    if (rs ^^^ rt) &&& signBit ≠ 0 ∧ (rs ^^^ diff) &&& signBit ≠ 0 then .exception .overflowException (m.raiseException 0)
    else done (m.set instr.rd diff)
  | .subu => done (m.set instr.rd (rs - rt))
  | .xor => done (m.set instr.rd (rs ^^^ rt))
  | .xori => done (m.set instr.rt (rs ^^^ (extra &&& 0xffff#32)))
  | .syscall => .exception .syscallException (m.raiseException 0)
  | .res | .unimp => .exception .illegalInstrException (m.raiseException 0)
  | .special | .bcond => .assertion
  | .lb | .lbu | .lh | .lhu | .lw | .lwl | .lwr | .sb | .sh | .sw | .swl | .swr => .memory

end Nachos.Mp3
