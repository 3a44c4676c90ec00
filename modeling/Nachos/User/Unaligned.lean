import Nachos.Mp3.Arithmetic
import Nachos.User.Image

/-!
# Words at any address

`LWR` and `LWL` load the word that starts at an address, and `SWR` and `SWL` store it, however it lies
in the words of the memory and on its pages. Each of them accesses one aligned word; the second
load takes what the first has put on its way to the register.
-/

namespace Nachos.User
open Bytes Nachos.Mp2 Nachos.Mp3

/-! ## The bytes of a word -/

section bytes

variable {v w : Word} {j k n : ℕ}

theorem byteOf_or : byteOf (v ||| w) j = byteOf v j ||| byteOf w j := by
  apply BitVec.eq_of_getLsbD_eq
  intro i hi
  simp only [byteOf, BitVec.getLsbD_extractLsb', BitVec.getLsbD_or, hi, decide_true, Bool.true_and]

theorem byteOf_and : byteOf (v &&& w) j = byteOf v j &&& byteOf w j := by
  apply BitVec.eq_of_getLsbD_eq
  intro i hi
  simp only [byteOf, BitVec.getLsbD_extractLsb', BitVec.getLsbD_and, hi, decide_true, Bool.true_and]

theorem byteOf_shiftLeft (shift : n = 8 * k) (hj : j < 4) : byteOf (v <<< n) j = if j < k then 0 else byteOf v (j - k) := by
  subst shift
  apply BitVec.eq_of_getLsbD_eq
  intro i hi
  have inside : 8 * j + i < 32 := by omega
  simp only [byteOf, BitVec.getLsbD_extractLsb', BitVec.getLsbD_shiftLeft, hi, inside, decide_true, Bool.true_and]
  by_cases low : j < k
  · rw [if_pos low, decide_eq_true (by omega : 8 * j + i < 8 * k)]
    simp
  · rw [if_neg low, decide_eq_false (by omega : ¬ 8 * j + i < 8 * k), BitVec.getLsbD_extractLsb', decide_eq_true hi,
      show 8 * (j - k) + i = 8 * j + i - 8 * k by omega]
    simp

theorem byteOf_sshiftRight (shift : n = 8 * k) (hj : j + k < 4) : byteOf (v.sshiftRight n) j = byteOf v (j + k) := by
  subst shift
  apply BitVec.eq_of_getLsbD_eq
  intro i hi
  have outside : ¬ 32 ≤ 8 * j + i := by omega
  have inside : 8 * k + (8 * j + i) < 32 := by omega
  simp only [byteOf, BitVec.getLsbD_extractLsb', BitVec.getLsbD_sshiftRight, hi, outside, inside, decide_true, decide_false,
    Bool.not_false, Bool.true_and, if_true]
  congr 1
  omega

/-- The low bytes of one word and the bytes of another, moved up. -/
theorem byteOf_mergeLeft {mask : Word} (shift : n = 8 * k) (low : ∀ j < 4, byteOf mask j = if j < k then 0xff#8 else 0#8) (hj : j < 4) :
    byteOf ((v &&& mask) ||| (w <<< n)) j = if j < k then byteOf v j else byteOf w (j - k) := by
  rw [byteOf_or, byteOf_and, byteOf_shiftLeft shift hj, low j hj]
  split
  · exact BitVec.or_zero.trans BitVec.and_allOnes
  · rw [BitVec.and_zero, BitVec.zero_or]

/-- The high bytes of one word and the bytes of another, moved down. -/
theorem byteOf_mergeRight {high low : Word} (shift : n = 8 * k)
    (masks : ∀ j < 4, byteOf high j = (if j + k < 4 then 0#8 else 0xff#8) ∧ byteOf low j = if j + k < 4 then 0xff#8 else 0#8) (hj : j < 4) :
    byteOf ((v &&& high) ||| ((w.sshiftRight n) &&& low)) j = if j + k < 4 then byteOf w (j + k) else byteOf v j := by
  rw [byteOf_or, byteOf_and, byteOf_and, (masks j hj).1, (masks j hj).2]
  split
  · rw [byteOf_sshiftRight shift ‹_›, BitVec.and_zero, BitVec.zero_or]
    exact BitVec.and_allOnes
  · rw [BitVec.and_zero, BitVec.or_zero]
    exact BitVec.and_allOnes

variable {byte : ℕ}

theorem byteOf_loadLeft (hb : byte < 4) (hj : j < 4) :
    byteOf (loadLeft v w byte) j = if j < 3 - byte then byteOf v j else byteOf w (j - (3 - byte)) := by
  obtain rfl | rfl | rfl | rfl : byte = 0 ∨ byte = 1 ∨ byte = 2 ∨ byte = 3 := by omega
  · exact byteOf_mergeLeft (k := 3) rfl (by decide) hj
  · exact byteOf_mergeLeft (k := 2) rfl (by decide) hj
  · exact byteOf_mergeLeft (k := 1) rfl (by decide) hj
  · rfl

theorem byteOf_storeRight (hb : byte < 4) (hj : j < 4) :
    byteOf (storeRight v w byte) j = if j < byte then byteOf v j else byteOf w (j - byte) := by
  obtain rfl | rfl | rfl | rfl : byte = 0 ∨ byte = 1 ∨ byte = 2 ∨ byte = 3 := by omega
  · rfl
  · exact byteOf_mergeLeft (k := 1) rfl (by decide) hj
  · exact byteOf_mergeLeft (k := 2) rfl (by decide) hj
  · exact byteOf_mergeLeft (k := 3) rfl (by decide) hj

theorem byteOf_loadRight (hb : byte < 4) (hj : j < 4) :
    byteOf (loadRight v w byte) j = if j + byte < 4 then byteOf w (j + byte) else byteOf v j := by
  obtain rfl | rfl | rfl | rfl : byte = 0 ∨ byte = 1 ∨ byte = 2 ∨ byte = 3 := by omega
  · exact (if_pos hj).symm
  · exact byteOf_mergeRight (k := 1) rfl (by decide) hj
  · exact byteOf_mergeRight (k := 2) rfl (by decide) hj
  · exact byteOf_mergeRight (k := 3) rfl (by decide) hj

theorem byteOf_storeLeft (hb : byte < 4) (hj : j < 4) :
    byteOf (storeLeft v w byte) j = if j + (3 - byte) < 4 then byteOf w (j + (3 - byte)) else byteOf v j := by
  obtain rfl | rfl | rfl | rfl : byte = 0 ∨ byte = 1 ∨ byte = 2 ∨ byte = 3 := by omega
  · exact byteOf_mergeRight (k := 3) rfl (by decide) hj
  · exact byteOf_mergeRight (k := 2) rfl (by decide) hj
  · exact byteOf_mergeRight (k := 1) rfl (by decide) hj
  · exact (if_pos hj).symm

theorem word_ext (same : ∀ j < 4, byteOf v j = byteOf w j) : v = w := by
  rw [← wordOf_byteOf v, ← wordOf_byteOf w, same 0 (by decide), same 1 (by decide), same 2 (by decide), same 3 (by decide)]

/-- The word around an address. -/
theorem toNat_align (v : Word) : (v &&& 3#32).toNat = v.toNat % 4 ∧ (v - (v &&& 3#32)).toNat = v.toNat / 4 * 4 := by
  have low : (v &&& 3#32).toNat = v.toNat % 4 := by
    rw [BitVec.toNat_and]
    exact Nat.and_two_pow_sub_one_eq_mod v.toNat 2
  refine ⟨low, ?_⟩
  rw [BitVec.toNat_sub, low]
  have := v.isLt
  omega

end bytes

/-! ## The registers -/

section registers

variable {m : Registers} {r n : ℕ} {value pcAfter : Word}

theorem advanceLoad_general (general : r < 32) : advanceLoad m n value pcAfter r =
    if r = 0 then 0 else if r = (m loadReg).toNat then m loadValueReg else m r := by
  unfold advanceLoad
  rw [Registers.set_of_ne _ _ (by unfold nextPCReg; omega), Registers.set_of_ne _ _ (by unfold pcReg; omega),
    Registers.set_of_ne _ _ (by unfold prevPCReg; omega), Registers.delayedLoad_apply,
    if_neg (show r ≠ loadValueReg by unfold loadValueReg; omega), if_neg (show r ≠ loadReg by unfold loadReg; omega)]

/-- A load is on its way. -/
theorem advanceLoad_pending (m : Registers) (n : ℕ) (value pcAfter : Word) :
    advanceLoad m n value pcAfter loadReg = .ofNat 32 n ∧ advanceLoad m n value pcAfter loadValueReg = value := by
  unfold advanceLoad
  constructor
  · rw [Registers.set_of_ne _ _ (by decide), Registers.set_of_ne _ _ (by decide), Registers.set_of_ne _ _ (by decide),
      Registers.delayedLoad_apply, if_neg (by decide), if_neg (by decide), if_pos rfl]
  · rw [Registers.set_of_ne _ _ (by decide), Registers.set_of_ne _ _ (by decide), Registers.set_of_ne _ _ (by decide),
      Registers.delayedLoad_apply, if_neg (by decide), if_pos rfl]

/-- A register that no load is on its way to; register 0 is one. -/
def Settled (m : Registers) (r : ℕ) : Prop := r < 32 ∧ m 0 = 0 ∧ (r ≠ 0 → (m loadReg).toNat ≠ r)

theorem Settled.advanceLoad (h : Settled m r) (n : ℕ) (value pcAfter : Word) : advanceLoad m n value pcAfter r = m r := by
  obtain ⟨general, zero, idle⟩ := h
  rw [advanceLoad_general general]
  by_cases first : r = 0
  · rw [if_pos first, first, zero]
  · rw [if_neg first, if_neg (idle first).symm]

/-- An instruction that loads nothing. -/
theorem Settled.advance (h : Settled m r) (pcAfter : Word) : m.advance pcAfter r = m r ∧ Settled (m.advance pcAfter) r := by
  refine ⟨h.advanceLoad 0 0 pcAfter, h.1, ?_, fun ne => ?_⟩
  · change Nachos.User.advanceLoad m 0 0 pcAfter 0 = 0
    rw [advanceLoad_general (by decide), if_pos rfl]
  · have idle : m.advance pcAfter loadReg = .ofNat 32 0 := (advanceLoad_pending m 0 0 pcAfter).1
    rw [idle]
    exact ne.symm

end registers

/-! ## On the image -/

namespace Image

/-- The four bytes from an address on. -/
def word (im : Image) (v : ℕ) : Word := wordOf (im.bytes v) (im.bytes (v + 1)) (im.bytes (v + 2)) (im.bytes (v + 3))

theorem byteOf_word (im : Image) (v : ℕ) {j : ℕ} (hj : j < 4) : byteOf (im.word v) j = im.bytes (v + j) :=
  byteOf_wordOf (fun j => im.bytes (v + j)) hj

/-- The pages of the four bytes from an address on are there. -/
def Mapped (im : Image) (v : ℕ) : Prop := (v + 3) / pageSize < im.numPages ∧ im.numPages ≤ numPhysPages

variable {im : Image} {addr : Word}

theorem readMem_word (aligned : addr.toNat % 4 = 0) (inside : addr.toNat / pageSize < im.numPages) :
    imageBus.readMem im addr .word = .ok (im.word addr.toNat, im) := by
  have free : im.check addr.toNat .word false = none := by
    unfold check
    rw [if_neg (show ¬ addr.toNat % Size.word.bytes ≠ 0 from not_not.2 aligned), if_neg (Nat.not_le.2 inside),
      if_neg (fun both => by cases both.2)]
  simp only [imageBus, free]
  rfl

/-- The two words that hold the bytes. -/
theorem Mapped.words (mapped : im.Mapped addr.toNat) : (addr + 3).toNat = addr.toNat + 3 ∧
    imageBus.readMem im (addr - (addr &&& 3#32)) .word = .ok (im.word (addr.toNat / 4 * 4), im) ∧
    imageBus.readMem im (addr + 3 - ((addr + 3) &&& 3#32)) .word = .ok (im.word ((addr.toNat + 3) / 4 * 4), im) := by
  obtain ⟨inside, short⟩ := mapped
  rw [page_eq] at inside
  have memory : numPhysPages = 128 := rfl
  have next : (addr + 3).toNat = addr.toNat + 3 := by
    rw [BitVec.toNat_add, show (3 : Word).toNat = 3 from rfl]
    omega
  refine ⟨next, ?_, ?_⟩
  · have place := (toNat_align addr).2
    rw [← place]
    apply readMem_word
    · omega
    · rw [page_eq]
      omega
  · have place := (toNat_align (addr + 3)).2
    rw [next] at place
    rw [← place]
    apply readMem_word
    · omega
    · rw [page_eq]
      omega

end Image

section load

variable {im : Image} {m : Registers} {rs rt rd rd' : ℕ} {extra : Word}

/-- The two loads put the word together. -/
theorem loadLeft_loadRight (im : Image) (v : ℕ) (old : Word) :
    loadLeft (loadRight old (im.word (v / 4 * 4)) (v % 4)) (im.word ((v + 3) / 4 * 4)) ((v + 3) % 4) = im.word v := by
  apply word_ext
  intro j hj
  rw [byteOf_loadLeft (by omega) hj, Image.byteOf_word im v hj]
  split
  · rw [byteOf_loadRight (by omega) hj, if_pos (by omega), Image.byteOf_word im _ (by omega)]
    congr 1
    omega
  · rw [Image.byteOf_word im _ (by omega)]
    congr 1
    omega

/-- The register as the next load merges it. -/
def pending (m : Registers) (rt : ℕ) : Word := if m loadReg = .ofNat 32 rt then m loadValueReg else m rt

theorem pending_advanceLoad (m : Registers) (rt : ℕ) (value pcAfter : Word) : pending (advanceLoad m rt value pcAfter) rt = value := by
  obtain ⟨reg, there⟩ := advanceLoad_pending m rt value pcAfter
  rw [pending, if_pos reg, there]

theorem memoryInstruction_lwr {value : Word}
    (read : imageBus.readMem im (m rs + extra - ((m rs + extra) &&& 3#32)) .word = .ok (value, im)) :
    imageBus.memoryInstruction ⟨.lwr, rs, rt, rd, extra⟩ m im =
      .done (advanceLoad m rt (loadRight (pending m rt) value ((m rs + extra) &&& 3#32).toNat) (m nextPCReg + 4)) im := by
  simp only [Bus.memoryInstruction, Bus.load, read, pending]

theorem memoryInstruction_lwl (value : Word)
    (read : imageBus.readMem im (m rs + extra - ((m rs + extra) &&& 3#32)) .word = .ok (value, im)) :
    imageBus.memoryInstruction ⟨.lwl, rs, rt, rd, extra⟩ m im =
      .done (advanceLoad m rt (loadLeft (pending m rt) value ((m rs + extra) &&& 3#32).toNat) (m nextPCReg + 4)) im := by
  simp only [Bus.memoryInstruction, Bus.load, read, pending]

/-- **A word at any address is loaded** by `LWR` and `LWL`. -/
theorem load_unaligned (rt rd rd' : ℕ) (settled : Settled m rs) (mapped : im.Mapped (m rs + extra).toNat) :
    ∃ m₁ m₂, imageBus.memoryInstruction ⟨.lwr, rs, rt, rd, extra⟩ m im = .done m₁ im ∧
      imageBus.memoryInstruction ⟨.lwl, rs, rt, rd', extra + 3⟩ m₁ im = .done m₂ im ∧
      m₂ loadReg = .ofNat 32 rt ∧ m₂ loadValueReg = im.word (m rs + extra).toNat := by
  obtain ⟨next, first, second⟩ := mapped.words
  refine ⟨_, _, memoryInstruction_lwr first, memoryInstruction_lwl (im.word (((m rs + extra).toNat + 3) / 4 * 4)) ?_, ?_, ?_⟩
  · rw [settled.advanceLoad, ← BitVec.add_assoc]
    exact second
  · exact (advanceLoad_pending _ _ _ _).1
  · rw [(advanceLoad_pending _ _ _ _).2, pending_advanceLoad, settled.advanceLoad, ← BitVec.add_assoc, (toNat_align (m rs + extra)).1,
      (toNat_align (m rs + extra + 3)).1, next]
    exact loadLeft_loadRight im _ _

end load

section store

variable {im : Image} {m : Registers} {rs rt rd rd' : ℕ} {extra addr value : Word}

/-- The pages of the four bytes may be written. -/
def Image.Writable (im : Image) (v : ℕ) : Prop :=
  im.Mapped v ∧ im.readOnly (v / pageSize) = false ∧ im.readOnly ((v + 3) / pageSize) = false

theorem writeMem_word (aligned : addr.toNat % 4 = 0) (inside : addr.toNat / pageSize < im.numPages)
    (writable : im.readOnly (addr.toNat / pageSize) = false) :
    imageBus.writeMem im addr .word value = .ok (im.write addr.toNat 4 (byteOf value)) := by
  have free : im.check addr.toNat .word true = none := by
    unfold Image.check
    rw [if_neg (show ¬ addr.toNat % Size.word.bytes ≠ 0 from not_not.2 aligned), if_neg (Nat.not_le.2 inside), writable,
      if_neg (fun both => by cases both.1)]
  simp only [imageBus, free]
  rfl

/-- One of the two stores, at the word around an address. -/
theorem storeInto_word {merge : Word → Word} (inside : addr.toNat / pageSize < im.numPages)
    (writable : im.readOnly (addr.toNat / pageSize) = false) :
    imageBus.storeInto m im (addr - (addr &&& 3#32)) merge = .done (m.advance (m nextPCReg + 4))
      (im.write (addr.toNat / 4 * 4) 4 (byteOf (merge (im.word (addr.toNat / 4 * 4))))) := by
  have place := (toNat_align addr).2
  have page : addr.toNat / 4 * 4 / pageSize = addr.toNat / pageSize := by
    rw [page_eq]
    omega
  rw [← place] at page ⊢
  unfold Bus.storeInto
  rw [Image.readMem_word (by omega) (page ▸ inside)]
  dsimp only
  unfold Bus.store
  rw [writeMem_word (by omega) (page ▸ inside) (page ▸ writable)]

theorem bytes_write (im : Image) (v n : ℕ) (f : ℕ → Byte) (x : ℕ) :
    (im.write v n f).bytes x = if v ≤ x ∧ x < v + n then f (x - v) else im.bytes x := rfl

/-- The byte that `SWR` leaves at an address. -/
theorem bytes_storeRight (im : Image) (v : ℕ) (w : Word) (x : ℕ) :
    (im.write (v / 4 * 4) 4 (byteOf (storeRight (im.word (v / 4 * 4)) w (v % 4)))).bytes x =
      if v ≤ x ∧ x < v / 4 * 4 + 4 then byteOf w (x - v) else im.bytes x := by
  rw [bytes_write]
  by_cases hit : v / 4 * 4 ≤ x ∧ x < v / 4 * 4 + 4
  · rw [if_pos hit, byteOf_storeRight (by omega) (by omega)]
    by_cases left : x - v / 4 * 4 < v % 4
    · rw [if_pos left, if_neg (by omega), Image.byteOf_word im _ (by omega)]
      congr 1
      omega
    · rw [if_neg left, if_pos (by omega)]
      congr 1
      omega
  · rw [if_neg hit, if_neg (by omega)]

/-- The byte that `SWL` leaves at an address. -/
theorem bytes_storeLeft (im : Image) (v : ℕ) (w : Word) (x : ℕ) :
    (im.write (v / 4 * 4) 4 (byteOf (storeLeft (im.word (v / 4 * 4)) w (v % 4)))).bytes x =
      if v / 4 * 4 ≤ x ∧ x ≤ v then byteOf w (x + 3 - v) else im.bytes x := by
  rw [bytes_write]
  by_cases hit : v / 4 * 4 ≤ x ∧ x < v / 4 * 4 + 4
  · rw [if_pos hit, byteOf_storeLeft (by omega) (by omega)]
    by_cases left : x - v / 4 * 4 + (3 - v % 4) < 4
    · rw [if_pos left, if_pos (by omega)]
      congr 1
      omega
    · rw [if_neg left, if_neg (by omega), Image.byteOf_word im _ (by omega)]
      congr 1
      omega
  · rw [if_neg hit, if_neg (by omega)]

/-- The two stores take the word apart. -/
theorem storeLeft_storeRight (im : Image) (v : ℕ) (w : Word) {im₁ : Image}
    (first : im₁ = im.write (v / 4 * 4) 4 (byteOf (storeRight (im.word (v / 4 * 4)) w (v % 4)))) :
    im₁.write ((v + 3) / 4 * 4) 4 (byteOf (storeLeft (im₁.word ((v + 3) / 4 * 4)) w ((v + 3) % 4))) = im.write v 4 (byteOf w) := by
  apply Image.ext
  · subst first
    rfl
  · subst first
    rfl
  · funext x
    rw [bytes_storeLeft, bytes_write]
    by_cases second : (v + 3) / 4 * 4 ≤ x ∧ x ≤ v + 3
    · rw [if_pos second, if_pos (by omega)]
      congr 1
      omega
    · rw [if_neg second, first, bytes_storeRight]
      by_cases hit : v ≤ x ∧ x < v / 4 * 4 + 4
      · rw [if_pos hit, if_pos (by omega)]
      · rw [if_neg hit, if_neg (by omega)]

/-- **A word at any address is stored** by `SWR` and `SWL`: its four bytes change and no others. -/
theorem store_unaligned (rd rd' : ℕ) (base : Settled m rs) (source : Settled m rt) (writable : im.Writable (m rs + extra).toNat) :
    ∃ m₁ m₂ im₁, imageBus.memoryInstruction ⟨.swr, rs, rt, rd, extra⟩ m im = .done m₁ im₁ ∧
      imageBus.memoryInstruction ⟨.swl, rs, rt, rd', extra + 3⟩ m₁ im₁ =
        .done m₂ (im.write (m rs + extra).toNat 4 (byteOf (m rt))) ∧ m₂ rs = m rs ∧ Settled m₂ rs := by
  obtain ⟨⟨inside, short⟩, first, second⟩ := writable
  rw [page_eq] at inside
  have memory : numPhysPages = 128 := rfl
  have next : (m rs + extra + 3).toNat = (m rs + extra).toNat + 3 := by
    rw [BitVec.toNat_add, show (3 : Word).toNat = 3 from rfl]
    omega
  obtain ⟨same, base'⟩ := base.advance (m nextPCReg + 4)
  generalize addr : m rs + extra = A at *
  generalize after : m.advance (m nextPCReg + 4) = m₁ at same base'
  refine ⟨m₁, m₁.advance (m₁ nextPCReg + 4),
    im.write (A.toNat / 4 * 4) 4 (byteOf (storeRight (im.word (A.toNat / 4 * 4)) (m rt) (A.toNat % 4))), ?_, ?_,
    (base'.advance _).1.trans same, (base'.advance _).2⟩
  · simp only [Bus.memoryInstruction, addr]
    rw [storeInto_word (by rw [page_eq]; omega) first, (toNat_align A).1, after]
  · simp only [Bus.memoryInstruction]
    rw [same, ← after, (source.advance _).1, ← BitVec.add_assoc, addr, storeInto_word]
    · rw [(toNat_align (A + 3)).1, next]
      rw [storeLeft_storeRight im A.toNat (m rt) rfl]
    · rw [next, page_eq]
      exact inside
    · rw [next]
      exact second

end store

/-! ## On the machine -/

/-- Loads and stores one after the other, if none of them traps. -/
def Bus.runAll {μ : Type} (bus : Bus μ) : List Instruction → Registers → μ → Option (Registers × μ)
  | [], m, s => some (m, s)
  | instr :: rest, m, s =>
    match bus.memoryInstruction instr m s with
    | .done m s => bus.runAll rest m s
    | .exception _ _ _ | .trap | .assertion => none

theorem Bus.runAll_cons {μ : Type} {bus : Bus μ} {instr : Instruction} {m m' : Registers} {s s' : μ}
    (done : bus.memoryInstruction instr m s = .done m' s') (rest : List Instruction) :
    bus.runAll (instr :: rest) m s = bus.runAll rest m' s' := by
  simp only [Bus.runAll, done]

theorem Bus.Hom.runAll {μ ν : Type} {b : Bus μ} {c : Bus ν} {f : μ → ν} {P : μ → Prop} (h : b.Hom c f P) (instrs : List Instruction)
    {m : Registers} {s : μ} (hs : P s) : c.runAll instrs m (f s) = (b.runAll instrs m s).map (Prod.map id f) ∧
      ∀ r, b.runAll instrs m s = some r → P r.2 := by
  induction instrs generalizing m s with
  | nil =>
    refine ⟨rfl, fun r done => ?_⟩
    obtain rfl := Option.some.inj done
    exact hs
  | cons instr rest ih =>
    obtain ⟨alike, kept⟩ := h.memoryInstruction hs instr m
    unfold Bus.runAll
    rw [alike]
    cases ends : b.memoryInstruction instr m s with
    | done m' s' =>
      rw [ends] at kept
      exact ih kept
    | exception which m' s' => exact ⟨rfl, fun r impossible => by cases impossible⟩
    | trap | assertion => exact ⟨rfl, fun r impossible => by cases impossible⟩

section machine

variable {a : AddrSpace} {memory : Memory} {m m' : Registers} {rs rt rt' rd : ℕ} {extra : Word} {s : AddrSpace × Memory}
  {instrs : List Instruction} {im : Image}

/-- What the image shows, the machine does. -/
theorem runAll_machineBus (owner : Owner a) (kept : Kept a memory s) (run : imageBus.runAll instrs m (imageOf s.1 s.2) = some (m', im)) :
    ∃ r, machineBus.runAll instrs m s = some (m', r) ∧ imageOf r.1 r.2 = im ∧ Kept a memory r := by
  obtain ⟨same, kept'⟩ := (machineBus_hom owner memory).runAll instrs (m := m) kept
  rw [run] at same
  obtain ⟨⟨m₂, r⟩, done, eq⟩ := Option.map_eq_some_iff.1 same.symm
  obtain ⟨rfl, rfl⟩ := Prod.mk.inj eq
  exact ⟨r, done, rfl, kept' _ done⟩

/-- **`LWR` and `LWL` load any word** of the program, whatever frames its two pages are in. -/
theorem machine_loads_unaligned (rt rd : ℕ) (extra : Word) (owner : Owner a) (settled : Settled m rs) (mapped : (imageOf a memory).Mapped (m rs + extra).toNat) :
    ∃ m' r, machineBus.runAll [⟨.lwr, rs, rt, rd, extra⟩, ⟨.lwl, rs, rt, rd, extra + 3⟩] m (a, memory) = some (m', r) ∧
      m' loadReg = .ofNat 32 rt ∧ m' loadValueReg = (imageOf a memory).word (m rs + extra).toNat ∧
      imageOf r.1 r.2 = imageOf a memory := by
  obtain ⟨m₁, m₂, first, second, reg, value⟩ := load_unaligned rt rd rd settled mapped
  obtain ⟨r, run, image, -⟩ := runAll_machineBus owner (Kept.refl a memory)
    ((Bus.runAll_cons first [⟨.lwl, rs, rt, rd, extra + 3⟩]).trans (Bus.runAll_cons second []))
  exact ⟨m₂, r, run, reg, value, image⟩

/-- Two pages, in frames 5 and 2. -/
def twoPages : AddrSpace := ⟨[⟨0, 5, true, false, false, false⟩, ⟨1, 2, true, false, false, false⟩]⟩

theorem owner_twoPages : Owner twoPages := ⟨by unfold AddrSpace.Valid; decide, by decide, by decide⟩

def ramp : Memory := ⟨fun _ => false, fun x => .ofInt 8 x⟩

/-- Register 1 points to the last two bytes of the first page, register 2 has a value. -/
def pointing : Registers := fun r => if r = 1 then 126 else if r = 2 then 0x11223344 else 0

theorem settled_pointing : Settled pointing 1 ∧ Settled pointing 2 := by unfold Settled; decide

theorem writable_twoPages : (imageOf twoPages ramp).Writable (pointing 1 + 0).toNat := by
  refine ⟨⟨?_, ?_⟩, ?_, ?_⟩ <;> decide

/-- A word over the end of a page. -/
theorem machine_loads_unaligned_twoPages : ∃ m r,
    machineBus.runAll [⟨.lwr, 1, 3, 0, 0⟩, ⟨.lwl, 1, 3, 0, 0 + 3⟩] pointing (twoPages, ramp) = some (m, r) ∧ m loadValueReg = 0x0100fffe := by
  obtain ⟨m, r, run, -, value, -⟩ := machine_loads_unaligned 3 0 0 owner_twoPages settled_pointing.1 writable_twoPages.1
  exact ⟨m, r, run, value.trans (by decide)⟩

/-- The image after a store has the bytes of the word. -/
theorem word_write (im : Image) (v : ℕ) (w : Word) : (im.write v 4 (byteOf w)).word v = w := by
  apply word_ext
  intro j hj
  rw [Image.byteOf_word _ _ hj, bytes_write, if_pos (by omega), Nat.add_sub_cancel_left]

/-- **`SWR` and `SWL` store any word**: four bytes of the program's memory change, and `LWR` and `LWL` bring
the word back. -/
theorem machine_stores_unaligned (rt' rd : ℕ) (extra : Word) (owner : Owner a) (base : Settled m rs) (source : Settled m rt)
    (writable : (imageOf a memory).Writable (m rs + extra).toNat) :
    ∃ m₁ r₁ m₂ r₂, machineBus.runAll [⟨.swr, rs, rt, rd, extra⟩, ⟨.swl, rs, rt, rd, extra + 3⟩] m (a, memory) = some (m₁, r₁) ∧
      imageOf r₁.1 r₁.2 = (imageOf a memory).write (m rs + extra).toNat 4 (byteOf (m rt)) ∧
      machineBus.runAll [⟨.lwr, rs, rt', rd, extra⟩, ⟨.lwl, rs, rt', rd, extra + 3⟩] m₁ r₁ = some (m₂, r₂) ∧
      m₂ loadReg = .ofNat 32 rt' ∧ m₂ loadValueReg = m rt := by
  obtain ⟨m₁, m₂, im₁, first, second, same, settled⟩ := store_unaligned rd rd base source writable
  have stores := (Bus.runAll_cons first [⟨.swl, rs, rt, rd, extra + 3⟩]).trans (Bus.runAll_cons second [])
  have mapped : ((imageOf a memory).write (m rs + extra).toNat 4 (byteOf (m rt))).Mapped (m₂ rs + extra).toNat := by
    rw [same]
    exact writable.1
  obtain ⟨m₃, m₄, third, fourth, reg, value⟩ := load_unaligned rt' rd rd settled mapped
  have loads := (Bus.runAll_cons third [⟨.lwl, rs, rt', rd, extra + 3⟩]).trans (Bus.runAll_cons fourth [])
  obtain ⟨r₁, done, image, kept⟩ := runAll_machineBus owner (Kept.refl a memory) stores
  obtain ⟨r₂, done', -, -⟩ := runAll_machineBus owner kept (image ▸ loads)
  refine ⟨m₂, r₁, m₄, r₂, done, image, done', reg, ?_⟩
  rw [value, same]
  exact word_write _ _ _

theorem machine_stores_unaligned_twoPages : ∃ m₁ r₁ m₂ r₂,
    machineBus.runAll [⟨.swr, 1, 2, 0, 0⟩, ⟨.swl, 1, 2, 0, 0 + 3⟩] pointing (twoPages, ramp) = some (m₁, r₁) ∧
      machineBus.runAll [⟨.lwr, 1, 3, 0, 0⟩, ⟨.lwl, 1, 3, 0, 0 + 3⟩] m₁ r₁ = some (m₂, r₂) ∧ m₂ loadValueReg = 0x11223344 := by
  obtain ⟨m₁, r₁, m₂, r₂, stores, -, loads, -, value⟩ :=
    machine_stores_unaligned 3 0 0 owner_twoPages settled_pointing.1 settled_pointing.2 writable_twoPages
  exact ⟨m₁, r₁, m₂, r₂, stores, loads, value⟩

end machine

end Nachos.User
