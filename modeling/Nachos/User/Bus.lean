import Nachos.Base.Bytes
import Nachos.Mp3.Instruction

/-!
# Instructions that access the memory

`Machine::OneInstruction` of `machine/mipssim.cc` with its fetch, its loads and its stores, built with
`SIM_FIX` for a little-endian host. `ReadMem` and `WriteMem` are those of a bus, so that one definition
runs on main memory behind a page table and on the memory a program believes it has.
-/

namespace Nachos.User
open Bytes Nachos.Mp3

/-- The sizes of an access: 1, 2 or 4 bytes. -/
inductive Size where
  | byte
  | half
  | word
  deriving DecidableEq

def Size.bytes : Size → ℕ
  | .byte => 1
  | .half => 2
  | .word => 4

/-- The value of an access from its bytes. A single byte is a `char`. -/
def Size.value (f : ℕ → Byte) : Size → Word
  | .byte => (f 0).signExtend 32
  | .half => wordOf (f 0) (f 1) 0 0
  | .word => wordOf (f 0) (f 1) (f 2) (f 3)

theorem Size.value_congr {f g : ℕ → Byte} {size : Size} (same : ∀ j < size.bytes, f j = g j) : size.value f = size.value g := by
  cases size with
  | byte => rw [value, value, same 0 (by decide)]
  | half => rw [value, value, same 0 (by decide), same 1 (by decide)]
  | word => rw [value, value, same 0 (by decide), same 1 (by decide), same 2 (by decide), same 3 (by decide)]

/-- `ReadMem` and `WriteMem`, with the exception of an access that fails. -/
structure Bus (μ : Type) where
  readMem : μ → Word → Size → Except ExceptionType (Word × μ)
  writeMem : μ → Word → Size → Word → Except ExceptionType μ

/-- How an instruction ends. -/
inductive Ends (μ : Type) where
  | done (m : Registers) (s : μ)
  /-- The kernel is called. -/
  | exception (which : ExceptionType) (m : Registers) (s : μ)
  /-- A division traps on the host. -/
  | trap
  | assertion

/-- The end of `OneInstruction` behind a load. -/
def advanceLoad (m : Registers) (nextLoadReg : ℕ) (nextLoadValue pcAfter : Word) : Registers :=
  let m := m.delayedLoad nextLoadReg nextLoadValue
  let m := m.set prevPCReg (m pcReg)
  let m := m.set pcReg (m nextPCReg)
  m.set nextPCReg pcAfter

/-- `LWL`: the bytes up to byte number `byte` of the word in memory come to the left. -/
def loadLeft (nextLoadValue value : Word) (byte : ℕ) : Word :=
  match 3 - byte with
  | 0 => value
  | 1 => (nextLoadValue &&& 0xff#32) ||| (value <<< 8)
  | 2 => (nextLoadValue &&& 0xffff#32) ||| (value <<< 16)
  | _ => (nextLoadValue &&& 0xffffff#32) ||| (value <<< 24)

/-- `LWR`: the bytes from number `byte` on come to the right. -/
def loadRight (nextLoadValue value : Word) (byte : ℕ) : Word :=
  match 3 - byte with
  | 0 => (nextLoadValue &&& 0xffffff00#32) ||| ((value.sshiftRight 24) &&& 0xff#32)
  | 1 => (nextLoadValue &&& 0xffff0000#32) ||| ((value.sshiftRight 16) &&& 0xffff#32)
  | 2 => (nextLoadValue &&& 0xff000000#32) ||| ((value.sshiftRight 8) &&& 0xffffff#32)
  | _ => value

/-- `SWL`: the left bytes of the register go to the bytes up to number `byte`. -/
def storeLeft (value rt : Word) (byte : ℕ) : Word :=
  match 3 - byte with
  | 0 => rt
  | 1 => (value &&& 0xff000000#32) ||| ((rt.sshiftRight 8) &&& 0xffffff#32)
  | 2 => (value &&& 0xffff0000#32) ||| ((rt.sshiftRight 16) &&& 0xffff#32)
  | _ => (value &&& 0xffffff00#32) ||| ((rt.sshiftRight 24) &&& 0xff#32)

/-- `SWR`: the right bytes of the register go to the bytes from number `byte` on. -/
def storeRight (value rt : Word) (byte : ℕ) : Word :=
  match 3 - byte with
  | 0 => (value &&& 0xffffff#32) ||| (rt <<< 24)
  | 1 => (value &&& 0xffff#32) ||| (rt <<< 16)
  | 2 => (value &&& 0xff#32) ||| (rt <<< 8)
  | _ => rt

namespace Bus

variable {μ : Type}

/-- A load: what has been read goes to `rt` one instruction later. -/
def load (bus : Bus μ) (instr : Instruction) (m : Registers) (s : μ) (addr : Word) (size : Size) (merge : Word → Word) : Ends μ :=
  match bus.readMem s addr size with
  | .error e => .exception e (m.raiseException addr) s
  | .ok (value, s) => .done (advanceLoad m instr.rt (merge value) (m nextPCReg + 4)) s

def store (bus : Bus μ) (m : Registers) (s : μ) (addr : Word) (size : Size) (value : Word) : Ends μ :=
  match bus.writeMem s addr size value with
  | .error e => .exception e (m.raiseException addr) s
  | .ok s => .done (m.advance (m nextPCReg + 4)) s

/-- `SWL` and `SWR` read the word that they store into. -/
def storeInto (bus : Bus μ) (m : Registers) (s : μ) (addr : Word) (merge : Word → Word) : Ends μ :=
  match bus.readMem s addr .word with
  | .error e => .exception e (m.raiseException addr) s
  | .ok (value, s) => bus.store m s addr .word (merge value)

/-- The cases of `OneInstruction` with `ReadMem` or `WriteMem`. -/
def memoryInstruction (bus : Bus μ) (instr : Instruction) (m : Registers) (s : μ) : Ends μ :=
  let rt := m instr.rt
  let tmp := m instr.rs + instr.extra
  let byte := tmp &&& 3#32
  -- a load on its way to `rt` counts
  let pending := if m loadReg = .ofNat 32 instr.rt then m loadValueReg else rt
  match instr.opCode with
  | .lb => bus.load instr m s tmp .byte fun value =>
    if value &&& 0x80#32 ≠ 0 then value ||| 0xffffff00#32 else value &&& 0xff#32
  | .lbu => bus.load instr m s tmp .byte fun value => value &&& 0xff#32
  | .lh =>
    if tmp &&& 1#32 ≠ 0 then .exception .addressErrorException (m.raiseException tmp) s
    else bus.load instr m s tmp .half fun value =>
      if value &&& 0x8000#32 ≠ 0 then value ||| 0xffff0000#32 else value &&& 0xffff#32
  | .lhu =>
    if tmp &&& 1#32 ≠ 0 then .exception .addressErrorException (m.raiseException tmp) s
    else bus.load instr m s tmp .half fun value => value &&& 0xffff#32
  | .lw =>
    if tmp &&& 3#32 ≠ 0 then .exception .addressErrorException (m.raiseException tmp) s
    else bus.load instr m s tmp .word fun value => value
  | .lwl => bus.load instr m s (tmp - byte) .word fun value => loadLeft pending value byte.toNat
  | .lwr => bus.load instr m s (tmp - byte) .word fun value => loadRight pending value byte.toNat
  | .sb => bus.store m s tmp .byte rt
  | .sh => bus.store m s tmp .half rt
  | .sw => bus.store m s tmp .word rt
  | .swl => bus.storeInto m s (tmp - byte) fun value => storeLeft value rt byte.toNat
  | .swr => bus.storeInto m s (tmp - byte) fun value => storeRight value rt byte.toNat
  | _ => .assertion

/-- `Machine::OneInstruction` on the word that was fetched. -/
def execute (bus : Bus μ) (raw : Word) (m : Registers) (s : μ) : Ends μ :=
  match Mp3.oneInstruction raw m with
  | .done m => .done m s
  | .exception which m => .exception which m s
  | .trap => .trap
  | .assertion => .assertion
  | .memory => bus.memoryInstruction (decode raw) m s

/-- `Machine::OneInstruction`. -/
def oneInstruction (bus : Bus μ) (m : Registers) (s : μ) : Ends μ :=
  match bus.readMem s (m pcReg) .word with
  | .error e => .exception e (m.raiseException (m pcReg)) s
  | .ok (raw, s) => bus.execute raw m s

end Bus

/-! ## Two memories that cannot be told apart -/

namespace Ends

variable {μ ν : Type}

def map (f : μ → ν) : Ends μ → Ends ν
  | .done m s => .done m (f s)
  | .exception which m s => .exception which m (f s)
  | .trap => .trap
  | .assertion => .assertion

/-- The memory an instruction leaves. -/
def All (P : μ → Prop) : Ends μ → Prop
  | .done _ s | .exception _ _ s => P s
  | .trap | .assertion => True

end Ends

/-- Seen through `f`, the bus `b` answers like `c`, and keeps `P`. -/
structure Bus.Hom {μ ν : Type} (b : Bus μ) (c : Bus ν) (f : μ → ν) (P : μ → Prop) : Prop where
  read : ∀ s addr size, P s → c.readMem (f s) addr size = (b.readMem s addr size).map (Prod.map id f)
  write : ∀ s addr size value, P s → c.writeMem (f s) addr size value = (b.writeMem s addr size value).map f
  read_kept : ∀ s addr size value s', P s → b.readMem s addr size = .ok (value, s') → P s'
  write_kept : ∀ s addr size value s', P s → b.writeMem s addr size value = .ok s' → P s'

namespace Bus.Hom

variable {μ ν : Type} {b : Bus μ} {c : Bus ν} {f : μ → ν} {P : μ → Prop} (h : b.Hom c f P) {s : μ}

/-- The two memories end an instruction alike. -/
def Alike (f : μ → ν) (P : μ → Prop) (o : Ends μ) (o' : Ends ν) : Prop := o' = o.map f ∧ o.All P

include h

theorem load (hs : P s) (instr : Instruction) (m : Registers) (addr : Word) (size : Size) (merge : Word → Word) :
    Alike f P (b.load instr m s addr size merge) (c.load instr m (f s) addr size merge) := by
  unfold Bus.load
  rw [h.read s addr size hs]
  cases read : b.readMem s addr size with
  | error e => exact ⟨rfl, hs⟩
  | ok r => exact ⟨rfl, h.read_kept s addr size r.1 r.2 hs read⟩

theorem store (hs : P s) (m : Registers) (addr : Word) (size : Size) (value : Word) :
    Alike f P (b.store m s addr size value) (c.store m (f s) addr size value) := by
  unfold Bus.store
  rw [h.write s addr size value hs]
  cases write : b.writeMem s addr size value with
  | error e => exact ⟨rfl, hs⟩
  | ok s' => exact ⟨rfl, h.write_kept s addr size value s' hs write⟩

theorem storeInto (hs : P s) (m : Registers) (addr : Word) (merge : Word → Word) :
    Alike f P (b.storeInto m s addr merge) (c.storeInto m (f s) addr merge) := by
  unfold Bus.storeInto
  rw [h.read s addr .word hs]
  cases read : b.readMem s addr .word with
  | error e => exact ⟨rfl, hs⟩
  | ok r => exact h.store (h.read_kept s addr .word r.1 r.2 hs read) m addr .word (merge r.1)

theorem memoryInstruction (hs : P s) (instr : Instruction) (m : Registers) :
    Alike f P (b.memoryInstruction instr m s) (c.memoryInstruction instr m (f s)) := by
  unfold Bus.memoryInstruction
  dsimp only
  cases instr.opCode with
  | lb | lbu | lwl | lwr => exact h.load hs ..
  | lh | lhu | lw =>
    dsimp only
    split
    · exact ⟨rfl, hs⟩
    · exact h.load hs ..
  | sb | sh | sw => exact h.store hs ..
  | swl | swr => exact h.storeInto hs ..
  | _ => exact ⟨rfl, trivial⟩

/-- **An instruction cannot tell the memories apart.** -/
theorem oneInstruction (hs : P s) (m : Registers) : Alike f P (b.oneInstruction m s) (c.oneInstruction m (f s)) := by
  unfold Bus.oneInstruction
  rw [h.read s _ .word hs]
  cases read : b.readMem s (m pcReg) .word with
  | error e => exact ⟨rfl, hs⟩
  | ok r =>
    have kept := h.read_kept s _ .word r.1 r.2 hs read
    change Alike f P (b.execute r.1 m r.2) (c.execute r.1 m (f r.2))
    unfold Bus.execute
    cases Mp3.oneInstruction r.1 m with
    | done m => exact ⟨rfl, kept⟩
    | exception which m => exact ⟨rfl, kept⟩
    | trap | assertion => exact ⟨rfl, trivial⟩
    | memory => exact h.memoryInstruction kept _ m

end Bus.Hom

end Nachos.User
