import Nachos.Base.Interleaving
import Nachos.Mp2.Lifecycle
import Nachos.User.Image

/-!
# Programs on one processor

The registers of the machine and its page table register, `Thread::SaveUserState` and `RestoreUserState`,
`AddrSpace::Execute` and `RestoreState`, the traps into `ExceptionHandler` and its returns, over
the life of the user threads. The instructions of a program go on between any two of these.
-/

namespace Nachos.User
open Bytes Transition Nachos.Mp2 Nachos.Mp3

def scExit : Word := 1
def scCreate : Word := 4
def scOpen : Word := 6
def scRead : Word := 7
def scWrite : Word := 8
def scClose : Word := 10
def scPrintInt : Word := 16
def scAdd : Word := 42

def stackReg : ℕ := 29

/-- `AddrSpace::InitRegisters`. -/
def initRegisters (numPages : ℕ) : Registers :=
  let m : Registers := fun _ => 0
  let m := m.set pcReg 0
  let m := m.set nextPCReg 4
  m.set stackReg (.ofNat 32 (numPages * pageSize) - 16)

/-- The program counters behind a system call. -/
def advancePC (m : Registers) : Registers :=
  let m := m.set prevPCReg (m pcReg)
  let m := m.set pcReg (m pcReg + 4)
  m.set nextPCReg (m pcReg + 4)

/-- How `ExceptionHandler` returns to the program, where it does: `status` is the answer of `SysCreate`, `SysOpen`,
`SysRead`, `SysWrite` or `SysClose`. -/
def handlerReturn (m : Registers) (status : Word) : Option Registers :=
  let type := m 2
  if type = scPrintInt then some (advancePC m)
  else if type = scCreate ∨ type = scOpen ∨ type = scRead ∨ type = scWrite ∨ type = scClose then
    some (advancePC (m.set 2 status))
  else if type = scAdd then some (advancePC (m.set 2 (m 4 + m 5)))
  else none

/-- The kernel with the registers of the machine. -/
structure Machine where
  kernel : Mp2.Kernel
  registers : Registers
  /-- The program whose page table `pageTable` points to. -/
  pageTable : Option ℕ
  userRegisters : ℕ → Registers
  /-- The exception that `ExceptionHandler` is at. -/
  trapped : ℕ → Option Mp3.ExceptionType
  /-- `SWITCH` went to `ThreadRoot`. -/
  fresh : Bool
  /-- `ExceptionHandler` came to its `ASSERTNOTREACHED`. -/
  stopped : Bool

/-- A step of the life of the threads, or one of the running program and its system calls. -/
inductive MachineEvent where
  | life (e : Mp2.Event)
  | instruction
  /-- `ExceptionHandler` returns. -/
  | answer (status : Word)
  /-- The host fills the buffer of `SC_Read`. -/
  | fill (addr : Word) (bytes : List Byte)

namespace Machine

/-- `SaveUserState`, for a thread with an address space. -/
def saveUserState (s : Machine) : Machine :=
  match s.kernel.currentThread with
  | .exec i => { s with userRegisters := Function.update s.userRegisters i s.registers }
  | .main | .postal => s

/-- `RestoreUserState` and `RestoreState`, for a thread with an address space. -/
def restoreUserState (s : Machine) : Machine :=
  match s.kernel.currentThread with
  | .exec i => { s with registers := s.userRegisters i, pageTable := some i }
  | .main | .postal => s

/-- `Scheduler::Run` up to `SWITCH`, if the step has come to it. -/
def switch (s : Machine) (k : Mp2.Kernel) : Machine :=
  if k.phase = .switched then
    { s.saveUserState with kernel := k, fresh := decide (s.kernel.place k.currentThread = .forked) }
  else { s with kernel := k }

/-- Behind `SWITCH`: a thread that was switched away from restores its state, a new one is in `Begin`. -/
def switched (s : Machine) (k : Mp2.Kernel) : Machine :=
  if s.fresh then { s with kernel := k, fresh := false } else ({ s with kernel := k } : Machine).restoreUserState

/-- `Execute`, up to the loop of `Machine::Run`. -/
def execute (s : Machine) (i : ℕ) : Machine :=
  match s.kernel.spaces.space i with
  | none => s
  | some a => { s with registers := initRegisters a.numPages, pageTable := some i }

/-- If a program runs, it is in a system call of the given type. -/
def calls (s : Machine) (type : Word) : Bool :=
  match s.kernel.currentThread with
  | .exec i => s.kernel.place (.exec i) ≠ .running ∨ s.trapped i = some .syscallException ∧ s.registers 2 = type
  | .main | .postal => true

def life (s : Machine) (e : Mp2.Event) : Option Machine :=
  match e with
  | .exec | .begin | .wake _ => (s.kernel.step e).map fun k => { s with kernel := k }
  | .load _ => (s.kernel.step e).map fun k =>
    match k.currentThread with
    | .exec i => ({ s with kernel := k } : Machine).execute i
    | .main | .postal => { s with kernel := k }
  | .access _ => none
  | .yield | .dispatch => (s.kernel.step e).map s.switch
  -- `PrintInt` waits for the console
  | .block => if s.calls scPrintInt then (s.kernel.step e).map fun k => { s with kernel := k } else none
  | .finish => if s.calls scExit then (s.kernel.step e).map fun k => { s with kernel := k } else none
  | .check => (s.kernel.step e).map s.switched

/-- Memory and page table after an instruction. -/
def withSpace (s : Machine) (j : ℕ) (r : AddrSpace × Memory) : Machine :=
  { s with kernel := { s.kernel with spaces := s.kernel.spaces.put r.2 j (some r.1) } }

/-- `OneInstruction` of program `i`, through the page table register. An exception that is no system
call ends the run. -/
def instruction (s : Machine) (i : ℕ) : Option Machine := do
  let j ← s.pageTable
  let a ← s.kernel.spaces.space j
  match machineBus.oneInstruction s.registers (a, s.kernel.spaces.memory) with
  | .done m r => some { s.withSpace j r with registers := m }
  | .exception which m r =>
    some { s.withSpace j r with
      registers := m
      trapped := Function.update s.trapped i (some which)
      stopped := which ≠ .syscallException }
  | .trap | .assertion => none

/-- The return of `ExceptionHandler` to program `i`. -/
def answer (s : Machine) (i : ℕ) (status : Word) : Option Machine :=
  (handlerReturn s.registers status).map fun m => { s with registers := m, trapped := Function.update s.trapped i none }

def fill (s : Machine) (addr : Word) (bytes : List Byte) : Machine :=
  { s with kernel := { s.kernel with spaces := s.kernel.spaces.store addr.toInt bytes } }

/-- The program that runs, in its own code or in a system call. -/
def running (s : Machine) : Option ℕ :=
  match s.kernel.currentThread with
  | .exec i => if s.kernel.halted = false ∧ s.kernel.At .running then some i else none
  | .main | .postal => none

def step (s : Machine) (e : MachineEvent) : Option Machine :=
  if s.stopped then none
  else match e with
    | .life e => s.life e
    | .instruction => do
      let i ← s.running
      if s.trapped i = none then s.instruction i else none
    | .answer status => do
      let i ← s.running
      if s.trapped i = some .syscallException then s.answer i status else none
    | .fill addr bytes => do
      let i ← s.running
      if s.trapped i = some .syscallException ∧ s.registers 2 = scRead ∧ s.registers 4 = addr then some (s.fill addr bytes)
      else none

/-- The machine before `ExecAll`. -/
def initial (execfileNum : ℕ) (execExit : Bool) (memory : Memory) : Machine where
  kernel := .initial execfileNum execExit ⟨memory, fun _ => none⟩
  registers := fun _ => 0
  pageTable := none
  userRegisters := fun _ _ => 0
  trapped := fun _ => none
  fresh := false
  stopped := false

end Machine

/-- The runs of the machine from an all-free frame table. -/
def machine (execExit : Bool) : System Machine MachineEvent where
  init s := ∃ n memory, s = .initial n execExit memory ∧ memory.frameTableStatus = fun _ => false
  step s e s' := s.step e = some s'

/-! ## A program by itself -/

/-- A program with its registers and its memory. -/
structure Process where
  registers : Registers
  image : Image
  trapped : Option Mp3.ExceptionType

/-- What happens to a program. -/
inductive ProcessEvent where
  | start (exe : Option Executable)
  | instruction
  | answer (status : Word)
  | fill (addr : Word) (bytes : List Byte)

/-- The byte that a program has at a virtual address at its start. -/
def startByte (exe : Executable) (v : ℕ) : Byte :=
  match exe.header.segments.find? fun seg => seg.virtualAddr.toNat ≤ v ∧ v < seg.virtualAddr.toNat + seg.size.toNat with
  | some seg => exe.file.getD (seg.inFileAddr.toNat + (v - seg.virtualAddr.toNat)) 0
  | none => 0

instance (seg : Segment) (p : ℕ) : Decidable (AddrSpace.Marks seg p) := inferInstanceAs (Decidable (_ ∧ _))

/-- The memory of a program at its start: its segments, and zeros. -/
def startImage (exe : Executable) : Image where
  numPages := exe.header.numPages
  readOnly p := decide (AddrSpace.Marks exe.header.readonlyData p)
  bytes v := if v / pageSize < exe.header.numPages then startByte exe v else 0

theorem startImage_of_lt {exe : Executable} {v : ℕ} (inside : v / pageSize < exe.header.numPages) :
    (startImage exe).bytes v = startByte exe v := by
  simp only [startImage, if_pos inside]

theorem startImage_of_not_lt {exe : Executable} {v : ℕ} (outside : ¬ v / pageSize < exe.header.numPages) :
    (startImage exe).bytes v = 0 := by
  simp only [startImage, if_neg outside]

namespace Process

/-- A program at its start. -/
def initial (exe : Executable) : Process := ⟨initRegisters exe.header.numPages, startImage exe, none⟩

/-- An instruction of a program that has the processor and the memory to itself. -/
def instruction (p : Process) : Option Process :=
  match imageBus.oneInstruction p.registers p.image with
  | .done m im => some ⟨m, im, none⟩
  | .exception which m im => some ⟨m, im, some which⟩
  | .trap | .assertion => none

def step (p : Option Process) (e : ProcessEvent) : Option (Option Process) :=
  match p, e with
  | none, .start exe => some (exe.map initial)
  | some p, .instruction => if p.trapped = none then p.instruction.map some else none
  | some p, .answer status =>
    if p.trapped = some .syscallException then (handlerReturn p.registers status).map fun m => some ⟨m, p.image, none⟩ else none
  | some p, .fill addr bytes =>
    if p.trapped = some .syscallException ∧ p.registers 2 = scRead ∧ p.registers 4 = addr then
      some (some { p with image := p.image.write addr.toNat bytes.length fun i => bytes.getD i 0 })
    else none
  | _, _ => none

end Process

end Nachos.User
