import Mathlib.Data.Int.Notation
import Mathlib.Data.List.Basic
import Mathlib.Logic.Function.Basic
import Nachos.Base.Bytes

/-!
# Address spaces

`userprog/addrspace.cc`, `machine/translate.cc` and `Kernel::Find_Frame`, the same in MP2 and
MP3. A call of `Load` runs without a context switch. `none` is a call that does not return: an
`ASSERT` fails, or `ExceptionHandler` is called with an exception of the program, which ends
in `ASSERTNOTREACHED`.
-/

namespace Nachos.Mp2
open Bytes

def pageSize : ℕ := 128
def numPhysPages : ℕ := 128
def memorySize : ℕ := numPhysPages * pageSize
def userStackSize : Word := 1024
def noffMagic : Word := 0xbadfad

def divRoundUp (n s : ℕ) : ℕ := n / s + if n % s > 0 then 1 else 0

/-- The exceptions of a translation. -/
inductive ExceptionType where
  | pageFault
  | readOnly
  | busError
  | addressError
  deriving DecidableEq

structure TranslationEntry where
  virtualPage : ℕ
  physicalPage : ℕ
  valid : Bool
  readOnly : Bool
  use : Bool
  dirty : Bool

/-- `mainMemory` is addressed from the start of the array; the cells from 0 to `memorySize` are
those of the array, and the others the memory around it. -/
structure Memory where
  frameTableStatus : ℕ → Bool
  mainMemory : ℤ → Byte

/-- A loaded address space. -/
structure AddrSpace where
  pageTable : List TranslationEntry

structure Segment where
  virtualAddr : Word
  inFileAddr : Word
  size : Word

structure NoffHeader where
  noffMagic : Word
  code : Segment
  initData : Segment
  readonlyData : Segment
  uninitData : Segment

/-- A file that `Open` has opened, and the header as `Load` holds it after `SwapHeader`. -/
structure Executable where
  header : NoffHeader
  file : List Byte

namespace Memory

/-- The first free frame. -/
def findFrame (m : Memory) : Option (ℕ × Memory) :=
  match (List.range numPhysPages).find? fun i => m.frameTableStatus i = false with
  | some i => some (i, { m with frameTableStatus := Function.update m.frameTableStatus i true })
  | none => none

/-- Bytes are stored from an address on. -/
def store (m : Memory) (addr : ℤ) (bytes : List Byte) : Memory where
  frameTableStatus := m.frameTableStatus
  mainMemory a := if addr ≤ a ∧ a < addr + bytes.length then bytes.getD (a - addr).toNat 0 else m.mainMemory a

/-- `bzero` on a frame. -/
def bzero (m : Memory) (frame : ℕ) : Memory := m.store (frame * pageSize) (List.replicate pageSize 0)

/-- `ReadAt`: what the file has of the `numBytes` bytes from `position` on. `Lseek` fails on a
negative position. -/
def readAt (m : Memory) (file : List Byte) (into : ℕ) (numBytes : ℕ) (position : ℤ) : Option Memory :=
  if position < 0 then none
  else some (m.store into ((file.drop position.toNat).take numBytes))

/-- The loop of `Load` over the pages from `i` on. -/
def buildPages (m : Memory) : ℕ → ℕ → Option (List TranslationEntry × Memory)
  | 0, _ => some ([], m)
  | n + 1, i => do
    let (frame, m) ← m.findFrame
    let (table, m) ← (m.bzero frame).buildPages n (i + 1)
    return (⟨i, frame, true, false, false, false⟩ :: table, m)

end Memory

namespace AddrSpace

def numPages (s : AddrSpace) : ℕ := s.pageTable.length

def modify (s : AddrSpace) (vpn : ℕ) (f : TranslationEntry → TranslationEntry) : AddrSpace := ⟨s.pageTable.modify vpn f⟩

/-- The use and dirty bits of an access. -/
def touch (s : AddrSpace) (vpn : ℕ) (writing : Bool) : AddrSpace :=
  s.modify vpn fun e => { e with use := true, dirty := e.dirty || writing }

/-- `AddrSpace::Translate`, which does not look at the valid bit. -/
def translate (s : AddrSpace) (vaddr : ℕ) (isReadWrite : Bool) : Except ExceptionType (ℕ × AddrSpace) :=
  match s.pageTable[vaddr / pageSize]? with
  | none => .error .addressError
  | some pte =>
    if isReadWrite ∧ pte.readOnly then .error .readOnly
    else if numPhysPages ≤ pte.physicalPage then .error .busError
    else .ok (pte.physicalPage * pageSize + vaddr % pageSize, s.touch (vaddr / pageSize) isReadWrite)

/-- `Machine::Translate`, the path of the instructions of a program. -/
def machineTranslate (s : AddrSpace) (virtAddr size : ℕ) (writing : Bool) : Except ExceptionType (ℕ × AddrSpace) :=
  if (size = 4 ∧ virtAddr % 4 ≠ 0) ∨ (size = 2 ∧ virtAddr % 2 ≠ 0) then .error .addressError
  else match s.pageTable[virtAddr / pageSize]? with
    | none => .error .addressError
    | some entry =>
      if ¬ entry.valid then .error .pageFault
      else if entry.readOnly ∧ writing then .error .readOnly
      else if numPhysPages ≤ entry.physicalPage then .error .busError
      else .ok (entry.physicalPage * pageSize + virtAddr % pageSize, s.touch (virtAddr / pageSize) writing)

/-- `ReadMem`: the value, and the table with its use bit. A single byte is a `char`. -/
def readMem (s : AddrSpace) (m : Memory) (addr size : ℕ) : Option (Word × AddrSpace) :=
  match s.machineTranslate addr size false with
  | .error _ => none
  | .ok (p, s) =>
    if size = 1 then some ((m.mainMemory p).signExtend 32, s)
    else if size = 2 then some (wordOf (m.mainMemory p) (m.mainMemory (p + 1)) 0 0, s)
    else if size = 4 then
      some (wordOf (m.mainMemory p) (m.mainMemory (p + 1)) (m.mainMemory (p + 2)) (m.mainMemory (p + 3)), s)
    else none

/-- `WriteMem`. -/
def writeMem (s : AddrSpace) (m : Memory) (addr size : ℕ) (value : Word) : Option (AddrSpace × Memory) :=
  match s.machineTranslate addr size true with
  | .error _ => none
  | .ok (p, s) =>
    if size = 1 ∨ size = 2 ∨ size = 4 then some (s, m.store p (tabulate size (byteOf value))) else none

/-- The pieces of a segment from number `i` on, each of a page except the last. -/
def copyPieces (file : List Byte) (seg : Segment) : ℕ → ℕ → AddrSpace → Memory → Option (AddrSpace × Memory)
  | 0, _, s, m => some (s, m)
  | n + 1, i, s, m =>
    let cur : Word := BitVec.ofNat 32 (pageSize * i)
    match s.translate (seg.virtualAddr + cur).toNat false with
    | .error _ => none
    | .ok (physAddr, s) =>
      let loadSize := if n = 0 then seg.size.toNat - i * pageSize else pageSize
      match m.readAt file physAddr loadSize (seg.inFileAddr + cur).toInt with
      | none => none
      | some m => copyPieces file seg n (i + 1) s m

def pageAmount (seg : Segment) : ℕ := divRoundUp seg.size.toNat pageSize

def copySegment (file : List Byte) (seg : Segment) (s : AddrSpace) (m : Memory) : Option (AddrSpace × Memory) :=
  if 0 < seg.size.toInt then copyPieces file seg (pageAmount seg) 0 s m else some (s, m)

/-- The loop that sets the read-only bits. A page number outside the table is a write outside the
array, and the loop that follows fails on that page. -/
def markReadOnly (seg : Segment) : ℕ → ℕ → AddrSpace → Option AddrSpace
  | 0, _, s => some s
  | n + 1, i, s =>
    let pageNum : ℤ := seg.virtualAddr.toInt.tdiv pageSize + i
    if 0 ≤ pageNum ∧ pageNum < s.numPages then
      markReadOnly seg n (i + 1) (s.modify pageNum.toNat fun e => { e with readOnly := true })
    else none

def markSegment (seg : Segment) (s : AddrSpace) : Option AddrSpace :=
  if 0 < seg.size.toInt then markReadOnly seg (pageAmount seg) 0 s else some s

end AddrSpace

/-- How big is the address space, with `RDATA`. -/
def NoffHeader.size (h : NoffHeader) : Word :=
  h.code.size + h.readonlyData.size + h.initData.size + h.uninitData.size + userStackSize

def NoffHeader.numPages (h : NoffHeader) : ℕ := divRoundUp h.size.toNat pageSize

namespace AddrSpace

/-- The segments of a program are copied in. -/
def copySegments (exe : Executable) (s : AddrSpace) (m : Memory) : Option (AddrSpace × Memory) := do
  let (s, m) ← copySegment exe.file exe.header.code s m
  let (s, m) ← copySegment exe.file exe.header.initData s m
  let s ← markSegment exe.header.readonlyData s
  copySegment exe.file exe.header.readonlyData s m

/-- `Load` on a fresh address space. It returns FALSE when the file cannot be opened. -/
def load (m : Memory) : Option Executable → Option (Option AddrSpace × Memory)
  | none => some (none, m)
  | some exe =>
    if exe.header.noffMagic ≠ noffMagic then none
    else if numPhysPages < exe.header.numPages then none
    else do
      let (table, m) ← m.buildPages exe.header.numPages 0
      let (s, m) ← copySegments exe ⟨table⟩ m
      return (some s, m)

/-- The destructor's walk over the table. -/
def free (s : AddrSpace) (m : Memory) : Memory where
  frameTableStatus := s.pageTable.foldl
    (fun status e => if e.valid then Function.update status e.physicalPage false else status) m.frameTableStatus
  mainMemory := m.mainMemory

end AddrSpace

end Nachos.Mp2
