import Mathlib.Logic.Function.Basic
import Nachos.Base.Bytes
import Nachos.Base.Transition

/-!
# The simulated disk

`Disk::ReadRequest` and `Disk::WriteRequest` (`machine/disk.cc`) seen through
`SynchDisk`, which waits for the request to complete: one whole sector is read or
written, and a sector number outside the disk fails the `ASSERT`. A fault stands for the
ways a call ends without returning: `ASSERT` calls `Abort`, and the others are the
undefined operations the code can run into.
-/

namespace Nachos.Mp4
open Bytes

/-- How a call can end without returning. -/
inductive Fault where
  /-- An `ASSERT` failed. -/
  | assertion
  /-- An array index outside its array. -/
  | outOfBounds
  /-- `NULL` was dereferenced. -/
  | nullPointer
  /-- A string function ran over a buffer in which no terminator was stored. -/
  | unterminated
  /-- `new char[n]` with a negative `n`. -/
  | badAlloc
  /-- Unbounded recursion. -/
  | diverges
  deriving DecidableEq, Repr

abbrev Exec := Except Fault

@[simp] theorem ok_bind {α β : Type} (a : α) (f : α → Exec β) : ((.ok a : Exec α) >>= f) = f a := rfl

def sectorSize : Nat := 128
def sectorsPerTrack : Nat := 16384
def numTracks : Nat := 32

/-- `NumSectors`. -/
def diskSectors : Nat := sectorsPerTrack * numTracks

theorem diskSectors_eq : diskSectors = 524288 := rfl

/-- `divRoundUp` of `lib/utility.h`. -/
def divRoundUp (n s : Nat) : Nat := n / s + if n % s > 0 then 1 else 0

/-- The sectors that hold `n` bytes. -/
theorem divRoundUp_sector (n : Nat) : divRoundUp n 128 = (n + 127) / 128 := by
  unfold divRoundUp
  split <;> omega

/-- The contents of one sector. -/
structure Sector where
  bytes : List Byte
  size : bytes.length = sectorSize

theorem Sector.ext {a b : Sector} (h : a.bytes = b.bytes) : a = b := by
  cases a; cases b; cases h; rfl

/-- The sector with byte function `f`. -/
def Sector.tabulate (f : Nat → Byte) : Sector := ⟨Bytes.tabulate sectorSize f, length_tabulate _ _⟩

theorem Sector.getD_tabulate (f : Nat → Byte) {i : Nat} (hi : i < 128) : (Sector.tabulate f).bytes.getD i 0 = f i :=
  Bytes.getD_tabulate f hi

/-- Sector contents by sector number. -/
abbrev Disk := Nat → Sector

variable {d : Disk} {s : Word} {v : Sector}

/-- `SynchDisk::ReadSector`. -/
def Disk.readSector (d : Disk) (sectorNumber : Word) : Exec Sector :=
  if 0 ≤ sectorNumber.toInt ∧ sectorNumber.toInt < diskSectors then pure (d sectorNumber.toNat) else throw .assertion

/-- `SynchDisk::WriteSector`. -/
def Disk.writeSector (d : Disk) (sectorNumber : Word) (data : Sector) : Exec Disk :=
  if 0 ≤ sectorNumber.toInt ∧ sectorNumber.toInt < diskSectors then
    pure (Function.update d sectorNumber.toNat data)
  else throw .assertion

/-- The `ASSERT` of both requests: as an unsigned number the sector is on the disk. -/
theorem onDisk_iff : (0 ≤ s.toInt ∧ s.toInt < diskSectors) ↔ s.toNat < diskSectors := by
  constructor
  · rintro ⟨h0, h1⟩
    exact toNat_lt_of_toInt h0 h1
  · intro h
    have := diskSectors_eq
    rw [toInt_eq_toNat (by omega)]
    omega

theorem readSector_eq (h : s.toNat < diskSectors) : d.readSector s = .ok (d s.toNat) :=
  if_pos (onDisk_iff.2 h)

theorem readSector_ok (h : d.readSector s = .ok v) : s.toNat < diskSectors ∧ v = d s.toNat := by
  unfold Disk.readSector at h
  split at h
  · exact ⟨onDisk_iff.1 ‹_›, by cases h; rfl⟩
  · cases h

theorem writeSector_eq (h : s.toNat < diskSectors) : d.writeSector s v = .ok (Function.update d s.toNat v) :=
  if_pos (onDisk_iff.2 h)

theorem writeSector_ok {d' : Disk} (h : d.writeSector s v = .ok d') :
    s.toNat < diskSectors ∧ d' = Function.update d s.toNat v := by
  unfold Disk.writeSector at h
  split at h
  · exact ⟨onDisk_iff.1 ‹_›, by cases h; rfl⟩
  · cases h

/-- Two disks hold the same on the sectors of `l`. -/
def AgreeOn (l : List Nat) (d d' : Disk) : Prop := ∀ x ∈ l, d' x = d x

theorem AgreeOn.mono {l m : List Nat} {d d' : Disk} (h : AgreeOn l d d') (sub : m ⊆ l) : AgreeOn m d d' :=
  fun x hx => h x (sub hx)

end Nachos.Mp4
