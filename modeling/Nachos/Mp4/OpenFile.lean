import Nachos.Mp4.HeaderStore

/-!
# `OpenFile`

`filesys/openfile.cc`. An open file is an in-core header and a seek position. `ReadAt`
and `WriteAt` transfer whole sectors through a buffer; the caller's memory at `from` is
a byte function. The request arithmetic is that of `int`.
-/

namespace Nachos.Mp4
open Bytes

structure OpenFile where
  hdr : FileHeader
  seekPosition : Int

/-- `OpenFile::OpenFile`. -/
def openFile (d : Disk) (sector : Word) : Exec OpenFile := do
  pure ⟨← FileHeader.fetchFrom d sector, 0⟩

/-- The sectors of a request and its byte count, cut at the end of the file. -/
structure Request where
  numBytes : Int
  position : Int
  firstSector : Int
  lastSector : Int

/-- The checks `ReadAt` and `WriteAt` share; `none` where they return 0. -/
def Request.ofArgs (fileLength numBytes position : Int) : Option Request :=
  if numBytes ≤ 0 ∨ position ≥ fileLength then none
  else
    let numBytes := if wrap32 (position + numBytes) > fileLength then wrap32 (fileLength - position) else numBytes
    some {
      numBytes := numBytes
      position := position
      firstSector := position.tdiv sectorSize
      lastSector := (wrap32 (position + numBytes - 1)).tdiv sectorSize }

/-- `numSectors`. -/
def Request.numSectors (r : Request) : Int := 1 + r.lastSector - r.firstSector

/-- `new char[numSectors * SectorSize]`. -/
def Request.newBuffer (r : Request) : Exec (List Byte) :=
  let size := r.numSectors * sectorSize
  if 0 ≤ size ∧ size < 2 ^ 31 then pure (List.replicate size.toNat 0) else throw .badAlloc

/-- `bcopy` into `buf` at an `int` offset. -/
def poke (buf : List Byte) (offset : Int) (src : List Byte) : Exec (List Byte) :=
  if 0 ≤ offset ∧ offset + src.length ≤ buf.length then pure (overwrite buf offset.toNat src)
  else throw .outOfBounds

namespace OpenFile

/-- The read loop: `count` sectors from sector index `i` on. -/
def readSectors (d : Disk) (hdr : FileHeader) : Nat → Int → Exec (List Byte)
  | 0, _ => pure []
  | count + 1, i => do
    let v ← d.readSector (← hdr.byteToSector (wrap32 (i * sectorSize)))
    pure (v.bytes ++ (← readSectors d hdr count (i + 1)))

/-- `OpenFile::ReadAt`: the bytes copied to `into`, as many as it returns. -/
def readAt (d : Disk) (f : OpenFile) (numBytes position : Int) : Exec (List Byte) :=
  match Request.ofArgs f.hdr.fileLength numBytes position with
  | none => pure []
  | some r => do
    let buf ← r.newBuffer
    let buf ← poke buf 0 (← readSectors d f.hdr r.numSectors.toNat r.firstSector)
    let start := r.position - r.firstSector * sectorSize
    if 0 ≤ start ∧ start + r.numBytes ≤ buf.length then pure ((buf.drop start.toNat).take r.numBytes.toNat)
    else throw .outOfBounds

/-- The write loop: `count` sectors of `buf` from sector index `i` on. -/
def writeSectors (hdr : FileHeader) (buf : List Byte) (d : Disk) : Nat → Int → Exec Disk
  | 0, _ => pure d
  | count + 1, i => do
    let d ← d.writeSector (← hdr.byteToSector (wrap32 (i * sectorSize))) (Sector.tabulate fun j => buf.getD j 0)
    writeSectors hdr (buf.drop sectorSize) d count (i + 1)

/-- The read of a first or last sector that is only partly modified. -/
def readPartial (d : Disk) (f : OpenFile) (modified : Bool) (buf : List Byte) (offset sector : Int) : Exec (List Byte) :=
  if modified then do poke buf offset (← readAt d f sectorSize (wrap32 (sector * sectorSize))) else pure buf

/-- `OpenFile::WriteAt`: the value it returns and the disk. -/
def writeAt (d : Disk) (f : OpenFile) (source : Nat → Byte) (numBytes position : Int) : Exec (Int × Disk) :=
  match Request.ofArgs f.hdr.fileLength numBytes position with
  | none => pure (0, d)
  | some r => do
    let buf ← r.newBuffer
    let firstAligned := decide (r.position = r.firstSector * sectorSize)
    let lastAligned := decide (wrap32 (r.position + r.numBytes) = (r.lastSector + 1) * sectorSize)
    let buf ← readPartial d f (!firstAligned) buf 0 r.firstSector
    let buf ← readPartial d f (!lastAligned && (decide (r.firstSector ≠ r.lastSector) || firstAligned)) buf
      ((r.lastSector - r.firstSector) * sectorSize) r.lastSector
    let buf ← poke buf (r.position - r.firstSector * sectorSize) (tabulate r.numBytes.toNat source)
    let d ← writeSectors f.hdr buf d r.numSectors.toNat r.firstSector
    pure (r.numBytes, d)

/-- `OpenFile::Seek`. -/
def seek (f : OpenFile) (position : Int) : OpenFile := { f with seekPosition := position }

/-- `OpenFile::Read`. -/
def read (d : Disk) (f : OpenFile) (numBytes : Int) : Exec (List Byte × OpenFile) := do
  let bytes ← readAt d f numBytes f.seekPosition
  pure (bytes, { f with seekPosition := wrap32 (f.seekPosition + bytes.length) })

/-- `OpenFile::Write`. -/
def write (d : Disk) (f : OpenFile) (source : Nat → Byte) (numBytes : Int) : Exec (Int × Disk × OpenFile) := do
  let (result, d) ← writeAt d f source numBytes f.seekPosition
  pure (result, d, { f with seekPosition := wrap32 (f.seekPosition + result) })

/-- `OpenFile::Length`. -/
def length (f : OpenFile) : Int := f.hdr.fileLength

end OpenFile

end Nachos.Mp4
