import Mathlib.Tactic.Ring
import Nachos.Mp4.Bitmap

/-!
# `FileHeader`: chained file headers

`filesys/filehdr.cc`. A header is a chain of links; the disk part of a link fills one
sector, and the in-core pointer `nextHeader` is what makes it a chain. `Shaped h L` says
that `h` is laid out the way `Allocate` lays out a file of `L` bytes, and `Stored d s h`
that the chain lies on disk from sector `s` on.
-/

namespace Nachos.Mp4
open Bytes

/-- `NumDirect`. -/
def numDirect : Nat := (sectorSize - 3 * 4) / 4

/-- `MaxFileSize`: the bytes one link holds. -/
def maxFileSize : Nat := numDirect * sectorSize

theorem numDirect_eq : numDirect = 29 := rfl
theorem maxFileSize_eq : maxFileSize = 3712 := rfl

/-- `remain > 0` only above `MaxFileSize`: below it the unsigned difference is negative as
an `int`. -/
theorem remain_toNat {fileSize : Word} (h : 0 < (fileSize - BitVec.ofNat 32 maxFileSize).toInt) :
    3712 < fileSize.toNat ∧ (fileSize - BitVec.ofNat 32 maxFileSize).toNat = fileSize.toNat - 3712 := by
  have := fileSize.isLt
  rw [BitVec.toInt_eq_toNat_cond] at h
  simp only [BitVec.toNat_sub, BitVec.toNat_ofNat, maxFileSize_eq] at h ⊢
  split at h <;> omega

/-- The disk part of a link: everything but `nextHeader`. -/
structure HeaderSector where
  nextSector : Word
  numBytes : Word
  numSectors : Word
  dataSectors : Vector Word numDirect

namespace HeaderSector

/-- Entry `i` of `dataSectors`. -/
def dataSector (h : HeaderSector) (i : Nat) : Word := h.dataSectors.toList.getD i 0

/-- The words of a link in the order of the class's fields. -/
def word (h : HeaderSector) : Nat → Word
  | 0 => h.nextSector
  | 1 => h.numBytes
  | 2 => h.numSectors
  | k + 3 => h.dataSector k

/-- The bytes at `(char *)this + sizeof(FileHeader *)`. -/
def encode (h : HeaderSector) : Sector := ⟨Bytes.encode 32 h.word, length_encode _ _⟩

/-- A sector read over those bytes. -/
def decode (v : Sector) : HeaderSector where
  nextSector := wordAt v.bytes 0
  numBytes := wordAt v.bytes 1
  numSectors := wordAt v.bytes 2
  dataSectors := Vector.ofFn fun k => wordAt v.bytes (k + 3)

/-- `dataSectors[0..numSectors)`, as `Deallocate` walks it. -/
def used (h : HeaderSector) : Exec (List Word) :=
  if h.numSectors.toInt ≤ numDirect then pure (h.dataSectors.toList.take h.numSectors.toInt.toNat)
  else throw .outOfBounds

/-- The same sectors by number. -/
def datas (h : HeaderSector) : List Nat := (h.dataSectors.toList.take h.numSectors.toNat).map BitVec.toNat

end HeaderSector

/-- An in-core header: `nextHeader` is `NULL` in the last link. -/
inductive FileHeader where
  | last (disk : HeaderSector)
  | link (disk : HeaderSector) (nextHeader : FileHeader)

namespace FileHeader
variable {n : Nat}

/-- `dataSectors` with its first entries set and the others as the constructor left them. -/
def fill (ss : List Nat) : Vector Word numDirect :=
  Vector.ofFn fun i => match ss[i.val]? with
    | some s => BitVec.ofNat 32 s
    | none => -1

/-- `dataSectors[i] = freeMap->FindAndSet()` for `count` values of `i`. -/
def takeSectors : Nat → Bitmap n → Exec (List Nat × Bitmap n)
  | 0, freeMap => pure ([], freeMap)
  | count + 1, freeMap =>
    match freeMap.findAndSet with
    | none => throw .assertion
    | some (s, freeMap) => do
      let (ss, freeMap) ← takeSectors count freeMap
      pure (s :: ss, freeMap)

/-- `FileHeader::Allocate` on a fresh header. `MaxFileSize` is unsigned, so `fileSize` is
compared and reduced as an unsigned number and only `remain > 0` is signed. The result is
`none` for `FALSE`, where the callers drop the header and the map. -/
def allocate (freeMap : Bitmap n) (fileSize : Word) : Exec (Option (FileHeader × Bitmap n)) :=
  let numBytes := if fileSize.toNat > maxFileSize then maxFileSize else fileSize.toNat
  let remain := fileSize - BitVec.ofNat 32 maxFileSize
  let numSectors := divRoundUp numBytes sectorSize
  if freeMap.numClear < numSectors then pure none
  else do
    let (ss, freeMap) ← takeSectors numSectors freeMap
    if 0 < remain.toInt then
      match freeMap.findAndSet with
      | none => pure none
      | some (nextSector, freeMap) =>
        match ← allocate freeMap remain with
        | none => pure none
        | some (nextHeader, freeMap) =>
          pure (some (.link ⟨BitVec.ofNat 32 nextSector, BitVec.ofNat 32 numBytes, BitVec.ofNat 32 numSectors, fill ss⟩
            nextHeader, freeMap))
    else pure (some (.last ⟨-1, BitVec.ofNat 32 numBytes, BitVec.ofNat 32 numSectors, fill ss⟩, freeMap))
termination_by fileSize.toNat
decreasing_by
  have := remain_toNat ‹0 < (fileSize - BitVec.ofNat 32 maxFileSize).toInt›
  omega

/-- `ASSERT(freeMap->Test(s)); freeMap->Clear(s)` for every sector of a link. -/
def releaseSectors (freeMap : Bitmap n) : List Word → Exec (Bitmap n)
  | [] => pure freeMap
  | s :: ss => do
    if ← freeMap.test s then releaseSectors (← freeMap.clear s) ss else throw .assertion

/-- `FileHeader::Deallocate`. -/
def deallocate : FileHeader → Bitmap n → Exec (Bitmap n)
  | .last disk, freeMap => do releaseSectors freeMap (← disk.used)
  | .link disk nextHeader, freeMap => do nextHeader.deallocate (← releaseSectors freeMap (← disk.used))

/-- The recursion of `FileHeader::FetchFrom`, to a depth. -/
def fetchDepth (d : Disk) : Nat → Word → Exec FileHeader
  | 0, _ => throw .diverges
  | depth + 1, sector => do
    let disk := HeaderSector.decode (← d.readSector sector)
    if disk.nextSector ≠ -1 then
      let nextHeader ← fetchDepth d depth disk.nextSector
      pure (.link disk nextHeader)
    else pure (.last disk)

/-- `FileHeader::FetchFrom` into a fresh header. A chain longer than the disk repeats a
sector and the recursion never ends. -/
def fetchFrom (d : Disk) (sector : Word) : Exec FileHeader := fetchDepth d (diskSectors + 1) sector

/-- `FileHeader::WriteBack`. -/
def writeBack : FileHeader → Disk → Word → Exec Disk
  | .last disk, d, sector => d.writeSector sector disk.encode
  | .link disk nextHeader, d, sector => do
    let d ← d.writeSector sector disk.encode
    nextHeader.writeBack d disk.nextSector

/-- `FileHeader::ByteToSector`. `NumDirect` is unsigned, so a negative index is not below it. -/
def byteToSector : FileHeader → Int → Exec Word
  | .last disk, offset =>
    let idx := offset.tdiv sectorSize
    if 0 ≤ idx ∧ idx < numDirect then pure (disk.dataSector idx.toNat) else throw .nullPointer
  | .link disk nextHeader, offset =>
    let idx := offset.tdiv sectorSize
    if 0 ≤ idx ∧ idx < numDirect then pure (disk.dataSector idx.toNat)
    else nextHeader.byteToSector (wrap32 (offset - maxFileSize))

/-- `FileHeader::FileLength`. -/
def fileLength : FileHeader → Int
  | .last disk => disk.numBytes.toInt
  | .link disk nextHeader => wrap32 (disk.numBytes.toInt + nextHeader.fileLength)

/-! ## The sectors of a chain -/

/-- The disk part of the first link. -/
def disk : FileHeader → HeaderSector
  | .last disk => disk
  | .link disk _ => disk

/-- The extension-header sectors linked by `nextSector`. -/
def exts : FileHeader → List Nat
  | .last _ => []
  | .link disk nextHeader => disk.nextSector.toNat :: nextHeader.exts

/-- The data sectors in file order. -/
def datas : FileHeader → List Nat
  | .last disk => disk.datas
  | .link disk nextHeader => disk.datas ++ nextHeader.datas

/-- Every sector of a file whose header is at sector `s`. -/
def owned (h : FileHeader) (s : Nat) : List Nat := s :: (h.exts ++ h.datas)

end FileHeader

/-- A link that holds `bytes` bytes, as `Allocate` fills it. -/
structure HeaderSector.Shaped (h : HeaderSector) (bytes : Nat) : Prop where
  le : bytes ≤ 3712
  numBytes : h.numBytes.toNat = bytes
  numSectors : h.numSectors.toNat = divRoundUp bytes 128
  unused : ∀ i, divRoundUp bytes 128 ≤ i → i < 29 → h.dataSector i = -1

/-- A chain laid out as `Allocate` lays out a file of `length` bytes. -/
def FileHeader.Shaped : FileHeader → Nat → Prop
  | .last disk, length => disk.Shaped length ∧ disk.nextSector = -1
  | .link disk nextHeader, length =>
    disk.Shaped 3712 ∧ disk.nextSector ≠ -1 ∧ 3712 < length ∧ nextHeader.Shaped (length - 3712)

/-- The chain lies on disk from sector `s` on. -/
def Stored (d : Disk) : Nat → FileHeader → Prop
  | s, .last disk => d s = disk.encode ∧ disk.nextSector = -1
  | s, .link disk nextHeader =>
    d s = disk.encode ∧ disk.nextSector ≠ -1 ∧ Stored d disk.nextSector.toNat nextHeader

end Nachos.Mp4
