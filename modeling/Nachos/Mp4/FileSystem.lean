import Nachos.Mp4.HeaderAlloc
import Nachos.Mp4.Path

/-!
# `FileSystem`

`filesys/filesys.cc`, with `PersistentBitmap`. The disk is passed along, a call that
does not return is a fault, and freeing heap objects is left out. `OpenDir` returns the
file at `sector`, a local it does not initialise: `junk` is the value it starts with.
-/

namespace Nachos.Mp4
open Bytes

/-- `FreeMapSector`, `DirectorySector`. -/
def freeMapSector : Word := 0
def directorySector : Word := 1

/-- `FreeMapFileSize`. -/
def freeMapFileSize : Nat := diskSectors / 8

/-- `NumDirEntries`. -/
def numDirEntries : Nat := 64

/-- `DirectoryFileSize`. -/
def directoryFileSize : Nat := 20 * numDirEntries

/-- The map of the disk's sectors. -/
abbrev FreeMap := Bitmap diskSectors

/-- A directory as the file system makes them. -/
abbrev Dir := Directory numDirEntries

/-- `PersistentBitmap::PersistentBitmap(OpenFile *, int)`. -/
def fetchMap (d : Disk) (file : OpenFile) : Exec FreeMap := do
  let bytes ← file.readAt d (4 * numWords diskSectors : Nat) 0
  pure (.ofBytes _ (overwrite (Bitmap.empty diskSectors).toBytes 0 bytes))

/-- `PersistentBitmap::WriteBack`. -/
def writeMap (d : Disk) (freeMap : FreeMap) (file : OpenFile) : Exec Disk := do
  let (_, d) ← file.writeAt d (fun i => freeMap.toBytes.getD i 0) (4 * numWords diskSectors : Nat) 0
  pure d

structure FileSystem where
  freeMapFile : OpenFile
  directoryFile : OpenFile
  fileDescriptor : Option OpenFile

namespace FileSystem

/-- `FileSystem::FileSystem(FALSE)`. -/
def mount (d : Disk) : Exec FileSystem := do
  let freeMapFile ← openFile d freeMapSector
  let directoryFile ← openFile d directorySector
  pure ⟨freeMapFile, directoryFile, none⟩

/-- `ASSERT(hdr->Allocate(freeMap, fileSize))`. -/
def mustAllocate (freeMap : FreeMap) (fileSize : Nat) : Exec (FileHeader × FreeMap) := do
  match ← FileHeader.allocate freeMap (BitVec.ofNat 32 fileSize) with
  | some r => pure r
  | none => throw .assertion

/-- `FileSystem::FileSystem(TRUE)` on a disk with arbitrary contents. -/
def format (d : Disk) : Exec (Disk × FileSystem) := do
  let freeMap ← (Bitmap.empty diskSectors).mark freeMapSector
  let freeMap ← freeMap.mark directorySector
  let (mapHdr, freeMap) ← mustAllocate freeMap freeMapFileSize
  let (dirHdr, freeMap) ← mustAllocate freeMap directoryFileSize
  let d ← mapHdr.writeBack d freeMapSector
  let d ← dirHdr.writeBack d directorySector
  let fs ← mount d
  let d ← writeMap d freeMap fs.freeMapFile
  let d ← (Directory.new numDirEntries).writeBack d fs.directoryFile
  pure (d, fs)

/-- The loop of `OpenDir`: `sector` is the local, and `none` is `NULL`. -/
def walk (d : Disk) : List (List Byte) → Dir → Word → Exec (Option Word)
  | [], _, sector => pure (some sector)
  | temp :: rest, directory, _ => do
    let sector := directory.find temp
    if sector = -1 then pure none
    else
      let directory ← directory.fetchFrom d (← openFile d sector)
      walk d rest directory sector

/-- `FileSystem::OpenDir`. -/
def openDir (d : Disk) (fs : FileSystem) (junk : Word) (parentPath : List Byte) : Exec (Option OpenFile) := do
  let directory ← (Directory.new numDirEntries).fetchFrom d fs.directoryFile
  match ← walk d (tokens parentPath) directory junk with
  | none => pure none
  | some sector => do pure (some (← openFile d sector))

/-- The parent's table, as `Create`, `CreateDirectory` and `Remove` read it: the root's,
or over it that of the directory `OpenDir` finds; `none` where `OpenDir` returns `NULL`. -/
def parentTable (d : Disk) (fs : FileSystem) (junk : Word) (parentPath : List Byte) : Exec (Option Dir) := do
  let directory ← (Directory.new numDirEntries).fetchFrom d fs.directoryFile
  if tokens parentPath ≠ [] then
    match ← openDir d fs junk parentPath with
    | none => pure none
    | some file => do pure (some (← directory.fetchFrom d file))
  else pure (some directory)

/-- `directory->WriteBack(OpenDir(parent_path))`. -/
def writeParent (d : Disk) (fs : FileSystem) (junk : Word) (parentPath : List Byte) (directory : Dir) : Exec Disk := do
  match ← openDir d fs junk parentPath with
  | none => throw .nullPointer
  | some file => directory.writeBack d file

/-- The parent's table as `Create` and `CreateDirectory` write it back. -/
def writeTable (d : Disk) (fs : FileSystem) (junk : Word) (parentPath : List Byte) (directory : Dir) : Exec Disk :=
  if tokens parentPath ≠ [] then writeParent d fs junk parentPath directory
  else directory.writeBack d fs.directoryFile

/-- The in-memory part of `Create` and `CreateDirectory`: a sector for the header, the
entry, the header; `none` is failure. `CreateDirectory` adds the entry before it tests
the sector, but a failed call drops the table. -/
def reserve (freeMap : FreeMap) (directory : Dir) (targetName : List Byte) (size : Word) (dir : Bool) :
    Exec (Option (Word × Dir × FileHeader × FreeMap)) :=
  match freeMap.findAndSet with
  | none => pure none
  | some (sector, freeMap) =>
    let sector := BitVec.ofNat 32 sector
    match directory.add targetName sector dir with
    | none => pure none
    | some directory => do
      match ← FileHeader.allocate freeMap size with
      | none => pure none
      | some (hdr, freeMap) => pure (some (sector, directory, hdr, freeMap))

/-- `FileSystem::Create`. -/
def create (d : Disk) (fs : FileSystem) (junk : Word) (name : CString) (initialSize : Word) : Exec (Bool × Disk) := do
  let (parentPath, targetName) ← splitPath name
  match ← parentTable d fs junk parentPath with
  | none => pure (false, d)
  | some directory =>
    if directory.find targetName ≠ -1 then pure (false, d)
    else
      let freeMap ← fetchMap d fs.freeMapFile
      match ← reserve freeMap directory targetName initialSize false with
      | none => pure (false, d)
      | some (sector, directory, hdr, freeMap) =>
        let d ← hdr.writeBack d sector
        let d ← writeTable d fs junk parentPath directory
        let d ← writeMap d freeMap fs.freeMapFile
        pure (true, d)

/-- `FileSystem::CreateDirectory`. -/
def createDirectory (d : Disk) (fs : FileSystem) (junk : Word) (name : CString) : Exec (Bool × Disk) := do
  let (parentPath, targetName) ← splitPath name
  match ← parentTable d fs junk parentPath with
  | none => pure (false, d)
  | some directory =>
    if directory.find targetName ≠ -1 then pure (false, d)
    else
      let freeMap ← fetchMap d fs.freeMapFile
      match ← reserve freeMap directory targetName (BitVec.ofNat 32 directoryFileSize) true with
      | none => pure (false, d)
      | some (sector, directory, hdr, freeMap) =>
        let d ← hdr.writeBack d sector
        let d ← writeTable d fs junk parentPath directory
        let d ← (Directory.new numDirEntries).writeBack d (← openFile d sector)
        let d ← writeMap d freeMap fs.freeMapFile
        pure (true, d)

/-- The file `Open` finds; `none` is `NULL`. -/
def findFile (d : Disk) (fs : FileSystem) (junk : Word) (name : CString) : Exec (Option OpenFile) := do
  let directory ← (Directory.new numDirEntries).fetchFrom d fs.directoryFile
  let (parentPath, targetName) ← splitPath name
  if tokens parentPath = [] then
    let sector := directory.find targetName
    if 0 ≤ sector.toInt then do pure (some (← openFile d sector)) else pure none
  else
    match ← openDir d fs junk parentPath with
    | none => pure none
    | some file => do
      -- a missing name is not tested for: the open of sector -1 fails
      let directory ← directory.fetchFrom d file
      pure (some (← openFile d (directory.find targetName)))

/-- `FileSystem::Open`. -/
def «open» (d : Disk) (fs : FileSystem) (junk : Word) (name : CString) : Exec (Option OpenFile × FileSystem) := do
  let file ← findFile d fs junk name
  pure (file, { fs with fileDescriptor := file })

/-- The table and the sector `Remove` goes on with; `none` where `success` is false. -/
def removeTarget (d : Disk) (fs : FileSystem) (junk : Word) (parentPath targetName : List Byte) :
    Exec (Option (Dir × Word)) := do
  match ← parentTable d fs junk parentPath with
  | none => pure none
  | some directory =>
    let sector := directory.find targetName
    if sector = -1 then pure none else pure (some (directory, sector))

/-- `FileSystem::Remove`. -/
def remove (d : Disk) (fs : FileSystem) (junk : Word) (name : CString) : Exec (Bool × Disk) := do
  let (parentPath, targetName) ← splitPath name
  match ← removeTarget d fs junk parentPath targetName with
  | none => pure (true, d)
  | some (directory, sector) =>
    let fileHdr ← FileHeader.fetchFrom d sector
    let freeMap ← fetchMap d fs.freeMapFile
    let freeMap ← fileHdr.deallocate freeMap
    let freeMap ← freeMap.clear sector
    let directory := (directory.remove targetName).getD directory
    let d ← writeMap d freeMap fs.freeMapFile
    let d ← writeParent d fs junk parentPath directory
    pure (true, d)

/-- `FileSystem::Read`; `none` is `-1`. -/
def read (d : Disk) (fs : FileSystem) (size id : Int) : Exec (Option (List Byte) × FileSystem) :=
  if id < 0 ∨ size < 0 then pure (none, fs)
  else match fs.fileDescriptor with
    | none => pure (none, fs)
    | some file => do
      let (bytes, file) ← file.read d size
      pure (some bytes, { fs with fileDescriptor := some file })

/-- `FileSystem::Write`. -/
def write (d : Disk) (fs : FileSystem) (buffer : Nat → Byte) (size id : Int) : Exec (Int × Disk × FileSystem) :=
  if id < 0 ∧ size < 0 then pure (-1, d, fs)
  else match fs.fileDescriptor with
    | none => pure (-1, d, fs)
    | some file => do
      let (result, d, file) ← file.write d buffer size
      pure (result, d, { fs with fileDescriptor := some file })

/-- `FileSystem::Close`. -/
def close (fs : FileSystem) : Int × FileSystem := (1, { fs with fileDescriptor := none })

end FileSystem

end Nachos.Mp4
