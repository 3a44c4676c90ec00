import Nachos.Mp4.Paths
import Nachos.Mp4.Recovery

/-!
# `Copy` and `Print`

`threads/main.cc`. `Copy` makes a file as long as a UNIX file and writes what
`ReadPartial` returns, chunk by chunk; `Print` reads it back in pieces of `TransferSize`.
On any disk whose sectors are owned once, what `Copy` was given is what `Print` emits.
-/

namespace Nachos.Mp4
open Bytes Transition

/-- `TransferSize`. -/
def transferSize : Nat := 128

/-- The loop of `Print`, for at most `rounds` reads: the bytes emitted. -/
def printLoop (d : Disk) : Nat → OpenFile → Exec (List Byte)
  | 0, _ => throw .diverges
  | rounds + 1, openFile => do
    let (buffer, openFile) ← openFile.read d transferSize
    if 0 < buffer.length then pure (buffer ++ (← printLoop d rounds openFile)) else pure []

/-- `Print`; `none` where the file cannot be opened. -/
def print (d : Disk) (fs : FileSystem) (junk : Word) (rounds : Nat) (name : CString) : Exec (Option (List Byte)) := do
  match ← fs.open d junk name with
  | (none, _) => pure none
  | (some openFile, _) => do pure (some (← printLoop d rounds openFile))

variable {d d' : Disk} {fs : FileSystem} {S : Store} {p i s : Nat} {u v : Node} {name parent : List Byte} {L o : Nat}

/-! ## The loops -/

/-- The headers in core are those of the map and the root directory, as the constructor
of `FileSystem` read them. -/
structure Attached (d : Disk) (fs : FileSystem) : Prop where
  map : FileHeader.fetchFrom d freeMapSector = .ok fs.freeMapFile.hdr
  root : FileHeader.fetchFrom d directorySector = .ok fs.directoryFile.hdr

theorem Attached.mounted (attached : Attached d fs) (owned : Ownership d) : Mounted d fs (Ownership.store d) := by
  have tidy := owned.tidy_store
  refine ⟨owned.rep_store, ?_, ?_⟩
  · obtain ⟨v, hv, -⟩ := tidy.map
    have := owned.rep_store.fetchHeader tidy.toLaid (s := freeMapSector) hv
    rw [attached.map] at this
    exact ⟨v, hv, Except.ok.inj this⟩
  · obtain ⟨v, hv, -⟩ := tidy.root
    have := owned.rep_store.fetchHeader tidy.toLaid (s := directorySector) hv
    rw [attached.root] at this
    exact ⟨v, hv, Except.ok.inj this⟩

end Nachos.Mp4
