import Nachos.Base.CString
import Mathlib.Data.Int.Notation
import Mathlib.Data.List.FinRange
import Mathlib.Logic.Function.Basic

/-!
# The file system stub

`filesys/filesys.h` with `FILESYS_STUB`: the table of open files over the files of the host.
The host's answers are arguments of the calls, and so is the memory that the code reads
without having written it: what `newArr` holds when `OpenAFile` starts, and the bytes that
lie behind `openfiletable_name`.
-/

namespace Nachos.Mp1
open Bytes

structure OpenFile where
  file : ℤ
  deriving DecidableEq

/-- A name that fits into a row of the table. -/
structure FileName where
  chars : List Byte
  nonempty : chars ≠ []
  short : chars.length < 100
  plain : 0 ∉ chars

/-- `openfiletable_name` is 20 rows of 100 bytes, one behind the other. -/
structure FileSystem where
  openFileTable : Fin 20 → Option OpenFile
  openfiletable_name : List Byte
  length_name : openfiletable_name.length = 2000

/-- A call of `OpenAFile`: `stack` is `newArr` and the memory above it when the call starts,
`behind` the memory behind `openfiletable_name`, and `fd` the host's answer to `open`. -/
structure OpenCall where
  name : FileName
  stack : List Byte
  behind : List Byte
  fd : ℤ

namespace OpenCall

/-- `newArr` after the loop has copied the name: the byte that ends the name is not copied. -/
def newArr (c : OpenCall) : List Byte := c.name.chars ++ c.stack.drop c.name.chars.length

end OpenCall

namespace FileSystem

/-- Bytes stored from a row's start on. Those that would lie behind the table are not kept. -/
def store (s : FileSystem) (i : Fin 20) (src : List Byte) : FileSystem where
  openFileTable := s.openFileTable
  openfiletable_name := overwrite s.openfiletable_name (100 * i) (src.take (2000 - 100 * i))
  length_name := by
    rw [length_overwrite, s.length_name]
    rw [s.length_name, List.length_take]
    omega

def strcpy (s : FileSystem) (i : Fin 20) (l : List Byte) : FileSystem := s.store i (cstr l ++ [0])

def setFile (s : FileSystem) (i : Fin 20) (f : Option OpenFile) : FileSystem :=
  { s with openFileTable := Function.update s.openFileTable i f }

/-- The slot is given back. -/
def clear (s : FileSystem) (i : Fin 20) : FileSystem := (s.setFile i none).store i [0]

/-- The constructor, on the memory that `new` has found. -/
def construct (memory : FileSystem) : FileSystem := (List.finRange 20).foldl clear memory

/-- The scan for the name. Its last round reads behind the table. -/
def duplicate (s : FileSystem) (c : OpenCall) : Bool :=
  (List.range 21).any fun idx => cstr ((s.openfiletable_name ++ c.behind).drop (100 * idx)) = cstr c.newArr

/-- The first free slot. -/
def free (s : FileSystem) : Option (Fin 20) := (List.finRange 20).find? fun i => (s.openFileTable i).isNone

/-- `none` stands for -1. -/
def openAFile (s : FileSystem) (c : OpenCall) : Option (Fin 20) × FileSystem :=
  if s.duplicate c then (none, s)
  else if c.fd = -1 then (none, s)
  else match s.free with
    | some i => (some i, (s.setFile i (some ⟨c.fd⟩)).strcpy i c.newArr)
    | none => (none, s)

/-- The slot of an identifier that names an open file. -/
def slot (s : FileSystem) (id : ℤ) : Option (Fin 20) :=
  if h : 0 ≤ id ∧ id < 20 then
    if (s.openFileTable ⟨id.toNat, by omega⟩).isSome then some ⟨id.toNat, by omega⟩ else none
  else none

/-- What `WriteAFile` and `ReadFile` return: none if the host moved another number of bytes,
and the `ASSERT` in `WriteFile` or `Read` fails. -/
def transfer (s : FileSystem) (size id retVal : ℤ) : Option ℤ :=
  if size ≤ 0 then some (-1)
  else if s.slot id = none then some (-1)
  else if retVal = size then some size
  else none

def writeAFile (s : FileSystem) (size id retVal : ℤ) : Option ℤ := s.transfer size id retVal

def readFile (s : FileSystem) (size id retVal : ℤ) : Option ℤ := s.transfer size id retVal

/-- What `CloseFile` returns and leaves: none if the `ASSERT` in `Close` fails. -/
def closeFile (s : FileSystem) (id retVal : ℤ) : Option (ℤ × FileSystem) :=
  match s.slot id with
  | none => some (-1, s)
  | some i => if 0 ≤ retVal then some (1, s.clear i) else none

end FileSystem

end Nachos.Mp1
