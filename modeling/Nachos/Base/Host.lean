import Mathlib.Logic.Function.Basic
import Nachos.Base.Bytes

/-!
# Regular files and open descriptors of a host

What a program sees of its host through `open`, `close`, `read` and `write`: the contents belong to
the files, which have numbers, the offsets to the descriptors. Nothing here depends on a particular
program.
-/

open Bytes

/-- What a descriptor is open on, and how far. -/
structure Description where
  file : ℕ
  offset : ℕ

structure Host where
  contents : ℕ → List Byte
  descriptors : ℤ → Option Description

namespace Host

variable {h h' : Host} {fd fd' : ℤ} {file n : ℕ} {d : Description}

def IsOpen (h : Host) (fd : ℤ) : Prop := (h.descriptors fd).isSome

/-- `open` answers with a descriptor that is not in use. -/
def Free (h : Host) (fd : ℤ) : Prop := 0 ≤ fd ∧ h.descriptors fd = none

def setDescriptor (h : Host) (fd : ℤ) (d : Option Description) : Host :=
  { h with descriptors := Function.update h.descriptors fd d }

/-- `open` of a file that is there. -/
def openFile (h : Host) (fd : ℤ) (file : ℕ) : Host := h.setDescriptor fd (some ⟨file, 0⟩)

/-- `open` with `O_TRUNC`, or of a new file with `O_CREAT`, and `close`. -/
def truncate (h : Host) (file : ℕ) : Host := { h with contents := Function.update h.contents file [] }

/-- None if the descriptor is not open. -/
def close (h : Host) (fd : ℤ) : Option Host := (h.descriptors fd).map fun _ => h.setDescriptor fd none

/-- What lies behind the offset. -/
def rest (h : Host) (d : Description) : List Byte := (h.contents d.file).drop d.offset

/-- `read`: as many bytes as there are, up to `n`. -/
def read (h : Host) (fd : ℤ) (n : ℕ) : Option (List Byte × Host) :=
  (h.descriptors fd).map fun d =>
    ((h.rest d).take n, h.setDescriptor fd (some ⟨d.file, d.offset + ((h.rest d).take n).length⟩))

/-- A file with bytes stored at an offset. What is left out before it reads as zero. -/
def stored (l : List Byte) (offset : ℕ) (src : List Byte) : List Byte :=
  overwrite (l ++ List.replicate (offset - l.length) 0) offset src

/-- `write`, where the host takes all bytes. -/
def write (h : Host) (fd : ℤ) (src : List Byte) : Option Host :=
  (h.descriptors fd).map fun d =>
    { h.setDescriptor fd (some ⟨d.file, d.offset + src.length⟩) with
      contents := Function.update h.contents d.file (stored (h.contents d.file) d.offset src) }

/-! ## The open descriptors -/

@[simp] theorem setDescriptor_self {d : Option Description} : (h.setDescriptor fd d).descriptors fd = d := Function.update_self ..

theorem setDescriptor_of_ne {d : Option Description} (ne : fd' ≠ fd) :
    (h.setDescriptor fd d).descriptors fd' = h.descriptors fd' := Function.update_of_ne ne ..

theorem isOpen_openFile : (h.openFile fd file).IsOpen fd' ↔ fd' = fd ∨ h.IsOpen fd' := by
  by_cases eq : fd' = fd
  · rw [eq, IsOpen, openFile, setDescriptor_self]
    exact iff_of_true rfl (.inl rfl)
  · rw [or_iff_right eq, IsOpen, openFile, setDescriptor_of_ne eq, IsOpen]

theorem isOpen_close (closed : h.close fd = some h') : h'.IsOpen fd' ↔ fd' ≠ fd ∧ h.IsOpen fd' := by
  obtain ⟨d, -, rfl⟩ := Option.map_eq_some_iff.1 closed
  by_cases eq : fd' = fd
  · rw [eq, IsOpen, setDescriptor_self]
    exact iff_of_false Bool.false_ne_true fun h => h.1 rfl
  · rw [and_iff_right eq, IsOpen, setDescriptor_of_ne eq, IsOpen]

/-- Another description of an open descriptor. -/
theorem isOpen_setDescriptor (open' : h.IsOpen fd) : (h.setDescriptor fd (some d)).IsOpen fd' ↔ h.IsOpen fd' := by
  by_cases eq : fd' = fd
  · rw [eq, IsOpen, setDescriptor_self]
    exact iff_of_true rfl open'
  · rw [IsOpen, setDescriptor_of_ne eq, IsOpen]

theorem isOpen_read {bytes : List Byte} (done : h.read fd n = some (bytes, h')) : h'.IsOpen fd' ↔ h.IsOpen fd' := by
  obtain ⟨d, found, eq⟩ := Option.map_eq_some_iff.1 done
  obtain ⟨-, rfl⟩ := Prod.mk.inj eq
  exact isOpen_setDescriptor (Option.isSome_of_eq_some found)

theorem isOpen_write {src : List Byte} (done : h.write fd src = some h') : h'.IsOpen fd' ↔ h.IsOpen fd' := by
  obtain ⟨d, found, rfl⟩ := Option.map_eq_some_iff.1 done
  exact isOpen_setDescriptor (h := h) (Option.isSome_of_eq_some found)

/-! ## Reading -/

theorem length_rest (h : Host) (d : Description) : (h.rest d).length = (h.contents d.file).length - d.offset :=
  List.length_drop

theorem read_eq (found : h.descriptors fd = some d) : h.read fd n =
    some ((h.rest d).take n, h.setDescriptor fd (some ⟨d.file, d.offset + ((h.rest d).take n).length⟩)) := by
  rw [read, found, Option.map_some]

/-- What is left behind the bytes read. -/
theorem rest_advance (h : Host) (d : Description) (n : ℕ) (o : Option Description) :
    (h.setDescriptor fd o).rest ⟨d.file, d.offset + ((h.rest d).take n).length⟩ = (h.rest d).drop n := by
  have same : (h.setDescriptor fd o).contents = h.contents := rfl
  have whole : (h.rest d).drop ((h.rest d).take n).length = (h.rest d).drop n := by
    rw [List.length_take]
    by_cases short : n ≤ (h.rest d).length
    · rw [Nat.min_eq_left short]
    · rw [Nat.min_eq_right (by omega), List.drop_length, List.drop_of_length_le (by omega)]
  rw [rest, same, ← List.drop_drop, ← rest, whole]

end Host
