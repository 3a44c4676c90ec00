import Nachos.Mp4.ByteFile
import Nachos.Mp4.FileSystem

/-!
# The `int` arithmetic of a transfer

`ReadAt` and `WriteAt` compute with `int`s, and the test that cuts a request at the end of the
file adds the position to the size before either is checked. `FileSystem::Read` and
`FileSystem::Write` pass on any size that is not negative, so that the sum can overflow.
-/

namespace Nachos.Mp4
open Bytes

/-- The values that `ReadAt` and `WriteAt` compute up to the size of the buffer, before they are
cut to 32 bits. -/
def Request.computed (fileLength numBytes position : Int) : List Int :=
  match Request.ofArgs fileLength numBytes position with
  | none => []
  | some r => [position + numBytes, r.position + r.numBytes, r.position + r.numBytes - 1, r.lastSector, r.numSectors,
      r.numSectors * sectorSize]

/-- No computation of the request overflows. -/
def Request.Exact (fileLength numBytes position : Int) : Prop :=
  ∀ x ∈ Request.computed fileLength numBytes position, -2 ^ 31 ≤ x ∧ x < 2 ^ 31

instance {fileLength numBytes position : Int} : Decidable (Request.Exact fileLength numBytes position) :=
  inferInstanceAs (Decidable (∀ x ∈ _, _ ∧ _))

/-- What `FileSystem::Read` and `FileSystem::Write` of `size` bytes do with the open file at its
position `p`: nothing overflows, no more than the bytes up to the end of the file are moved, and
the answer is how many were, or -1 for a request that is refused. -/
structure Transfers (d : Disk) (fs : FileSystem) (h : FileHeader) (L p : Nat) (size id : Int) : Prop where
  exact : Request.Exact h.fileLength size p
  read : (fs.read d size id = .ok (none, fs) ∧ (id < 0 ∨ size < 0)) ∨ ∃ bytes,
    fs.read d size id = .ok (some bytes, { fs with fileDescriptor := some ⟨h, (p + bytes.length : Nat)⟩ }) ∧
      bytes.length ≤ L - p ∧ bytes = ((content d h L).drop p).take bytes.length
  write : ∀ buffer, (fs.write d buffer size id = .ok (-1, d, fs) ∧ id < 0 ∧ size < 0) ∨ ∃ (r : Nat) (d' : Disk),
    fs.write d buffer size id = .ok (r, d', { fs with fileDescriptor := some ⟨h, (p + r : Nat)⟩ }) ∧
      r ≤ L - p ∧ content d' h L = overwrite (content d h L) p (tabulate r buffer)
  unread : ∀ buffer buffer' : Nat → Byte, (∀ i < L - p, buffer i = buffer' i) →
    fs.write d buffer size id = fs.write d buffer' size id

variable {h : FileHeader} {L p : Nat} {d : Disk} {fs : FileSystem} {size id : Int}

/-- A request that is cut at the end of the file computes with numbers below its length. -/
theorem Request.exact_of_fits {n : Nat} (built : h.Built L) (inside : p < L) (positive : 0 < n) (fits : p + n < 2 ^ 31) :
    Request.Exact h.fileLength n p := by
  have bound := built.length_le
  have request := Request.ofArgs_eq positive inside (by omega) fits
  intro x mem
  rw [Request.computed, built.fileLength, request] at mem
  simp only [List.mem_cons, List.not_mem_nil, or_false, Request.numSectors, sectorSize] at mem
  rcases mem with rfl | rfl | rfl | rfl | rfl | rfl <;> omega

/-- A request in the file adds its size to the position. -/
theorem Request.Exact.fits {length : Int} (exact : Request.Exact length size p) (inside : (p : Int) < length)
    (positive : 0 < size) : p + size < 2 ^ 31 := by
  refine (exact (p + size) ?_).2
  rw [Request.computed, Request.ofArgs, if_neg (by omega)]
  exact List.mem_cons_self

/-- `WriteAt` reads the bytes of its buffer that it writes. -/
theorem writeAt_congr {f : OpenFile} {source source' : Nat → Byte} {numBytes position : Int}
    (same : ∀ r, Request.ofArgs f.hdr.fileLength numBytes position = some r →
      tabulate r.numBytes.toNat source = tabulate r.numBytes.toNat source') :
    f.writeAt d source numBytes position = f.writeAt d source' numBytes position := by
  unfold OpenFile.writeAt
  split
  · rfl
  · rename_i r request
    rw [same r request]

/-- Of a buffer that a request of `size` bytes is given, the bytes up to the end of the file matter. -/
theorem FileSystem.write_congr (built : h.Built L) (here : fs.fileDescriptor = some ⟨h, (p : Nat)⟩) (fits : p < L → p + size < 2 ^ 31)
    {buffer buffer' : Nat → Byte} (same : ∀ i < L - p, buffer i = buffer' i) :
    fs.write d buffer size id = fs.write d buffer' size id := by
  have equal : (⟨h, (p : Nat)⟩ : OpenFile).writeAt d buffer size p = (⟨h, (p : Nat)⟩ : OpenFile).writeAt d buffer' size p := by
    apply writeAt_congr
    intro r request
    rw [built.fileLength] at request
    by_cases nothing : size ≤ 0 ∨ (p : Int) ≥ L
    · rw [Request.ofArgs_eq_none nothing] at request
      cases request
    · obtain ⟨n, rfl⟩ := Int.eq_ofNat_of_zero_le (by omega : 0 ≤ size)
      have bound := built.length_le
      have fits' := fits (by omega)
      rw [Request.ofArgs_eq (by omega) (by omega) (by omega) (by omega)] at request
      cases request
      apply tabulate_congr
      intro i inside
      apply same
      simp only [Int.toNat_natCast] at inside
      omega
  unfold FileSystem.write
  rw [here]
  simp only [OpenFile.write, equal]

namespace FileSystem

/-- `FileSystem::Read` moves the seek position past the bytes that `ReadAt` returns. -/
theorem read_of_readAt (here : fs.fileDescriptor = some ⟨h, (p : Nat)⟩) (asked : ¬ (id < 0 ∨ size < 0)) {bytes : List Byte}
    (result : (⟨h, (p : Nat)⟩ : OpenFile).readAt d size p = .ok bytes) (small : p + bytes.length < 2 ^ 31) :
    fs.read d size id = .ok (some bytes, { fs with fileDescriptor := some ⟨h, (p + bytes.length : Nat)⟩ }) := by
  have moved : wrap32 ((p : Int) + bytes.length) = (p + bytes.length : Nat) := by
    rw [wrap32_eq (by omega) (by omega)]
    omega
  rw [read, if_neg asked, here]
  simp only [OpenFile.read, result, ok_bind, moved]
  rfl

/-- `FileSystem::Write` moves the seek position past the bytes that `WriteAt` wrote. -/
theorem write_of_writeAt (here : fs.fileDescriptor = some ⟨h, (p : Nat)⟩) (asked : ¬ (id < 0 ∧ size < 0)) {buffer : Nat → Byte}
    {r : Nat} {d' : Disk} (result : (⟨h, (p : Nat)⟩ : OpenFile).writeAt d buffer size p = .ok ((r : Int), d')) (small : p + r < 2 ^ 31) :
    fs.write d buffer size id = .ok ((r : Int), d', { fs with fileDescriptor := some ⟨h, (p + r : Nat)⟩ }) := by
  have moved : wrap32 ((p : Int) + r) = (p + r : Nat) := by
    rw [wrap32_eq (by omega) (by omega)]
    omega
  rw [write, if_neg asked, here]
  simp only [OpenFile.write, result, ok_bind, pure, Except.pure, moved]

end FileSystem

/-- What `ReadAt` and `WriteAt` do to the file is what the calls on a descriptor do. -/
theorem Transfers.of_at (built : h.Built L) (here : fs.fileDescriptor = some ⟨h, (p : Nat)⟩) (inside : p ≤ L)
    (fits : p < L → p + size < 2 ^ 31) (exact : Request.Exact h.fileLength size p) {n : Nat}
    (reads : (⟨h, (p : Nat)⟩ : OpenFile).readAt d size p = .ok (((content d h L).drop p).take n))
    (writes : ∀ buffer, ∃ d', (⟨h, (p : Nat)⟩ : OpenFile).writeAt d buffer size p = .ok ((min n (L - p) : Nat), d') ∧
      content d' h L = overwrite (content d h L) p (tabulate (min n (L - p)) buffer)) :
    Transfers d fs h L p size id := by
  have bound := built.length_le
  have piece : (((content d h L).drop p).take n).length = min n (L - p) := by
    rw [List.length_take, List.length_drop, length_content]
  refine ⟨exact, ?_, fun buffer => ?_, fun _ _ => FileSystem.write_congr built here fits⟩
  · by_cases refused : id < 0 ∨ size < 0
    · exact .inl ⟨if_pos refused, refused⟩
    · refine .inr ⟨_, FileSystem.read_of_readAt here refused reads (by omega), by omega, ?_⟩
      rw [piece]
      by_cases short : n ≤ L - p
      · rw [Nat.min_eq_left short]
      · have all : ((content d h L).drop p).length ≤ L - p := by rw [List.length_drop, length_content]
        rw [Nat.min_eq_right (by omega), List.take_of_length_le (by omega), List.take_of_length_le all]
  · by_cases refused : id < 0 ∧ size < 0
    · exact .inl ⟨if_pos refused, refused⟩
    · obtain ⟨d', written, bytes⟩ := writes buffer
      exact .inr ⟨_, d', FileSystem.write_of_writeAt here refused written (by omega), by omega, bytes⟩

/-- **The sum of position and size decides.** A transfer at a position before the end of the file
does without overflow what it is asked if and only if the position and the size add up to an
`int`; at the end of the file every size does. -/
theorem transfers_iff (built : h.Built L) (inside : p ≤ L) (here : fs.fileDescriptor = some ⟨h, (p : Nat)⟩)
    (least : -2 ^ 31 ≤ size) (most : size < 2 ^ 31) :
    Transfers d fs h L p size id ↔ p = L ∨ p + size < 2 ^ 31 := by
  have bound := built.length_le
  constructor
  · intro transfers
    by_cases positive : p < L ∧ 0 < size
    · refine .inr (transfers.exact.fits ?_ positive.2)
      rw [built.fileLength]
      omega
    · omega
  · intro fits
    by_cases nothing : size ≤ 0 ∨ (p : Int) ≥ L
    · have exact : Request.Exact h.fileLength size p := by
        intro x mem
        rw [Request.computed, built.fileLength, Request.ofArgs_eq_none nothing] at mem
        cases mem
      rw [← built.fileLength] at nothing
      refine .of_at (n := 0) built here inside (fun _ => by omega) exact (readAt_none (f := ⟨h, (p : Nat)⟩) nothing) fun buffer => ?_
      rw [Nat.zero_min]
      exact ⟨d, writeAt_none (f := ⟨h, (p : Nat)⟩) nothing buffer, (overwrite_nil _ _).symm⟩
    · obtain ⟨n, rfl⟩ := Int.eq_ofNat_of_zero_le (by omega : 0 ≤ size)
      have fits' : p + n < 2 ^ 31 := by omega
      refine .of_at built here inside (fun _ => by omega) (Request.exact_of_fits built (by omega) (by omega) fits') (readAt_content built fits')
        fun buffer => ?_
      obtain ⟨d', written, -, bytes⟩ := writeAt_content (d := d) (f := ⟨h, (p : Nat)⟩) buffer built fits'
      exact ⟨d', written, bytes⟩

/-- The second byte of a file, read with a size of 5. -/
theorem transfers_iff_second : ∃ h : FileHeader, h.Built 2 ∧
    Transfers (fun _ => .tabulate fun _ => 0) ⟨⟨h, 0⟩, ⟨h, 0⟩, some ⟨h, (1 : Nat)⟩⟩ h 2 1 5 1 := by
  obtain ⟨h, b', success, -⟩ := (FileHeader.allocate_spec (n := 40) (by decide) (Bitmap.empty 40) 2).1
    (by rw [Bitmap.numClear_empty]; decide)
  have built : h.Built 2 := FileHeader.built_of_allocate (n := 40) (by decide) success
  exact ⟨h, built, (transfers_iff built (by decide) rfl (by decide) (by decide)).2 (.inr (by decide))⟩

/-- A file of two bytes at position 1: the largest size overflows, and the call does not return. -/
theorem transfer_overflows : ∃ h : FileHeader, h.Built 2 ∧
    ¬ Request.Exact h.fileLength 2147483647 1 ∧
    FileSystem.read (fun _ => .tabulate fun _ => 0) ⟨⟨h, 0⟩, ⟨h, 0⟩, some ⟨h, 1⟩⟩ 2147483647 1 = .error .badAlloc ∧
    ∀ buffer, FileSystem.write (fun _ => .tabulate fun _ => 0) ⟨⟨h, 0⟩, ⟨h, 0⟩, some ⟨h, 1⟩⟩ buffer 2147483647 1 = .error .badAlloc := by
  obtain ⟨h, b', success, -⟩ := (FileHeader.allocate_spec (n := 40) (by decide) (Bitmap.empty 40) 2).1
    (by rw [Bitmap.numClear_empty]; decide)
  have built : h.Built 2 := FileHeader.built_of_allocate (n := 40) (by decide) success
  have length : h.fileLength = (2 : Nat) := built.fileLength
  refine ⟨h, built, ?_, ?_, fun buffer => ?_⟩
  · rw [length]
    decide
  · simp only [FileSystem.read, OpenFile.read, OpenFile.readAt, length]
    rfl
  · simp only [FileSystem.write, OpenFile.write, OpenFile.writeAt, length]
    rfl

end Nachos.Mp4
