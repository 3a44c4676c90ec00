import Nachos.Base.Cursor
import Nachos.Mp4.FileContent
import Nachos.Mp4.HeaderAlloc

/-!
# Open files are byte sequences with a position

`Shows d f c`: on the disk `d` the open file `f` is the sequence `c` with its position.
`OpenFile::Read` and `OpenFile::Write` do to the sequence what `Cursor.read` and
`Cursor.write` do, as long as the position and the size add up to an `int`.
-/

namespace Nachos.Mp4
open Bytes

/-- The header of a file of `length` bytes, as `Allocate` makes it for the disk. -/
structure FileHeader.Built (h : FileHeader) (length : Nat) : Prop where
  shaped : h.Shaped length
  nodup : h.datas.Nodup
  range : ∀ x ∈ h.datas, x < diskSectors

variable {n : Nat} {b b' : Bitmap n} {h : FileHeader} {L : Nat} {d d' : Disk} {f : OpenFile} {fileSize : Word}

theorem FileHeader.built_of_allocate (hn : n ≤ diskSectors) (success : allocate b fileSize = .ok (some (h, b'))) :
    h.Built (allocLength fileSize) := by
  have := diskSectors_eq
  have all := allocate_some (by omega) success
  refine ⟨all.shaped, List.Nodup.of_append_right all.taken.nodup, fun x hx => ?_⟩
  exact (all.taken.range x (List.mem_append_right _ hx)).trans_le hn

/-- The disk bounds the length of a file. -/
theorem FileHeader.Built.length_le (built : h.Built L) : L ≤ 2 ^ 26 := by
  have := length_le_diskSectors built.nodup built.range
  rw [built.shaped.length_datas, divRoundUp_sector, diskSectors_eq] at this
  omega

theorem FileHeader.Built.readable (built : h.Built L) : Readable h L where
  shaped := built.shaped
  small := by have := built.length_le; omega
  range := built.range

theorem FileHeader.Built.fileLength (built : h.Built L) : h.fileLength = L := by
  have := built.length_le
  exact built.shaped.fileLength (by omega)

/-! ## The transfers on contents -/

theorem take_drop_content {p c : Nat} (inside : p + c ≤ L) :
    ((content d h L).drop p).take c = tabulate c fun j => fileByte d h (p + j) := by
  unfold content
  exact take_drop_tabulate _ inside

/-- `ReadAt` takes a piece of the contents. -/
theorem readAt_content {n p : Nat} (built : f.hdr.Built L) (fits : p + n < 2 ^ 31) :
    f.readAt d n p = .ok (((content d f.hdr L).drop p).take n) := by
  rw [readAt_eq built.readable fits]
  by_cases inside : p ≤ L
  · rw [← take_drop_content (L := L) (by omega)]
    by_cases short : n ≤ L - p
    · rw [Nat.min_eq_left short]
    · rw [Nat.min_eq_right (by omega), List.take_of_length_le (by simp),
        List.take_of_length_le (by rw [List.length_drop, length_content]; omega)]
  · rw [List.drop_of_length_le (by rw [length_content]; omega), List.take_nil, show min n (L - p) = 0 by omega]
    rfl

/-- `WriteAt` puts a piece into the contents. -/
theorem writeAt_content (source : Nat → Byte) {n p : Nat} (built : f.hdr.Built L) (fits : p + n < 2 ^ 31) :
    ∃ d', f.writeAt d source n p = .ok ((min n (L - p) : Nat), d') ∧ AgreeOff f.hdr.datas d d' ∧
      content d' f.hdr L = Cursor.splice (content d f.hdr L) p (tabulate (min n (L - p)) source) := by
  obtain ⟨d', written, off, bytes⟩ := writeAt_eq (d := d) source built.readable built.nodup fits
  refine ⟨d', written, off, ?_⟩
  by_cases inside : p ≤ L
  · have room : p + (tabulate (min n (L - p)) source).length ≤ (content d f.hdr L).length := by
      rw [length_tabulate, length_content]
      omega
    have same : Cursor.splice (content d f.hdr L) p (tabulate (min n (L - p)) source) =
        overwrite (content d f.hdr L) p (tabulate (min n (L - p)) source) := rfl
    rw [same]
    apply ext_getD
    · rw [length_overwrite room, length_content, length_content]
    · intro o ho
      rw [length_content] at ho
      rw [getD_content ho, bytes o ho, getD_overwrite room, length_tabulate, getD_content ho]
      by_cases hit : p ≤ o ∧ o < p + n
      · rw [if_pos hit, if_pos (by omega), getD_tabulate _ (by omega)]
      · rw [if_neg hit, if_neg (by omega)]
  · have none : tabulate (min n (L - p)) source = [] := by
      rw [show min n (L - p) = 0 by omega]
      rfl
    rw [none, Cursor.splice_nil]
    apply ext_getD
    · rw [length_content, length_content]
    · intro o ho
      rw [length_content] at ho
      rw [getD_content ho, bytes o ho, if_neg (by omega), getD_content ho]

/-! ## Requests that transfer nothing -/

theorem Request.ofArgs_eq_none {fileLength numBytes position : Int} (nothing : numBytes ≤ 0 ∨ position ≥ fileLength) :
    Request.ofArgs fileLength numBytes position = none := if_pos nothing

section
variable {numBytes position : Int} (nothing : numBytes ≤ 0 ∨ position ≥ f.hdr.fileLength)
include nothing

theorem readAt_none : f.readAt d numBytes position = .ok [] := by
  rw [OpenFile.readAt, Request.ofArgs_eq_none nothing]
  rfl

theorem writeAt_none (source : Nat → Byte) : f.writeAt d source numBytes position = .ok (0, d) := by
  rw [OpenFile.writeAt, Request.ofArgs_eq_none nothing]
  rfl

end

/-! ## `ReadAt` and `WriteAt` -/

/-- The number of bytes of a request that lie in the file. -/
def clipped (length : Nat) (numBytes : Int) (position : Nat) : Nat :=
  if numBytes ≤ 0 ∨ length ≤ position then 0 else min numBytes.toNat (length - position)

theorem clipped_natCast (length n p : Nat) : clipped length n p = min n (length - p) := by
  unfold clipped
  split
  · omega
  · rw [Int.toNat_natCast]

/-- **An open file is a byte array.** `WriteAt` puts the bytes that lie in the file at their
place and changes no sector but the file's data sectors; `ReadAt` returns the bytes at the place. -/
theorem byte_array (hn : n ≤ diskSectors) (success : FileHeader.allocate b fileSize = .ok (some (f.hdr, b')))
    (length : fileSize.toInt = L) (d : Disk) (source : Nat → Byte) (numBytes : Int) (p : Nat) (fits : p + numBytes < 2 ^ 31) :
    ∃ old d', f.readAt d L 0 = .ok old ∧ f.writeAt d source numBytes p = .ok (clipped L numBytes p, d') ∧
      f.readAt d' L 0 = .ok (overwrite old p (tabulate (clipped L numBytes p) source)) ∧
      (∀ x, x ∉ f.hdr.datas → d' x = d x) ∧
      f.readAt d numBytes p = .ok ((old.drop p).take (clipped L numBytes p)) := by
  have built := FileHeader.built_of_allocate hn success
  have nonneg : 0 ≤ fileSize.toInt := by omega
  have size : fileSize.toNat = L := by
    rw [toInt_of_nonneg nonneg] at length
    exact_mod_cast length
  rw [allocLength_of_nonneg nonneg, size] at built
  have bound := built.length_le
  have whole (d : Disk) : f.readAt d L 0 = .ok (content d f.hdr L) := readAt_all built.readable le_rfl (by omega)
  refine ⟨content d f.hdr L, ?_⟩
  by_cases nonpos : numBytes ≤ 0
  · have none : clipped L numBytes p = 0 := if_pos (.inl nonpos)
    refine ⟨d, whole d, ?_, ?_, fun x _ => rfl, ?_⟩
    · rw [writeAt_none (.inl nonpos), none]
      rfl
    · rw [none, whole d]
      exact congrArg Except.ok (overwrite_nil _ _).symm
    · rw [readAt_none (.inl nonpos), none, List.take_zero]
  · obtain ⟨n, rfl⟩ := Int.eq_ofNat_of_zero_le (by omega : 0 ≤ numBytes)
    have fits' : p + n < 2 ^ 31 := by exact_mod_cast fits
    obtain ⟨d', written, off, bytes⟩ := writeAt_content (d := d) source built fits'
    rw [← clipped_natCast] at written bytes
    refine ⟨d', whole d, written, ?_, off, ?_⟩
    · rw [whole d', bytes]
      rfl
    · rw [readAt_content built fits', clipped_natCast]
      congr 1
      by_cases short : n ≤ L - p
      · rw [Nat.min_eq_left short]
      · have all : ((content d f.hdr L).drop p).length ≤ L - p := by rw [List.length_drop, length_content]
        rw [Nat.min_eq_right (by omega), List.take_of_length_le (by omega), List.take_of_length_le all]

/-- A file of 3713 bytes, written across the boundary of its links. -/
theorem byte_array_linked : ∃ (f : OpenFile) (old : List Byte) (d' : Disk), old.length = 3713 ∧
    f.writeAt (fun _ => .tabulate fun _ => 0) (fun i => BitVec.ofNat 8 i) 10 3710 = .ok (3, d') ∧
    f.readAt d' 3713 0 = .ok (overwrite old 3710 (tabulate 3 fun i => BitVec.ofNat 8 i)) := by
  obtain ⟨h, b', success, -⟩ := (FileHeader.allocate_spec (n := 40) (by decide) (Bitmap.empty 40) 3713).1
    (by rw [Bitmap.numClear_empty]; decide)
  obtain ⟨old, d', before, written, after, -, -⟩ := byte_array (n := 40) (f := ⟨h, 0⟩) (L := 3713) (by decide) success (by decide)
    (fun _ => .tabulate fun _ => 0) (fun i => BitVec.ofNat 8 i) 10 3710 (by decide)
  refine ⟨⟨h, 0⟩, old, d', ?_, written, after⟩
  have built : h.Built 3713 := FileHeader.built_of_allocate (n := 40) (by decide) success
  have whole : OpenFile.readAt (fun _ => .tabulate fun _ => 0) ⟨h, 0⟩ (3713 : Nat) 0 = _ := readAt_all built.readable le_rfl (by decide)
  rw [whole] at before
  cases before
  exact length_content _ _ _

/-! ## `Read` and `Write` -/

/-- On disk `d` the open file is the sequence `c` with its position. -/
structure Shows (d : Disk) (f : OpenFile) (c : Cursor Byte) : Prop where
  built : f.hdr.Built c.contents.length
  contents : content d f.hdr c.contents.length = c.contents
  position : f.seekPosition = c.position

namespace Shows

variable {c : Cursor Byte}

/-- The contents of an open file, with its position. -/
theorem of_built (built : f.hdr.Built L) (nonneg : 0 ≤ f.seekPosition) (le : f.seekPosition ≤ L) (d : Disk) :
    ∃ c, Shows d f c ∧ c.contents = content d f.hdr L ∧ c.position = f.seekPosition := by
  obtain ⟨p, position⟩ := Int.eq_ofNat_of_zero_le nonneg
  have inside : p ≤ (content d f.hdr L).length := by
    rw [length_content]
    omega
  refine ⟨⟨content d f.hdr L, p, inside⟩, ⟨?_, ?_, position⟩, rfl, position.symm⟩
  · rw [length_content]
    exact built
  · rw [length_content]

/-- **`OpenFile::Write`** writes the sequence at its position. -/
theorem write (shows' : Shows d f c) (buffer : List Byte) (fits : c.position + buffer.length < 2 ^ 31) :
    ∃ d', f.write d (fun i => buffer.getD i 0) buffer.length =
        .ok ((c.room buffer.length : Nat), d', { f with seekPosition := (c.write buffer).position }) ∧
      Shows d' { f with seekPosition := (c.write buffer).position } (c.write buffer) := by
  obtain ⟨d', written, -, bytes⟩ := writeAt_content (d := d) (fun i => buffer.getD i 0) shows'.built fits
  have bound := c.room_le buffer.length
  have small := shows'.built.length_le
  have piece : tabulate (c.room buffer.length) (fun i => buffer.getD i 0) = buffer.take (c.room buffer.length) := by
    have le : 0 + c.room buffer.length ≤ buffer.length := by
      rw [Nat.zero_add]
      exact Nat.min_le_left _ _
    have := take_drop_tabulate (fun i => buffer.getD i 0) le
    rw [tabulate_getD, List.drop_zero] at this
    simpa using this.symm
  have moved : wrap32 (c.position + (c.room buffer.length : Nat)) = ((c.write buffer).position : Int) := by
    rw [wrap32_eq (by omega) (by omega)]
    exact (Int.natCast_add _ _).symm
  refine ⟨d', ?_, ?_, ?_, rfl⟩
  · rw [OpenFile.write, shows'.position, written, ok_bind]
    simp only [pure, Except.pure]
    rw [← Cursor.room, moved]
  · rw [Cursor.length_write]
    exact shows'.built
  · rw [Cursor.length_write]
    rw [← Cursor.room, piece, shows'.contents] at bytes
    exact bytes

/-- **`OpenFile::Read`** reads the sequence at its position. -/
theorem read (shows' : Shows d f c) (n : Nat) (fits : c.position + n < 2 ^ 31) :
    f.read d n = .ok (c.read n, { f with seekPosition := (c.advance n).position }) ∧
      Shows d { f with seekPosition := (c.advance n).position } (c.advance n) := by
  have bound := c.room_le n
  have small := shows'.built.length_le
  have moved : wrap32 (c.position + (c.read n).length) = ((c.advance n).position : Int) := by
    rw [Cursor.length_read, wrap32_eq (by omega) (by omega)]
    exact (Int.natCast_add _ _).symm
  refine ⟨?_, shows'.built, shows'.contents, rfl⟩
  rw [OpenFile.read, shows'.position, readAt_content shows'.built fits, ok_bind, shows'.contents, ← Cursor.read, moved]
  rfl

end Shows

/-- `OpenFile::Write` of one chunk after the other, with the sum of what the calls return. -/
def writeChunks (d : Disk) (f : OpenFile) : List (List Byte) → Exec (Int × Disk × OpenFile)
  | [] => pure (0, d, f)
  | buffer :: rest => do
    let (result, d, f) ← f.write d (fun i => buffer.getD i 0) buffer.length
    let (results, d, f) ← writeChunks d f rest
    pure (result + results, d, f)

/-- `OpenFile::Read` of one size after the other, with all the bytes they return. -/
def readChunks (d : Disk) (f : OpenFile) : List Nat → Exec (List Byte × OpenFile)
  | [] => pure ([], f)
  | size :: rest => do
    let (bytes, f) ← f.read d size
    let (more, f) ← readChunks d f rest
    pure (bytes ++ more, f)

theorem Shows.writeChunks (chunks : List (List Byte)) : ∀ {d : Disk} {f : OpenFile} {c : Cursor Byte}, Shows d f c →
    c.position + chunks.flatten.length < 2 ^ 31 → ∃ d', writeChunks d f chunks =
        .ok ((c.room chunks.flatten.length : Nat), d', { f with seekPosition := (c.writes chunks).position }) ∧
      Shows d' { f with seekPosition := (c.writes chunks).position } (c.writes chunks) := by
  induction chunks with
  | nil =>
    intro d f c shows' _
    have here : ({ f with seekPosition := (c.writes []).position } : OpenFile) = f := by
      rw [show c.writes [] = c from rfl, ← shows'.position]
    rw [here]
    exact ⟨d, by simp [Mp4.writeChunks, Cursor.room, pure, Except.pure], shows'⟩
  | cons buffer rest ih =>
    intro d f c shows' fits
    rw [List.flatten_cons, List.length_append] at fits
    obtain ⟨d₁, first, shows₁⟩ := shows'.write buffer (by omega)
    have moved : (c.write buffer).position = c.position + c.room buffer.length := rfl
    have most : c.room buffer.length ≤ buffer.length := Nat.min_le_left _ _
    obtain ⟨d₂, others, shows₂⟩ := ih shows₁ (by omega)
    refine ⟨d₂, ?_, shows₂⟩
    rw [Mp4.writeChunks, first, ok_bind]
    simp only [others, ok_bind, pure, Except.pure]
    rw [List.flatten_cons, c.room_write buffer rest.flatten, Int.natCast_add]
    rfl

theorem Shows.readChunks (sizes : List Nat) : ∀ {f : OpenFile} {c : Cursor Byte}, Shows d f c →
    c.position + sizes.sum < 2 ^ 31 → readChunks d f sizes =
        .ok (c.read sizes.sum, { f with seekPosition := (c.advance sizes.sum).position }) := by
  induction sizes with
  | nil =>
    intro f c shows' _
    have here : ({ f with seekPosition := (c.advance 0).position } : OpenFile) = f := by
      rw [show (c.advance 0).position = c.position by simp [Cursor.advance, Cursor.room], ← shows'.position]
    rw [List.sum_nil, here]
    rfl
  | cons size rest ih =>
    intro f c shows' fits
    rw [List.sum_cons] at fits
    obtain ⟨first, shows₁⟩ := shows'.read size (by omega)
    have most : c.room size ≤ size := Nat.min_le_left _ _
    have moved : (c.advance size).position = c.position + c.room size := rfl
    rw [Mp4.readChunks, first, ok_bind]
    simp only [ih shows₁ (by omega), ok_bind, pure, Except.pure]
    rw [List.sum_cons, c.read_add, c.advance_add]

/-- The seek position lies in a file of `length` bytes. -/
def OpenFile.Within (f : OpenFile) (length : Nat) : Prop := 0 ≤ f.seekPosition ∧ f.seekPosition ≤ length

theorem Shows.within {c : Cursor Byte} (shows' : Shows d f c) : f.Within c.contents.length := by
  have := c.le
  rw [OpenFile.Within, shows'.position]
  omega

/-- The first chunks are no longer than all. -/
theorem length_flatten_take (chunks : List (List Byte)) (k : Nat) :
    (chunks.take k).flatten.length ≤ chunks.flatten.length := by
  have split := congrArg List.length (congrArg List.flatten (List.take_append_drop k chunks))
  rw [List.flatten_append, List.length_append] at split
  omega

theorem sum_take (sizes : List Nat) (k : Nat) : (sizes.take k).sum ≤ sizes.sum := by
  have split := congrArg List.sum (List.take_append_drop k sizes)
  rw [List.sum_append] at split
  omega

/-- **Chunks do not matter.** Chunks written one after the other leave the file, the position and
the number of bytes that one write of all of them leaves, and sizes read one after the other give
what one read gives; the position stays in the file. -/
theorem chunks_do_not_matter (built : f.hdr.Built L) (within : f.Within L) (d : Disk) :
    (∀ chunks : List (List Byte), f.seekPosition + chunks.flatten.length < 2 ^ 31 →
      (∃ r d₁ d₂ g bytes, writeChunks d f chunks = .ok (r, d₁, g) ∧
        f.write d (fun i => chunks.flatten.getD i 0) chunks.flatten.length = .ok (r, d₂, g) ∧
        f.readAt d₁ L 0 = .ok bytes ∧ f.readAt d₂ L 0 = .ok bytes) ∧
      ∀ k, ∃ r d' g, writeChunks d f (chunks.take k) = .ok (r, d', g) ∧ g.Within L) ∧
    ∀ sizes : List Nat, f.seekPosition + sizes.sum < 2 ^ 31 →
      (∃ bytes g, readChunks d f sizes = .ok (bytes, g) ∧ f.read d sizes.sum = .ok (bytes, g)) ∧
      ∀ k, ∃ bytes g, readChunks d f (sizes.take k) = .ok (bytes, g) ∧ g.Within L := by
  obtain ⟨c, shows', contents, position⟩ := Shows.of_built built within.1 within.2 d
  have length : c.contents.length = L := by rw [contents, length_content]
  constructor
  · intro chunks fits
    rw [← position] at fits
    constructor
    · obtain ⟨d₁, chunked, shows₁⟩ := shows'.writeChunks chunks (by omega)
      obtain ⟨d₂, written, shows₂⟩ := shows'.write chunks.flatten (by omega)
      rw [c.writes_eq] at chunked shows₁
      have whole {d' : Disk} {g : OpenFile} (shows'' : Shows d' g (c.write chunks.flatten)) (hdr : g.hdr = f.hdr) :
          f.readAt d' L 0 = .ok (c.write chunks.flatten).contents := by
        have bound := built.length_le
        rw [readAt_all built.readable le_rfl (by omega), ← shows''.contents, c.length_write, length, hdr]
      exact ⟨_, d₁, d₂, _, _, chunked, written, whole shows₁ rfl, whole shows₂ rfl⟩
    · intro k
      have shorter := length_flatten_take chunks k
      obtain ⟨d', chunked, shows''⟩ := shows'.writeChunks (chunks.take k) (by omega)
      have inside := shows''.within
      rw [c.writes_eq, c.length_write, length] at inside
      rw [c.writes_eq] at chunked
      exact ⟨_, d', _, chunked, inside⟩
  · intro sizes fits
    rw [← position] at fits
    constructor
    · exact ⟨_, _, shows'.readChunks sizes (by omega), (shows'.read sizes.sum (by omega)).1⟩
    · intro k
      have shorter := sum_take sizes k
      have inside := (shows'.read (sizes.take k).sum (by omega)).2.within
      refine ⟨_, _, shows'.readChunks (sizes.take k) (by omega), ?_⟩
      rw [← length]
      exact inside

/-- 27 bytes written one by one into a file of 20 bytes. -/
theorem chunks_do_not_matter_letters : ∃ (h : FileHeader) (r : Int) (d₁ d₂ : Disk) (g : OpenFile) (bytes : List Byte),
    writeChunks (fun _ => .tabulate fun _ => 0) ⟨h, 0⟩ (List.replicate 27 [97]) = .ok (r, d₁, g) ∧
    OpenFile.write (fun _ => .tabulate fun _ => 0) ⟨h, 0⟩ (fun i => (List.replicate 27 [(97 : Byte)]).flatten.getD i 0) 27 = .ok (r, d₂, g) ∧
    OpenFile.readAt d₁ ⟨h, 0⟩ 20 0 = .ok bytes ∧ OpenFile.readAt d₂ ⟨h, 0⟩ 20 0 = .ok bytes := by
  obtain ⟨h, b', success, -⟩ := (FileHeader.allocate_spec (n := 40) (by decide) (Bitmap.empty 40) 20).1
    (by rw [Bitmap.numClear_empty]; decide)
  have built : h.Built 20 := FileHeader.built_of_allocate (n := 40) (by decide) success
  have fits : (0 : Int) + ((List.replicate 27 [(97 : Byte)]).flatten.length : Nat) < 2 ^ 31 := by decide
  obtain ⟨⟨r, d₁, d₂, g, bytes, chunked, written, same, same'⟩, -⟩ := (chunks_do_not_matter (f := ⟨h, 0⟩) built ⟨le_rfl, Int.natCast_nonneg 20⟩
    fun _ => .tabulate fun _ => 0).1 (List.replicate 27 [97]) fits
  exact ⟨h, r, d₁, d₂, g, bytes, chunked, written, same, same'⟩

end Nachos.Mp4
