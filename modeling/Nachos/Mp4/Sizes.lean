import Nachos.Mp4.Paths

/-!
# The arithmetic on file sizes

`MaxFileSize` is unsigned, so `Allocate` compares and reduces an `int` as an unsigned number at
each level of its recursion. For sizes that are not negative this is exact. A negative size is
taken for one above `MaxFileSize` and cut to a full link, and the file is created.
-/

namespace Nachos.Mp4
open Bytes Transition

/-- What a call of `Allocate` computes from `fileSize`: the outcome of `fileSize > MaxFileSize`,
`numBytes`, `numSectors`, `remain` and the outcome of `remain > 0`. -/
structure Decisions where
  clipped : Bool
  numBytes : Int
  numSectors : Int
  remain : Int
  more : Bool
deriving DecidableEq

/-- The numbers of `Decisions` in exact arithmetic. -/
def Decisions.exact (fileSize : Int) : Decisions where
  clipped := decide (fileSize > maxFileSize)
  numBytes := min fileSize maxFileSize
  numSectors := (min fileSize maxFileSize + (sectorSize - 1)) / sectorSize
  remain := fileSize - maxFileSize
  more := decide (fileSize - maxFileSize > 0)

namespace FileHeader
variable {n : Nat}

/-- The bytes of one link. -/
def clip (fileSize : Word) : Nat := if fileSize.toNat > maxFileSize then maxFileSize else fileSize.toNat

/-- The numbers as the code has them. -/
def decisions (fileSize : Word) : Decisions where
  clipped := decide (fileSize.toNat > maxFileSize)
  numBytes := clip fileSize
  numSectors := divRoundUp (clip fileSize) sectorSize
  remain := (fileSize - BitVec.ofNat 32 maxFileSize).toInt
  more := decide (0 < (fileSize - BitVec.ofNat 32 maxFileSize).toInt)

/-- `Allocate` uses nothing else of `fileSize`. -/
theorem allocate_eq_decisions (freeMap : Bitmap n) (fileSize : Word) : allocate freeMap fileSize =
    (if (freeMap.numClear : Int) < (decisions fileSize).numSectors then pure none
    else do
      let (ss, freeMap) ← takeSectors (decisions fileSize).numSectors.toNat freeMap
      let numBytes := BitVec.ofInt 32 (decisions fileSize).numBytes
      let numSectors := BitVec.ofInt 32 (decisions fileSize).numSectors
      if (decisions fileSize).more then
        match freeMap.findAndSet with
        | none => pure none
        | some (nextSector, freeMap) =>
          match ← allocate freeMap (BitVec.ofInt 32 (decisions fileSize).remain) with
          | none => pure none
          | some (nextHeader, freeMap) =>
            pure (some (.link ⟨BitVec.ofNat 32 nextSector, numBytes, numSectors, fill ss⟩ nextHeader, freeMap))
      else pure (some (.last ⟨-1, numBytes, numSectors, fill ss⟩, freeMap))) := by
  rw [allocate]
  simp only [decisions, Int.ofNat_lt, Int.toNat_natCast, BitVec.ofInt_natCast, BitVec.ofInt_toInt, decide_eq_true_eq]
  rfl

/-- The sizes that `Allocate` is called with, one at each level of the recursion. -/
def levels (fileSize : Word) : List Word :=
  fileSize :: if 0 < (fileSize - BitVec.ofNat 32 maxFileSize).toInt then levels (fileSize - BitVec.ofNat 32 maxFileSize) else []
termination_by fileSize.toNat
decreasing_by
  have := remain_toNat ‹0 < (fileSize - BitVec.ofNat 32 maxFileSize).toInt›
  omega

/-- Every size of the recursion but the first is positive. -/
theorem levels_nonneg (fileSize : Word) (nonneg : 0 ≤ fileSize.toInt) : ∀ s ∈ levels fileSize, 0 ≤ s.toInt := by
  induction fileSize using levels.induct with
  | case1 fileSize ih =>
    intro s mem
    rw [levels] at mem
    rcases List.mem_cons.1 mem with rfl | mem
    · exact nonneg
    · split at mem
      · rename_i more
        exact ih more more.le s mem
      · cases mem

/-- **Sizes that are not negative** are compared and reduced exactly. -/
theorem decisions_exact {fileSize : Word} (nonneg : 0 ≤ fileSize.toInt) : decisions fileSize = .exact fileSize.toInt := by
  have bound : fileSize.toNat < 2 ^ 31 := toNat_lt_of_toInt nonneg (BitVec.toInt_lt (x := fileSize))
  have value := toInt_of_nonneg nonneg
  have remain : (fileSize - BitVec.ofNat 32 maxFileSize).toInt = (fileSize.toNat : Int) - 3712 := by
    rw [BitVec.toInt_eq_toNat_cond, BitVec.toNat_sub, BitVec.toNat_ofNat, maxFileSize_eq]
    split <;> omega
  have clipped : (clip fileSize : Int) = min (fileSize.toNat : Int) 3712 := by
    rw [clip, maxFileSize_eq]
    split <;> omega
  have sectors : ((divRoundUp (clip fileSize) sectorSize : Nat) : Int) = (min (fileSize.toNat : Int) 3712 + 127) / 128 := by
    rw [show sectorSize = 128 from rfl, divRoundUp_sector]
    omega
  rw [decisions, Decisions.exact, remain, clipped, sectors, value, maxFileSize_eq]
  congr 1
  exact decide_eq_decide.2 (by omega)

/-- A negative size is above `MaxFileSize` as an unsigned number. -/
theorem decisions_negative {fileSize : Word} (negative : fileSize.toInt < 0) : decisions fileSize ≠ .exact fileSize.toInt := by
  intro equal
  have clipped := congrArg Decisions.clipped equal
  have above := (decide_eq_decide.1 clipped).1
  have high : 2 ^ 31 ≤ fileSize.toNat := by
    rw [BitVec.toInt_eq_toNat_cond] at negative
    split at negative <;> omega
  rw [maxFileSize_eq] at above
  have := above (by omega)
  omega

end FileHeader

variable {S : Store} {m : Machine} {d d' : Disk} {parent name : List Byte} {p i s : Nat} {u v : Node} {b : FreeMap}

/-- The header of a file that was created. -/
theorem Created.header {dir : Bool} {L : Nat} (made : Created S parent name dir L d' p u i s v b) (sound : Sound S) :
    ∃ sector, resolve d' (tokens parent ++ [name]) = some (sector, dir) ∧ ∃ hdr, FileHeader.fetchFrom d' sector = .ok hdr ∧
      hdr.fileLength = L := by
  have link := made.link
  have tidy := (link.sound_link sound).toTidy
  have new := link.at_new sound
  have here := ((link.grown sound).paths sound.rooted (link.ne_one sound) made.resolves).2.1
  have walk : (S.link p u i name s v b).walk (tokens parent ++ [name]) = some s := by
    rw [Store.walk, List.map_append, List.map_singleton]
    exact here
  have sector : (BitVec.ofNat 32 s).toNat = s := tidy.toNat_ofNat new
  refine ⟨BitVec.ofNat 32 s, ?_, v.hdr, ?_, ?_⟩
  · rw [made.rep.resolve tidy, Store.file_eq walk new, Option.map_some, made.kind]
  · apply made.rep.fetchHeader tidy.toLaid
    rw [sector]
    exact new
  · rw [tidy.shaped new |>.fileLength (by have := tidy.length_le new; omega), made.length]

/-- **`Create` accepts the size exactly**: each level of `Allocate` decides as in exact
arithmetic, and a header or a file is made for no negative size and with the length asked for. -/
structure AcceptsSize (size : Word) : Prop where
  decisions : ∀ s ∈ FileHeader.levels size, FileHeader.decisions s = .exact s.toInt
  header : ∀ {n : Nat} {b b' : Bitmap n} {h : FileHeader}, n < 2 ^ 31 → FileHeader.allocate b size = .ok (some (h, b')) →
    0 ≤ size.toInt ∧ h.fileLength = size.toInt
  create : ∀ {m : Machine} {junk : Word} {path : CString} {d' : Disk}, Reach system Allowed m → DirParents m.disk path →
    m.fs.create m.disk junk path size = .ok (true, d') → 0 ≤ size.toInt ∧
      ∃ sector hdr, resolve d' (pathNames path) = some (sector, false) ∧ FileHeader.fetchFrom d' sector = .ok hdr ∧
        hdr.fileLength = size.toInt

/-- **The sizes that are accepted exactly** are those that are not negative. -/
theorem acceptsSize_iff (size : Word) : AcceptsSize size ↔ 0 ≤ size.toInt := by
  constructor
  · intro accepts
    by_contra negative
    have top : size ∈ FileHeader.levels size := by
      rw [FileHeader.levels]
      exact List.mem_cons_self
    exact FileHeader.decisions_negative (by omega) (accepts.decisions size top)
  · intro nonneg
    have length : (allocLength size : Int) = size.toInt := by rw [allocLength_of_nonneg nonneg, toInt_of_nonneg nonneg]
    refine ⟨fun s mem => FileHeader.decisions_exact (FileHeader.levels_nonneg size nonneg s mem), fun hn success => ⟨nonneg, ?_⟩,
      fun reach dirs call => ⟨nonneg, ?_⟩⟩
    · have shaped := (FileHeader.allocate_some hn.le success).shaped
      rw [← length]
      apply shaped.fileLength
      have := BitVec.toInt_lt (x := size)
      omega
    · obtain ⟨S, inv⟩ := Invariant.of_reach reach
      obtain ⟨⟨parent, name⟩, split, -⟩ := bind_ok call
      rcases inv.mounted.create inv.sound _ split ((inv.mounted.rep.dirsAlong inv.sound.toTidy).2 (parentNames_eq split ▸ dirs)) size with
        ⟨-, e⟩ | ⟨-, d₁, p, u, i, s, v, b, made, e⟩
      · rw [e] at call
        cases call
      · rw [e] at call
        cases call
        obtain ⟨sector, resolved, hdr, fetched, measured⟩ := made.header inv.sound
        rw [pathNames_eq split]
        exact ⟨sector, hdr, resolved, fetched, measured.trans length⟩

/-- A file of size -1 is created, and is 3712 bytes long. -/
theorem create_negative : ∃ m d' sector hdr, system.init m ∧
    m.fs.create m.disk 0 (pathString [.single 102 (by decide)]) (-1) = .ok (true, d') ∧
    resolve d' (pathNames (pathString [.single 102 (by decide)])) = some (sector, false) ∧
    FileHeader.fetchFrom d' sector = .ok hdr ∧ hdr.fileLength = 3712 ∧ ¬ AcceptsSize (-1) := by
  obtain ⟨d, fs, S, formatted, fresh⟩ := format_spec fun _ => .tabulate fun _ => 0
  obtain ⟨parent, d', u, i, s, v, b, top, made, call⟩ := fresh.create 0 (.single 102 (by decide)) (-1)
    (by rw [sectorsNeeded_eq]; decide)
  obtain ⟨sector, resolved, hdr, fetched, length⟩ := made.header fresh.sound
  have path : pathNames (pathString [.single 102 (by decide)]) = tokens parent ++ [[102]] := by
    rw [top]
    rfl
  have init : system.init ⟨d, fs, fun _ => none⟩ := ⟨⟨_, formatted⟩, fun _ => rfl⟩
  refine ⟨⟨d, fs, fun _ => none⟩, d', sector, hdr, init, call, ?_, fetched, ?_, ?_⟩
  · rw [path]
    exact resolved
  · rw [length]
    rfl
  · intro accepts
    exact absurd (accepts.create (.init init) (fresh.dirParents _) call).1 (by decide)

end Nachos.Mp4
