import Nachos.Base.Writes
import Nachos.Mp2.Spaces

/-!
# What `Load` leaves

`Load` takes the first free frames in order, zeroes them and copies the segments in by pieces
of a page, each to where its first byte is mapped. Main memory is described by the log of these
writes, and the page table by its frames and read-only bits.
-/

namespace Nachos.Mp2
open Bytes Transition

theorem divRoundUp_page (n : ℕ) : divRoundUp n pageSize = (n + 127) / 128 := by
  unfold divRoundUp pageSize
  split <;> omega

namespace Memory

variable {m m' : Memory} {n i f : ℕ} {rest : List ℕ}

/-- The free frames, in the order in which `Find_Frame` takes them. -/
def freeFrames (m : Memory) : List ℕ := (List.range numPhysPages).filter fun i => m.frameTableStatus i = false

/-- The memory with frame `f` taken. -/
def take (m : Memory) (f : ℕ) : Memory := { m with frameTableStatus := Function.update m.frameTableStatus f true }

theorem mem_freeFrames : f ∈ m.freeFrames ↔ f < numPhysPages ∧ m.frameTableStatus f = false := by
  rw [freeFrames, List.mem_filter, List.mem_range, decide_eq_true_eq]

theorem sorted_freeFrames (m : Memory) : m.freeFrames.Pairwise (· < ·) := List.pairwise_lt_range.filter _

theorem length_freeFrames_le (m : Memory) : m.freeFrames.length ≤ numPhysPages := by
  have := List.length_filter_le (fun i => decide (m.frameTableStatus i = false)) (List.range numPhysPages)
  rwa [List.length_range] at this

theorem findFrame_eq (m : Memory) : m.findFrame = m.freeFrames.head?.map fun f => (f, m.take f) := by
  rw [findFrame, freeFrames, List.head?_filter]
  cases (List.range numPhysPages).find? fun i => decide (m.frameTableStatus i = false) <;> rfl

/-- Taking the first free frame leaves the others free. -/
theorem freeFrames_take (first : m.freeFrames = f :: rest) : (m.take f).freeFrames = rest := by
  have nodup : (f :: rest).Nodup := first ▸ (sorted_freeFrames m).imp Nat.ne_of_lt
  have fresh := (List.nodup_cons.1 nodup).1
  have both : (m.take f).freeFrames = m.freeFrames.filter fun i => i ≠ f := by
    rw [freeFrames, freeFrames, List.filter_filter]
    apply List.filter_congr
    intro i _
    by_cases same : i = f
    · simp [take, same]
    · simp [take, same]
  rw [both, first, List.filter_cons_of_neg (by simp), List.filter_eq_self]
  intro i mem
  rw [decide_eq_true_eq]
  rintro rfl
  exact fresh mem

/-- The write of `bzero` on a frame. -/
def zeroWrite (f : ℕ) : Write := (f * pageSize, List.replicate pageSize 0)

theorem freeFrames_bzero (m : Memory) (f : ℕ) : (m.bzero f).freeFrames = m.freeFrames := rfl

/-- With too few free frames the loop of `Load` does not return. -/
theorem buildPages_short (short : m.freeFrames.length < n) : m.buildPages n i = none := by
  induction n generalizing m i with
  | zero => exact absurd short (Nat.not_lt_zero _)
  | succ n ih =>
    rw [buildPages, findFrame_eq]
    cases free : m.freeFrames with
    | nil => rfl
    | cons f rest =>
      rw [free, List.length_cons] at short
      have fewer : ((m.take f).bzero f).buildPages n (i + 1) = none := by
        apply ih
        rw [freeFrames_bzero, freeFrames_take free]
        omega
      change (((m.take f).bzero f).buildPages n (i + 1)).bind _ = none
      rw [fewer]
      rfl

/-- The table the loop of `Load` builds takes the first free frames. -/
theorem buildPages_enough (enough : n ≤ m.freeFrames.length) : ∃ table m', m.buildPages n i = some (table, m') ∧
    table.map (·.physicalPage) = m.freeFrames.take n ∧ (∀ e ∈ table, e.readOnly = false) ∧
    m'.mainMemory = applyLog m.mainMemory ((m.freeFrames.take n).map zeroWrite) ∧ m'.freeFrames = m.freeFrames.drop n := by
  induction n generalizing m i with
  | zero => exact ⟨[], m, rfl, rfl, List.forall_mem_nil _, rfl, rfl⟩
  | succ n ih =>
    cases free : m.freeFrames with
    | nil =>
      rw [free] at enough
      exact absurd enough (by simp)
    | cons f rest =>
      have left : ((m.take f).bzero f).freeFrames = rest := by rw [freeFrames_bzero, freeFrames_take free]
      rw [free, List.length_cons] at enough
      obtain ⟨table, m', built, frames, open', memory, others⟩ := ih (m := (m.take f).bzero f) (i := i + 1) (by rw [left]; omega)
      refine ⟨⟨i, f, true, false, false, false⟩ :: table, m', ?_, ?_, ?_, ?_, ?_⟩
      · rw [buildPages, findFrame_eq, free]
        change (((m.take f).bzero f).buildPages n (i + 1)).bind _ = _
        rw [built]
        rfl
      · rw [List.map_cons, frames, left, List.take_succ_cons]
      · exact List.forall_mem_cons.2 ⟨rfl, open'⟩
      · rw [memory, left, List.take_succ_cons, List.map_cons]
        rfl
      · rw [others, left]
        rfl

end Memory

/-! ## The pieces of a segment -/

namespace AddrSpace

variable {s s' : AddrSpace} {m m' : Memory} {file : List Byte} {seg : Segment} {frames : List ℕ} {n i v : ℕ}

/-- Where a table with the given frames maps a virtual address. -/
def physAddr (frames : List ℕ) (v : ℕ) : ℕ := frames.getD (v / pageSize) 0 * pageSize + v % pageSize

/-- What a translation for reading leaves alone: frames and read-only bits. -/
def protection (s : AddrSpace) : List (ℕ × Bool) := s.pageTable.map fun e => (e.physicalPage, e.readOnly)

theorem frames_eq_protection (s : AddrSpace) : s.frames = s.protection.map Prod.fst := by
  rw [frames, protection, List.map_map]
  rfl

theorem frames_of_protection (same : s'.protection = s.protection) : s'.frames = s.frames := by
  rw [frames_eq_protection, frames_eq_protection, same]

theorem protection_touch (vpn : ℕ) (writing : Bool) : (s.touch vpn writing).protection = s.protection := by
  apply List.ext_getElem?
  intro i
  rw [protection, protection, touch, modify, List.getElem?_map, List.getElem?_map, List.getElem?_modify]
  cases s.pageTable[i]? with
  | none => rfl
  | some e =>
    apply congrArg some
    by_cases same : vpn = i
    · simp [same]
    · simp [same]

/-- A page of the table is mapped to a frame. -/
theorem translate_eq (mapped : s.frames = frames) (bound : ∀ f ∈ frames, f < numPhysPages) (inside : v / pageSize < frames.length) :
    s.translate v false = .ok (physAddr frames v, s.touch (v / pageSize) false) := by
  subst mapped
  rw [frames, List.length_map] at inside
  have entry : s.pageTable[v / pageSize]? = some (s.pageTable[v / pageSize]) := List.getElem?_eq_getElem inside
  have frame : s.frames.getD (v / pageSize) 0 = (s.pageTable[v / pageSize]).physicalPage := by
    rw [frames, List.getD_eq_getElem?_getD, List.getElem?_map, entry]
    rfl
  have small : (s.pageTable[v / pageSize]).physicalPage < numPhysPages :=
    bound _ (List.mem_map_of_mem (List.getElem_mem inside))
  rw [translate, entry]
  dsimp only
  rw [if_neg (fun both => by cases both.1), if_neg (Nat.not_le.2 small), physAddr, frame]

/-- Piece `j` of a segment as `Load` writes it. -/
def piece (frames : List ℕ) (file : List Byte) (seg : Segment) (j : ℕ) : Write :=
  (physAddr frames (seg.virtualAddr.toNat + pageSize * j),
    (file.drop (seg.inFileAddr.toNat + pageSize * j)).take (min pageSize (seg.size.toNat - pageSize * j)))

/-- The writes for a segment. -/
def segmentLog (frames : List ℕ) (file : List Byte) (seg : Segment) : List Write :=
  (List.range (pageAmount seg)).map (piece frames file seg)

/-- A segment with bytes lies inside the first `n` pages, and its bytes have positions in a file. -/
structure Inside (seg : Segment) (n : ℕ) : Prop where
  nonneg : 0 ≤ seg.size.toInt
  pages : 0 < seg.size.toNat → seg.virtualAddr.toNat + seg.size.toNat ≤ n * pageSize
  position : 0 < seg.size.toNat → 0 ≤ seg.inFileAddr.toInt ∧ seg.inFileAddr.toNat + seg.size.toNat < 2 ^ 31

theorem toNat_add_ofNat (w : Word) (k : ℕ) (fits : w.toNat + k < 2 ^ 32) : (w + BitVec.ofNat 32 k).toNat = w.toNat + k := by
  rw [BitVec.toNat_add, BitVec.toNat_ofNat]
  omega

theorem toInt_of_small {w : Word} (small : w.toNat < 2 ^ 31) : w.toInt = w.toNat := by
  rw [BitVec.toInt_eq_toNat_cond, if_pos (by omega)]

theorem copyPieces_eq (inside : Inside seg frames.length) (short : frames.length ≤ numPhysPages) (mapped : s.frames = frames)
    (bound : ∀ f ∈ frames, f < numPhysPages) (all : i + n = pageAmount seg) : ∃ s', copyPieces file seg n i s m =
      some (s', ⟨m.frameTableStatus, applyLog m.mainMemory ((List.range' i n).map (piece frames file seg))⟩) ∧
      s'.protection = s.protection := by
  induction n generalizing s m i with
  | zero => exact ⟨s, rfl, rfl⟩
  | succ n ih =>
    have amount : pageAmount seg = (seg.size.toNat + 127) / 128 := divRoundUp_page _
    have page : pageSize = 128 := rfl
    have memory : numPhysPages = 128 := rfl
    have bytes : frames.length * pageSize = frames.length * 128 ∧ pageSize * i = 128 * i ∧ i * pageSize = 128 * i := by
      rw [page]
      omega
    have nonempty : 0 < seg.size.toNat := by omega
    have pages := inside.pages nonempty
    obtain ⟨-, position⟩ := inside.position nonempty
    have here : (seg.virtualAddr.toNat + pageSize * i) / pageSize < frames.length := by
      rw [page]
      omega
    have addr : (seg.virtualAddr + BitVec.ofNat 32 (pageSize * i)).toNat = seg.virtualAddr.toNat + pageSize * i :=
      toNat_add_ofNat _ _ (by omega)
    have offset : (seg.inFileAddr + BitVec.ofNat 32 (pageSize * i)).toInt = (seg.inFileAddr.toNat + pageSize * i : ℕ) := by
      rw [toInt_of_small, toNat_add_ofNat _ _ (by omega)]
      rw [toNat_add_ofNat _ _ (by omega)]
      omega
    have size : (if n = 0 then seg.size.toNat - i * pageSize else pageSize) = min pageSize (seg.size.toNat - pageSize * i) := by
      split
      · omega
      · omega
    have read : m.readAt file (physAddr frames (seg.virtualAddr.toNat + pageSize * i)) (min pageSize (seg.size.toNat - pageSize * i))
        (seg.inFileAddr.toNat + pageSize * i : ℕ) =
        some ⟨m.frameTableStatus, Write.apply m.mainMemory (piece frames file seg i)⟩ := by
      rw [Memory.readAt, if_neg (by omega), Int.toNat_natCast]
      rfl
    simp only [copyPieces]
    rw [addr, translate_eq mapped bound here]
    dsimp only
    rw [offset, size, read]
    dsimp only
    obtain ⟨s', run, same⟩ := ih (s := s.touch ((seg.virtualAddr.toNat + pageSize * i) / pageSize) false)
      (m := ⟨m.frameTableStatus, Write.apply m.mainMemory (piece frames file seg i)⟩) (i := i + 1)
      ((frames_of_protection (protection_touch _ _)).trans mapped) (by omega)
    exact ⟨s', run, same.trans (protection_touch _ _)⟩

theorem pageAmount_zero (inside : Inside seg n) (empty : ¬ 0 < seg.size.toInt) : pageAmount seg = 0 := by
  have nonneg := inside.nonneg
  have size := BitVec.toInt_eq_toNat_cond seg.size
  have zero : seg.size.toNat = 0 := by
    split at size <;> omega
  rw [pageAmount, divRoundUp_page, zero]

/-- **A segment is copied** by the writes of its pieces. -/
theorem copySegment_eq (file : List Byte) (inside : Inside seg frames.length) (short : frames.length ≤ numPhysPages) (mapped : s.frames = frames)
    (bound : ∀ f ∈ frames, f < numPhysPages) : ∃ s', copySegment file seg s m =
      some (s', ⟨m.frameTableStatus, applyLog m.mainMemory (segmentLog frames file seg)⟩) ∧ s'.protection = s.protection := by
  rw [copySegment, segmentLog, List.range_eq_range']
  split
  · exact copyPieces_eq inside short mapped bound (Nat.zero_add _)
  · rw [pageAmount_zero inside ‹_›]
    exact ⟨s, rfl, rfl⟩

/-! ## The read-only bits -/

/-- The pages that the loop over the read-only data marks. -/
def Marks (seg : Segment) (p : ℕ) : Prop :=
  seg.virtualAddr.toNat / pageSize ≤ p ∧ p < seg.virtualAddr.toNat / pageSize + pageAmount seg

/-- The page is marked `readOnly`. -/
def ReadOnly (s : AddrSpace) (p : ℕ) : Prop := ∃ e, s.pageTable[p]? = some e ∧ e.readOnly = true

theorem readOnly_of_protection (same : s'.protection = s.protection) (p : ℕ) : s'.ReadOnly p ↔ s.ReadOnly p := by
  have iff (t : AddrSpace) : t.ReadOnly p ↔ t.protection[p]?.map Prod.snd = some true := by
    rw [ReadOnly, protection, List.getElem?_map, Option.map_map]
    exact Option.map_eq_some_iff.symm
  rw [iff, iff, same]

theorem readOnly_modify {q : ℕ} (inside : q < s.numPages) (p : ℕ) :
    (s.modify q fun e => { e with readOnly := true }).ReadOnly p ↔ s.ReadOnly p ∨ p = q := by
  rw [ReadOnly, ReadOnly, modify, List.getElem?_modify]
  by_cases same : q = p
  · subst same
    rw [List.getElem?_eq_getElem inside]
    simp
  · simp [same, Ne.symm same]

/-- The loop stays inside the table. -/
theorem Inside.pageNum (inside : Inside seg n) (short : n ≤ numPhysPages) (lt : i < pageAmount seg) :
    seg.virtualAddr.toInt.tdiv pageSize + i = (seg.virtualAddr.toNat / pageSize + i : ℕ) ∧
      seg.virtualAddr.toNat / pageSize + i < n := by
  have page : pageSize = 128 := rfl
  have memory : numPhysPages = 128 := rfl
  rw [pageAmount, divRoundUp_page] at lt
  have pages := inside.pages (by omega)
  rw [page] at pages
  constructor
  · rw [toInt_of_small (by omega), Int.tdiv_eq_ediv_of_nonneg (Int.natCast_nonneg _)]
    rfl
  · rw [page]
    omega

theorem markReadOnly_eq (inside : Inside seg s.numPages) (short : s.numPages ≤ numPhysPages) (all : i + n = pageAmount seg) :
    ∃ s', markReadOnly seg n i s = some s' ∧ ∀ p, s'.ReadOnly p ↔
      s.ReadOnly p ∨ seg.virtualAddr.toNat / pageSize + i ≤ p ∧ p < seg.virtualAddr.toNat / pageSize + i + n := by
  induction n generalizing s i with
  | zero =>
    refine ⟨s, rfl, fun p => ?_⟩
    constructor
    · exact .inl
    · rintro (marked | outside)
      · exact marked
      · omega
  | succ n ih =>
    obtain ⟨number, here⟩ := inside.pageNum short (i := i) (by omega)
    have same (f : TranslationEntry → TranslationEntry) (q : ℕ) : (s.modify q f).numPages = s.numPages := List.length_modify ..
    obtain ⟨s', run, bits⟩ := ih (s := s.modify (seg.virtualAddr.toNat / pageSize + i) fun e => { e with readOnly := true })
      (i := i + 1) (by rwa [same]) (by rwa [same]) (by omega)
    refine ⟨s', ?_, fun p => ?_⟩
    · simp only [markReadOnly, number]
      rw [if_pos ⟨Int.natCast_nonneg _, Int.ofNat_lt.2 here⟩, Int.toNat_natCast]
      exact run
    · rw [bits, readOnly_modify here]
      constructor
      · rintro ((old | rfl) | later)
        · exact .inl old
        · exact .inr ⟨le_rfl, by omega⟩
        · exact .inr ⟨by omega, by omega⟩
      · rintro (old | marked)
        · exact .inl (.inl old)
        · by_cases first : p = seg.virtualAddr.toNat / pageSize + i
          · exact .inl (.inr first)
          · exact .inr ⟨by omega, by omega⟩

/-- **The read-only bits** after the loop. -/
theorem markSegment_eq (inside : Inside seg s.numPages) (short : s.numPages ≤ numPhysPages) :
    ∃ s', markSegment seg s = some s' ∧ ∀ p, s'.ReadOnly p ↔ s.ReadOnly p ∨ Marks seg p := by
  rw [markSegment]
  split
  · exact markReadOnly_eq inside short (Nat.zero_add _)
  · have empty : pageAmount seg = 0 := pageAmount_zero inside ‹_›
    refine ⟨s, rfl, fun p => ?_⟩
    rw [Marks, empty]
    constructor
    · exact .inl
    · rintro (marked | outside)
      · exact marked
      · omega

end AddrSpace

open AddrSpace

/-! ## The whole call -/

/-- The segments that `Load` copies. -/
def NoffHeader.segments (h : NoffHeader) : List Segment := [h.code, h.initData, h.readonlyData]

/-- No virtual address is in both segments. -/
def Segment.Apart (a b : Segment) : Prop :=
  ∀ k < a.size.toNat, ∀ l < b.size.toNat, a.virtualAddr.toNat + k ≠ b.virtualAddr.toNat + l

/-- A NOFF header whose segments lie inside the address space and apart from each other. -/
structure NoffHeader.Fits (h : NoffHeader) : Prop where
  magic : h.noffMagic = Mp2.noffMagic
  inside : ∀ seg ∈ h.segments, Inside seg h.numPages
  apart : h.segments.Pairwise Segment.Apart

instance {seg : Segment} {n : ℕ} : Decidable (Inside seg n) :=
  decidable_of_iff (0 ≤ seg.size.toInt ∧ (0 < seg.size.toNat → seg.virtualAddr.toNat + seg.size.toNat ≤ n * pageSize) ∧
    (0 < seg.size.toNat → 0 ≤ seg.inFileAddr.toInt ∧ seg.inFileAddr.toNat + seg.size.toNat < 2 ^ 31))
    ⟨fun ⟨nonneg, pages, position⟩ => ⟨nonneg, pages, position⟩, fun inside => ⟨inside.nonneg, inside.pages, inside.position⟩⟩

/-- One segment ends before the other starts. -/
def Segment.Clear (a b : Segment) : Prop :=
  a.virtualAddr.toNat + a.size.toNat ≤ b.virtualAddr.toNat ∨ b.virtualAddr.toNat + b.size.toNat ≤ a.virtualAddr.toNat

instance (a b : Segment) : Decidable (a.Clear b) := inferInstanceAs (Decidable (_ ∨ _))

theorem Segment.Clear.apart {a b : Segment} (clear : a.Clear b) : a.Apart b := by
  intro k hk l hl
  obtain before | behind := clear
  · omega
  · omega

/-- The check of a header that is given. -/
theorem NoffHeader.fits_of_clear {h : NoffHeader} (magic : h.noffMagic = Mp2.noffMagic)
    (inside : ∀ seg ∈ h.segments, Inside seg h.numPages) (clear : h.segments.Pairwise Segment.Clear) : h.Fits :=
  ⟨magic, inside, clear.imp Segment.Clear.apart⟩

/-- The frames `Load` takes for a header. -/
def Memory.granted (m : Memory) (h : NoffHeader) : List ℕ := m.freeFrames.take h.numPages

/-- The writes of `Load`. -/
def loadLog (frames : List ℕ) (exe : Executable) : List Write :=
  frames.map Memory.zeroWrite ++ exe.header.segments.flatMap (segmentLog frames exe.file)

/-- What `Load` leaves. -/
structure Loaded (m : Memory) (exe : Executable) (a : AddrSpace) (m' : Memory) : Prop where
  frames : a.frames = m.granted exe.header
  memory : m'.mainMemory = applyLog m.mainMemory (loadLog (m.granted exe.header) exe)
  readOnly : ∀ p, a.ReadOnly p ↔ Marks exe.header.readonlyData p

variable {m m' : Memory} {exe : Executable} {a : AddrSpace}

/-- **`Load` does not return** when too few frames are free. -/
theorem load_short (magic : exe.header.noffMagic = noffMagic) (short : m.freeFrames.length < exe.header.numPages) :
    AddrSpace.load m (some exe) = none := by
  unfold AddrSpace.load
  dsimp only
  rw [if_neg (not_not.2 magic)]
  split
  · rfl
  · rw [Memory.buildPages_short short]
    rfl

/-- The three segments are copied, and the read-only bits set. -/
theorem copySegments_eq {s : AddrSpace} {frames : List ℕ} (inside : ∀ seg ∈ exe.header.segments, Inside seg frames.length)
    (short : frames.length ≤ numPhysPages) (mapped : s.frames = frames) (bound : ∀ f ∈ frames, f < numPhysPages) :
    ∃ s', copySegments exe s m = some (s', ⟨m.frameTableStatus,
      applyLog m.mainMemory (exe.header.segments.flatMap (segmentLog frames exe.file))⟩) ∧
      s'.frames = frames ∧ ∀ p, s'.ReadOnly p ↔ s.ReadOnly p ∨ Marks exe.header.readonlyData p := by
  simp only [NoffHeader.segments, List.forall_mem_cons] at inside
  obtain ⟨code, init, rdata, -⟩ := inside
  obtain ⟨s₁, run₁, same₁⟩ := copySegment_eq (m := m) exe.file code short mapped bound
  have mapped₁ := (frames_of_protection same₁).trans mapped
  obtain ⟨s₂, run₂, same₂⟩ := copySegment_eq (m := ⟨m.frameTableStatus,
    applyLog m.mainMemory (segmentLog frames exe.file exe.header.code)⟩) exe.file init short mapped₁ bound
  have mapped₂ := (frames_of_protection same₂).trans mapped₁
  have pages : s₂.numPages = frames.length := by rw [numPages_eq, mapped₂]
  obtain ⟨s₃, run₃, bits⟩ := markSegment_eq (s := s₂) (pages ▸ rdata) (pages ▸ short)
  have mapped₃ := (frames_of_mapping (markSegment_mapping run₃)).trans mapped₂
  obtain ⟨s₄, run₄, same₄⟩ := copySegment_eq (m := ⟨m.frameTableStatus,
    applyLog (applyLog m.mainMemory (segmentLog frames exe.file exe.header.code)) (segmentLog frames exe.file exe.header.initData)⟩)
    exe.file rdata short mapped₃ bound
  refine ⟨s₄, ?_, (frames_of_protection same₄).trans mapped₃, fun p => ?_⟩
  · have log : exe.header.segments.flatMap (segmentLog frames exe.file) = segmentLog frames exe.file exe.header.code ++
        (segmentLog frames exe.file exe.header.initData ++ segmentLog frames exe.file exe.header.readonlyData) := by
      simp [NoffHeader.segments]
    rw [log, applyLog_append, applyLog_append]
    simp only [copySegments, run₁, run₂, run₃, run₄, Option.bind_eq_bind, Option.bind_some]
  · rw [readOnly_of_protection same₄, bits, readOnly_of_protection same₂, readOnly_of_protection same₁]

/-- **`Load` returns TRUE** when there are frames for a header that fits, and leaves the other frames free. -/
theorem load_enough (exe : Executable) (fits : exe.header.Fits) (enough : exe.header.numPages ≤ m.freeFrames.length) :
    ∃ a m', AddrSpace.load m (some exe) = some (some a, m') ∧ Loaded m exe a m' ∧
      m'.freeFrames = m.freeFrames.drop exe.header.numPages := by
  have room := enough.trans (Memory.length_freeFrames_le m)
  obtain ⟨table, m₁, built, frames, unmarked, memory, others⟩ := Memory.buildPages_enough (i := 0) enough
  have len : (m.granted exe.header).length = exe.header.numPages := List.length_take_of_le enough
  have bound : ∀ f ∈ m.granted exe.header, f < numPhysPages :=
    fun f mem => (Memory.mem_freeFrames.1 (List.mem_of_mem_take mem)).1
  have inside : ∀ seg ∈ exe.header.segments, Inside seg (m.granted exe.header).length := by
    rw [len]
    exact fits.inside
  obtain ⟨a, run, mapped, bits⟩ := copySegments_eq (m := m₁) (s := ⟨table⟩) inside (len.le.trans room) frames bound
  refine ⟨a, ⟨m₁.frameTableStatus, applyLog m₁.mainMemory
    (exe.header.segments.flatMap (segmentLog (m.granted exe.header) exe.file))⟩, ?_, ⟨mapped, ?_, fun p => ?_⟩, others⟩
  · unfold AddrSpace.load
    dsimp only
    rw [if_neg (not_not.2 fits.magic), if_neg (Nat.not_lt.2 room), built]
    simp only [Option.bind_eq_bind, Option.bind_some, run]
    rfl
  · rw [loadLog, applyLog_append, memory]
    rfl
  · rw [bits]
    constructor
    · rintro (⟨e, here, marked⟩ | marks)
      · rw [unmarked e (List.mem_of_getElem? here)] at marked
        cases marked
      · exact marks
    · exact .inr

/-- What a call that returns TRUE has left. -/
theorem Loaded.of_load (fits : exe.header.Fits) (loaded : AddrSpace.load m (some exe) = some (some a, m')) :
    exe.header.numPages ≤ m.freeFrames.length ∧ Loaded m exe a m' := by
  by_cases enough : exe.header.numPages ≤ m.freeFrames.length
  · obtain ⟨b, m₁, run, left, -⟩ := load_enough exe fits enough
    rw [run] at loaded
    cases loaded
    exact ⟨enough, left⟩
  · rw [load_short fits.magic (Nat.not_le.1 enough)] at loaded
    cases loaded

/-! ## Too few frames -/

/-- The call returns FALSE, and neither the frame table nor a byte of a frame in use has changed. -/
def FailsCleanly (m : Memory) (exe : Executable) : Prop :=
  ∃ m', AddrSpace.load m (some exe) = some (none, m') ∧ m'.frameTableStatus = m.frameTableStatus ∧
    ∀ f, m.frameTableStatus f = true → ∀ x, InFrame f x → m'.mainMemory x = m.mainMemory x

/-- **`Load` never fails cleanly**: with too few frames `ExceptionHandler` stops the kernel, before
the `return false` behind it. -/
theorem not_failsCleanly (magic : exe.header.noffMagic = noffMagic) (short : m.freeFrames.length < exe.header.numPages) :
    ¬ FailsCleanly m exe := by
  rintro ⟨m', returned, -⟩
  rw [load_short magic short] at returned
  cases returned

/-- A program with 15000 bytes of data that is zero at the start. -/
def large : Executable := ⟨⟨noffMagic, ⟨0, 0, 0⟩, ⟨0, 0, 0⟩, ⟨0, 0, 0⟩, ⟨0, 0, 15000⟩⟩, []⟩

namespace Spaces

def loadLarge : List (Event Bool) := [.load false (some large)]

theorem large_fits : large.header.Fits := NoffHeader.fits_of_clear rfl (by decide +kernel) (by decide +kernel)

/-- At the start every frame is free. -/
theorem freeFrames_start : (start : Spaces Bool).memory.freeFrames = List.range numPhysPages :=
  List.filter_eq_self.2 fun _ _ => rfl

theorem step_load {s : Spaces Bool} {t : Bool} {exe : Option Executable} {r : Option AddrSpace × Memory} (fresh : s.space t = none)
    (run : AddrSpace.load s.memory exe = some r) : s.step (.load t exe) = some (s.put r.2 t r.1) := by
  rw [step, Spaces.load, fresh]
  dsimp only
  rw [run]
  rfl

/-- The program takes 126 of the 128 frames. -/
theorem loadLarge_eq : ∃ a m', loadLarge.foldlM step start = some (start.put m' false (some a)) ∧ m'.freeFrames = [126, 127] := by
  have pages : large.header.numPages = 126 := by decide +kernel
  have enough : large.header.numPages ≤ (start : Spaces Bool).memory.freeFrames.length := by
    rw [freeFrames_start, pages, List.length_range]
    decide
  obtain ⟨a, m', run, -, left⟩ := load_enough large large_fits enough
  refine ⟨a, m', ?_, ?_⟩
  · rw [loadLarge, List.foldlM_cons, step_load rfl run]
    rfl
  · rw [left, freeFrames_start, pages]
    decide

theorem loadLarge_isSome : (loadLarge.foldlM step start).isSome := by
  obtain ⟨a, m', run, -⟩ := loadLarge_eq
  rw [run]
  rfl

/-- Two frames are free. -/
def crowded : Spaces Bool := (loadLarge.foldlM step start).get loadLarge_isSome

theorem reach_crowded : Reach (spaces Bool) (fun _ _ => True) crowded := by
  have begin : Reach (spaces Bool) (fun _ _ => True) start := .init ⟨rfl, fun _ => rfl⟩
  exact begin.run step (fun _ _ _ done => done) loadLarge (Option.some_get loadLarge_isSome).symm

theorem freeFrames_crowded : crowded.memory.freeFrames = [126, 127] := by
  obtain ⟨a, m', run, left⟩ := loadLarge_eq
  have there : crowded = start.put m' false (some a) := Option.get_of_eq_some _ run
  rw [there]
  exact left

theorem short_crowded : crowded.memory.freeFrames.length < exits.header.numPages := by
  rw [freeFrames_crowded]
  decide +kernel

end Spaces

theorem not_failsCleanly_crowded : ¬ FailsCleanly Spaces.crowded.memory Spaces.exits :=
  not_failsCleanly rfl Spaces.short_crowded

/-- The kernel stops instead of starting the second program. -/
theorem kernel_stops : ∃ s, Reach (spaces Bool) (fun _ _ => True) s ∧ s.memory.freeFrames.length < Spaces.exits.header.numPages ∧
    AddrSpace.load s.memory (some Spaces.exits) = none ∧ ¬ FailsCleanly s.memory Spaces.exits := by
  have stopped : AddrSpace.load Spaces.crowded.memory (some Spaces.exits) = none := load_short rfl Spaces.short_crowded
  refine ⟨Spaces.crowded, Spaces.reach_crowded, Spaces.short_crowded, stopped, ?_⟩
  rintro ⟨m', returned, -⟩
  rw [stopped] at returned
  cases returned

end Nachos.Mp2
