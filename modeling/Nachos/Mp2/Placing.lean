import Nachos.Mp2.Loading

/-!
# Where `Load` puts the bytes of a program

A piece of a segment is stored from where its first byte is mapped. If it runs over the end of
a page it goes on in the frame behind, which is the one of the next page only when the two
frames are neighbours. So `Load` places every byte of every file exactly when the segments
start on page boundaries or get frames that follow each other.
-/

namespace Nachos.Mp2
open Bytes AddrSpace Transition

/-- The page boundaries inside a segment that does not start on one join neighbouring frames. -/
def Segment.Joined (seg : Segment) (frames : List ℕ) : Prop :=
  seg.virtualAddr.toNat % pageSize = 0 ∨ ∀ q, seg.virtualAddr.toNat < (q + 1) * pageSize →
    (q + 1) * pageSize < seg.virtualAddr.toNat + seg.size.toNat → frames.getD (q + 1) 0 = frames.getD q 0 + 1

/-- The file has the bytes of every segment. -/
def Executable.LongEnough (exe : Executable) : Prop :=
  ∀ seg ∈ exe.header.segments, 0 < seg.size.toNat → seg.inFileAddr.toNat + seg.size.toNat ≤ exe.file.length

/-- Every byte of the program is where its address is mapped, the others of the space are zero,
and nothing else has changed. -/
structure Placed (m : Memory) (exe : Executable) (a : AddrSpace) (m' : Memory) : Prop where
  bytes : ∀ seg ∈ exe.header.segments, ∀ k < seg.size.toNat, ∃ p b,
    a.translate (seg.virtualAddr.toNat + k) false = .ok (p, b) ∧ m'.mainMemory p = exe.file.getD (seg.inFileAddr.toNat + k) 0
  rest : ∀ v < exe.header.numPages * pageSize,
    (∀ seg ∈ exe.header.segments, ∀ k < seg.size.toNat, v ≠ seg.virtualAddr.toNat + k) →
    ∃ p b, a.translate v false = .ok (p, b) ∧ m'.mainMemory p = 0
  outside : ∀ x, (∀ f ∈ a.frames, ¬ InFrame f x) → m'.mainMemory x = m.mainMemory x

variable {m m' : Memory} {exe : Executable} {a : AddrSpace} {seg seg' : Segment} {frames : List ℕ} {file : List Byte}
  {v w j k n : ℕ} {x : ℤ}

theorem page_eq : pageSize = 128 := rfl

/-! ## Addresses of a table -/

theorem getD_mem {i : ℕ} (inside : i < frames.length) : frames.getD i 0 ∈ frames := by
  rw [List.getD_eq_getElem _ _ inside]
  exact List.getElem_mem inside

/-- The frames of a table are different. -/
theorem getD_inj (nodup : frames.Nodup) {i l : ℕ} (hi : i < frames.length) (hl : l < frames.length)
    (same : frames.getD i 0 = frames.getD l 0) : i = l := by
  rw [List.getD_eq_getElem _ _ hi, List.getD_eq_getElem _ _ hl] at same
  exact (List.Nodup.getElem_inj_iff nodup).1 same

/-- Different addresses are mapped to different places. -/
theorem physAddr_inj (nodup : frames.Nodup) (hv : v < frames.length * pageSize) (hw : w < frames.length * pageSize)
    (same : physAddr frames v = physAddr frames w) : v = w := by
  unfold physAddr at same
  rw [page_eq] at *
  have index : v / 128 = w / 128 := getD_inj nodup (by omega) (by omega) (by omega)
  rw [index] at same
  omega

theorem inFrame_physAddr (frames : List ℕ) (v : ℕ) : InFrame (frames.getD (v / pageSize) 0) (physAddr frames v) := by
  have := Nat.mod_lt v (show 0 < pageSize by decide)
  rw [InFrame, physAddr]
  push_cast
  omega

/-- In a joined segment the bytes of a piece follow each other in memory. -/
theorem Segment.Joined.physAddr_add (joined : seg.Joined frames) {l : ℕ} (short : l < pageSize)
    (inside : pageSize * j + l < seg.size.toNat) :
    physAddr frames (seg.virtualAddr.toNat + pageSize * j) + l = physAddr frames (seg.virtualAddr.toNat + (pageSize * j + l)) := by
  unfold Segment.Joined at joined
  unfold physAddr
  rw [page_eq] at *
  by_cases within : (seg.virtualAddr.toNat + 128 * j) % 128 + l < 128
  · rw [show (seg.virtualAddr.toNat + (128 * j + l)) / 128 = (seg.virtualAddr.toNat + 128 * j) / 128 by omega]
    omega
  · have next := (joined.resolve_left (by omega)) ((seg.virtualAddr.toNat + 128 * j) / 128) (by omega) (by omega)
    rw [show (seg.virtualAddr.toNat + (128 * j + l)) / 128 = (seg.virtualAddr.toNat + 128 * j) / 128 + 1 by omega, next]
    omega

/-! ## What the writes cover -/

theorem zeroWrite_covers {f : ℕ} : (Memory.zeroWrite f).Covers x ↔ InFrame f x := by
  rw [Write.Covers, Memory.zeroWrite, List.length_replicate, InFrame]

theorem zeroWrite_byteAt {f : ℕ} : (Memory.zeroWrite f).byteAt x = 0 := by
  rw [Write.byteAt, Memory.zeroWrite, List.getD_eq_getElem?_getD, List.getElem?_replicate]
  split <;> rfl

/-- The bytes that a piece writes. -/
theorem piece_covers (long : seg.inFileAddr.toNat + seg.size.toNat ≤ file.length) :
    (piece frames file seg j).Covers x ↔ ∃ l < pageSize, pageSize * j + l < seg.size.toNat ∧
      x = (physAddr frames (seg.virtualAddr.toNat + pageSize * j) + l : ℕ) := by
  have len : (piece frames file seg j).2.length = min pageSize (seg.size.toNat - pageSize * j) := by
    rw [piece, List.length_take, List.length_drop]
    omega
  rw [Write.Covers, len, piece]
  constructor
  · rintro ⟨low, high⟩
    refine ⟨(x - physAddr frames (seg.virtualAddr.toNat + pageSize * j)).toNat, ?_, ?_, ?_⟩
    all_goals
      dsimp only at low high
      omega
  · rintro ⟨l, short, inside, rfl⟩
    dsimp only
    omega

theorem piece_byteAt {l : ℕ} (short : l < pageSize) (inside : pageSize * j + l < seg.size.toNat) :
    (piece frames file seg j).byteAt (physAddr frames (seg.virtualAddr.toNat + pageSize * j) + l : ℕ) =
      file.getD (seg.inFileAddr.toNat + (pageSize * j + l)) 0 := by
  rw [Write.byteAt, piece]
  dsimp only
  rw [show ((physAddr frames (seg.virtualAddr.toNat + pageSize * j) + l : ℕ) - (physAddr frames (seg.virtualAddr.toNat + pageSize * j) : ℤ)).toNat
    = l by omega]
  rw [List.getD_eq_getElem?_getD, List.getD_eq_getElem?_getD, List.getElem?_take_of_lt (by omega), List.getElem?_drop,
    Nat.add_assoc]

theorem mem_segmentsLog {w : Write} : w ∈ exe.header.segments.flatMap (segmentLog frames exe.file) ↔
    ∃ seg ∈ exe.header.segments, ∃ j < pageAmount seg, w = piece frames exe.file seg j := by
  simp only [List.mem_flatMap, segmentLog, List.mem_map, List.mem_range]
  constructor
  · rintro ⟨seg, mem, j, lt, rfl⟩
    exact ⟨seg, mem, j, lt, rfl⟩
  · rintro ⟨seg, mem, j, lt, rfl⟩
    exact ⟨seg, mem, j, lt, rfl⟩

/-- A segment has a virtual address to itself. -/
theorem NoffHeader.Fits.unique {h : NoffHeader} (fits : h.Fits) (mem : seg ∈ h.segments) (mem' : seg' ∈ h.segments) {l : ℕ}
    (hk : k < seg.size.toNat) (hl : l < seg'.size.toNat) (same : seg.virtualAddr.toNat + k = seg'.virtualAddr.toNat + l) :
    seg = seg' := by
  by_contra ne
  have symm : Std.Symm Segment.Apart := ⟨fun a b apart k hk l hl => (apart l hl k hk).symm⟩
  exact fits.apart.forall mem mem' ne k hk l hl same

/-! ## Joined segments -/

section
variable (fits : exe.header.Fits) (long : exe.LongEnough) (len : frames.length = exe.header.numPages)
include fits long len

/-- A write for a joined segment puts each byte where its address is mapped. -/
theorem covers_joined (joined : ∀ seg ∈ exe.header.segments, seg.Joined frames) {w : Write}
    (mem : w ∈ exe.header.segments.flatMap (segmentLog frames exe.file)) (covers : w.Covers x) :
    ∃ seg ∈ exe.header.segments, ∃ k < seg.size.toNat, seg.virtualAddr.toNat + k < frames.length * pageSize ∧
      x = physAddr frames (seg.virtualAddr.toNat + k) ∧ w.byteAt x = exe.file.getD (seg.inFileAddr.toNat + k) 0 := by
  obtain ⟨seg, among, j, lt, rfl⟩ := mem_segmentsLog.1 mem
  have nonempty : 0 < seg.size.toNat := by
    rw [pageAmount, divRoundUp_page] at lt
    omega
  obtain ⟨l, short, inside, rfl⟩ := (piece_covers (long seg among nonempty)).1 covers
  have pages := (fits.inside seg among).pages nonempty
  refine ⟨seg, among, pageSize * j + l, inside, ?_, ?_, piece_byteAt short inside⟩
  · rw [len]
    omega
  · rw [(joined seg among).physAddr_add short inside]

omit fits len in
/-- Each byte of a joined segment is written. -/
theorem covered_joined (joined : ∀ seg ∈ exe.header.segments, seg.Joined frames) (mem : seg ∈ exe.header.segments)
    (hk : k < seg.size.toNat) : ∃ w ∈ exe.header.segments.flatMap (segmentLog frames exe.file),
      w.Covers (physAddr frames (seg.virtualAddr.toNat + k)) := by
  have split : pageSize * (k / pageSize) + k % pageSize = k := Nat.div_add_mod k pageSize
  have short : k % pageSize < pageSize := Nat.mod_lt k (by decide)
  refine ⟨piece frames exe.file seg (k / pageSize), mem_segmentsLog.2 ⟨seg, mem, _, ?_, rfl⟩, ?_⟩
  · rw [pageAmount, divRoundUp_page, page_eq]
    omega
  · apply (piece_covers (long seg mem (by omega))).2
    refine ⟨k % pageSize, short, by omega, ?_⟩
    rw [(joined seg mem).physAddr_add short (by omega), split]

/-- **Joined segments are placed.** -/
theorem Loaded.placed (loaded : Loaded m exe a m') (granted : m.granted exe.header = frames) (nodup : frames.Nodup)
    (bound : ∀ f ∈ frames, f < numPhysPages) (joined : ∀ seg ∈ exe.header.segments, seg.Joined frames) : Placed m exe a m' := by
  have mapped : a.frames = frames := loaded.frames.trans granted
  have memory := loaded.memory
  rw [granted, loadLog, applyLog_append] at memory
  have page (v : ℕ) (hv : v < frames.length * pageSize) : v / pageSize < frames.length :=
    Nat.div_lt_of_lt_mul (by rwa [Nat.mul_comm])
  constructor
  · intro seg mem k hk
    have pages := (fits.inside seg mem).pages (by omega)
    have inside : seg.virtualAddr.toNat + k < frames.length * pageSize := by
      rw [len]
      omega
    refine ⟨_, _, translate_eq mapped bound (page _ inside), ?_⟩
    rw [memory]
    apply applyLog_covered (covered_joined long joined mem hk)
    intro w mem' covers
    obtain ⟨seg', mem', k', hk', inside', place, byte⟩ := covers_joined fits long len joined mem' covers
    have same := physAddr_inj nodup inside inside' (Int.ofNat_inj.1 place)
    obtain rfl := fits.unique mem mem' hk hk' same
    rw [byte, show k' = k by omega]
  · intro v hv alone
    have inside : v < frames.length * pageSize := len ▸ hv
    refine ⟨_, _, translate_eq mapped bound (page v inside), ?_⟩
    rw [memory, applyLog_other]
    · apply applyLog_covered
      · exact ⟨_, List.mem_map_of_mem (getD_mem (page v inside)), zeroWrite_covers.2 (inFrame_physAddr frames v)⟩
      · intro w mem _
        obtain ⟨f, -, rfl⟩ := List.mem_map.1 mem
        exact zeroWrite_byteAt
    · intro w mem covers
      obtain ⟨seg, mem, k, hk, inside', place, -⟩ := covers_joined fits long len joined mem covers
      exact alone seg mem k hk (physAddr_inj nodup inside inside' (Int.ofNat_inj.1 place))
  · intro x outside
    rw [mapped] at outside
    rw [memory, applyLog_other, applyLog_other]
    · intro w mem covers
      obtain ⟨f, among, rfl⟩ := List.mem_map.1 mem
      exact outside f among (zeroWrite_covers.1 covers)
    · intro w mem covers
      obtain ⟨seg, -, k, -, inside, rfl, -⟩ := covers_joined fits long len joined mem covers
      exact outside _ (getD_mem (page _ inside)) (inFrame_physAddr frames _)

end

/-! ## Boundaries that are not joined -/

/-- In an increasing table the frame before the next page's is this page's, if it is in the table at all. -/
theorem frame_before (sorted : frames.Pairwise (· < ·)) {i q : ℕ} (hi : i < frames.length) (hq : q + 1 < frames.length)
    (before : frames.getD (q + 1) 0 = frames.getD i 0 + 1) : frames.getD (q + 1) 0 = frames.getD q 0 + 1 := by
  have increasing := List.pairwise_iff_getElem.1 sorted
  have here : q < frames.length := by omega
  rw [List.getD_eq_getElem _ _ hq, List.getD_eq_getElem _ _ hi] at before
  rw [List.getD_eq_getElem _ _ hq, List.getD_eq_getElem _ _ here]
  have next := increasing q (q + 1) here hq (Nat.lt_succ_self q)
  obtain below | same | above := Nat.lt_trichotomy i q
  · have := increasing i q hi here below
    omega
  · subst same
    exact before
  · by_cases last : i = q + 1
    · subst last
      omega
    · have := increasing (q + 1) i hq hi (by omega)
      omega

/-- The first byte behind a boundary that joins no neighbours is in no piece. -/
theorem not_covers_boundary (fits : exe.header.Fits) (long : exe.LongEnough) (len : frames.length = exe.header.numPages)
    (sorted : frames.Pairwise (· < ·)) (mem : seg ∈ exe.header.segments) (unaligned : seg.virtualAddr.toNat % pageSize ≠ 0) {q : ℕ}
    (low : seg.virtualAddr.toNat < (q + 1) * pageSize) (high : (q + 1) * pageSize < seg.virtualAddr.toNat + seg.size.toNat)
    (apart : frames.getD (q + 1) 0 ≠ frames.getD q 0 + 1) {w : Write}
    (among : w ∈ exe.header.segments.flatMap (segmentLog frames exe.file)) : ¬ w.Covers (physAddr frames ((q + 1) * pageSize)) := by
  intro covers
  obtain ⟨seg', mem', j, lt, rfl⟩ := mem_segmentsLog.1 among
  have nonempty : 0 < seg'.size.toNat := by
    rw [pageAmount, divRoundUp_page] at lt
    omega
  obtain ⟨l, short, inside, place⟩ := (piece_covers (long seg' mem' nonempty)).1 covers
  have pages := (fits.inside seg mem).pages (by omega)
  have pages' := (fits.inside seg' mem').pages nonempty
  have nodup : frames.Nodup := sorted.imp Nat.ne_of_lt
  have place' := Int.ofNat_inj.1 place
  unfold physAddr at place'
  rw [page_eq] at *
  rw [show (q + 1) * 128 / 128 = q + 1 by omega] at place'
  have here : (seg'.virtualAddr.toNat + 128 * j) / 128 < frames.length := by omega
  -- the piece starts on the boundary, or in the frame before it
  by_cases first : (seg'.virtualAddr.toNat + 128 * j) % 128 + l = 0
  · have same : (seg'.virtualAddr.toNat + 128 * j) / 128 = q + 1 := getD_inj nodup here (by omega) (by omega)
    obtain rfl := fits.unique mem mem' (k := (q + 1) * 128 - seg.virtualAddr.toNat) (l := 128 * j) (by omega) (by omega) (by omega)
    omega
  · exact apart (frame_before sorted here (by omega) (by omega))

/-- **A segment that is not joined is misplaced**, in a file of ones. -/
theorem Loaded.misplaced (fits : exe.header.Fits) (long : exe.LongEnough) (loaded : Loaded m exe a m')
    (granted : m.granted exe.header = frames) (len : frames.length = exe.header.numPages) (bound : ∀ f ∈ frames, f < numPhysPages)
    (sorted : frames.Pairwise (· < ·)) (mem : seg ∈ exe.header.segments) (ones : ∀ i < exe.file.length, exe.file.getD i 0 = 1)
    (split : ¬ seg.Joined frames) : ¬ Placed m exe a m' := by
  intro placed
  rw [Segment.Joined, not_or] at split
  obtain ⟨unaligned, split⟩ := split
  push Not at split
  obtain ⟨q, low, high, apart⟩ := split
  have pages := (fits.inside seg mem).pages (by omega)
  have here : (q + 1) * pageSize / pageSize < frames.length := by
    rw [page_eq] at *
    omega
  obtain ⟨p, b, mapped, byte⟩ := placed.bytes seg mem ((q + 1) * pageSize - seg.virtualAddr.toNat) (by omega)
  rw [Nat.add_sub_cancel' low.le, translate_eq (loaded.frames.trans granted) bound here] at mapped
  obtain ⟨rfl, -⟩ := Prod.mk.inj (Except.ok.inj mapped)
  have zero : m'.mainMemory (physAddr frames ((q + 1) * pageSize)) = 0 := by
    rw [loaded.memory, granted, loadLog, applyLog_append,
      applyLog_other fun w among => not_covers_boundary fits long len sorted mem unaligned low high apart among]
    apply applyLog_covered
    · exact ⟨_, List.mem_map_of_mem (getD_mem here), zeroWrite_covers.2 (inFrame_physAddr frames _)⟩
    · intro w among _
      obtain ⟨f, -, rfl⟩ := List.mem_map.1 among
      exact zeroWrite_byteAt
  have enough := long seg mem (by omega)
  rw [zero, ones _ (by omega)] at byte
  exact absurd byte (by decide)

/-! ## Every file -/

/-- A header is loaded correctly into a memory: whatever file it stands in, a call that returns
TRUE has placed every byte. -/
def NoffHeader.PlacedIn (h : NoffHeader) (m : Memory) : Prop :=
  ∀ file, Executable.LongEnough ⟨h, file⟩ → ∀ a m', AddrSpace.load m (some ⟨h, file⟩) = some (some a, m') → Placed m ⟨h, file⟩ a m'

/-- The file of `n` ones. -/
def ones (n : ℕ) : List Byte := List.replicate n 1

theorem ones_getD {i : ℕ} (inside : i < (ones n).length) : (ones n).getD i 0 = 1 := by
  rw [List.getD_eq_getElem _ _ inside]
  exact List.getElem_replicate ..

/-- Some file is long enough. -/
theorem longEnough_ones (h : NoffHeader) : ∃ n, Executable.LongEnough ⟨h, ones n⟩ := by
  refine ⟨(h.code.inFileAddr.toNat + h.code.size.toNat) + (h.initData.inFileAddr.toNat + h.initData.size.toNat) +
    (h.readonlyData.inFileAddr.toNat + h.readonlyData.size.toNat), fun seg mem _ => ?_⟩
  dsimp only
  rw [ones, List.length_replicate]
  simp only [NoffHeader.segments, List.mem_cons, List.not_mem_nil, or_false] at mem
  obtain rfl | rfl | rfl := mem
  all_goals omega

section
variable {h : NoffHeader}

theorem granted_bound : ∀ f ∈ m.granted h, f < numPhysPages :=
  fun _ mem => (Memory.mem_freeFrames.1 (List.mem_of_mem_take mem)).1

theorem granted_sorted : (m.granted h).Pairwise (· < ·) := m.sorted_freeFrames.sublist (List.take_sublist _ _)

/-- The boundaries inside a segment are between pages of the space. -/
theorem joined_granted (fits : h.Fits) (mem : seg ∈ h.segments) : seg.Joined (m.granted h) ↔ seg.Joined m.freeFrames := by
  have within (q : ℕ) (high : (q + 1) * pageSize < seg.virtualAddr.toNat + seg.size.toNat)
      (low : seg.virtualAddr.toNat < (q + 1) * pageSize) : q + 1 < h.numPages := by
    have pages := (fits.inside seg mem).pages (by omega)
    rw [page_eq] at *
    omega
  have same (q : ℕ) (lt : q < h.numPages) : (m.granted h).getD q 0 = m.freeFrames.getD q 0 := by
    rw [List.getD_eq_getElem?_getD, List.getD_eq_getElem?_getD, Memory.granted, List.getElem?_take_of_lt lt]
  unfold Segment.Joined
  apply or_congr_right
  apply forall_congr'
  intro q
  apply forall_congr'
  intro low
  apply forall_congr'
  intro high
  have lt := within q high low
  rw [same _ lt, same _ (Nat.lt_of_succ_lt lt)]

/-- **A header is loaded correctly exactly when** too few frames are free, or its segments start
on page boundaries or get frames that follow each other. -/
theorem placedIn_iff (fits : h.Fits) (m : Memory) :
    h.PlacedIn m ↔ (h.numPages ≤ m.freeFrames.length → ∀ seg ∈ h.segments, seg.Joined m.freeFrames) := by
  have len (enough : h.numPages ≤ m.freeFrames.length) : (m.granted h).length = h.numPages := List.length_take_of_le enough
  constructor
  · intro places enough seg mem
    by_contra split
    obtain ⟨n, long⟩ := longEnough_ones h
    obtain ⟨a, m', run, loaded, -⟩ := load_enough ⟨h, ones n⟩ fits enough
    apply loaded.misplaced fits long rfl (len enough) granted_bound granted_sorted mem (fun i => ones_getD)
    · rwa [joined_granted fits mem]
    · exact places (ones n) long a m' run
  · intro joined file long a m' run
    obtain ⟨enough, loaded⟩ := Loaded.of_load fits run
    refine loaded.placed fits long (len enough) rfl (granted_sorted.imp Nat.ne_of_lt) granted_bound fun seg mem => ?_
    rw [joined_granted fits mem]
    exact joined enough seg mem

end

/-- Code of 1128 bytes, and data of 48 behind it, over the end of page 8. -/
def crossing : NoffHeader := ⟨noffMagic, ⟨0, 40, 1128⟩, ⟨1128, 1168, 48⟩, ⟨0, 0, 0⟩, ⟨0, 0, 0⟩⟩

theorem crossing_fits : crossing.Fits := NoffHeader.fits_of_clear rfl (by decide +kernel) (by decide +kernel)

/-- At the start the free frames follow each other. -/
theorem placedIn_iff_crossing : crossing.PlacedIn (Spaces.start : Spaces Bool).memory := by
  apply (placedIn_iff crossing_fits _).2
  intro _ seg mem
  right
  intro q low high
  have lt : q + 1 < numPhysPages := by
    have := (crossing_fits.inside seg mem).pages (by omega)
    rw [show crossing.numPages = 18 by decide +kernel] at this
    rw [page_eq] at *
    rw [show numPhysPages = 128 by rfl]
    omega
  rw [Spaces.freeFrames_start, List.getD_eq_getElem?_getD, List.getD_eq_getElem?_getD, List.getElem?_range lt, List.getElem?_range (by omega)]
  rfl

namespace Spaces

/-- One of the two programs ends. -/
def oneEnds : List (Event Bool) := loadTwo ++ [.destroy false]

theorem oneEnds_isSome : (oneEnds.foldlM step start).isSome := by decide +kernel

/-- Frames 9 to 17 are taken. -/
def gap : Spaces Bool := (oneEnds.foldlM step start).get oneEnds_isSome

theorem reach_gap : Reach (spaces Bool) (fun _ _ => True) gap := by
  have begin : Reach (spaces Bool) (fun _ _ => True) start := .init ⟨rfl, fun _ => rfl⟩
  exact begin.run step (fun _ _ _ done => done) oneEnds (Option.some_get oneEnds_isSome).symm

theorem freeFrames_gap : gap.memory.freeFrames = List.range' 0 9 ++ List.range' 18 110 := by decide +kernel

end Spaces

/-- The data behind the end of page 8 is not in the frame of page 9, which is frame 18. -/
theorem load_splits : ∃ s, Reach (spaces Bool) (fun _ _ => True) s ∧ crossing.Fits ∧ ∃ file, Executable.LongEnough ⟨crossing, file⟩ ∧
    ∃ a m', AddrSpace.load s.memory (some ⟨crossing, file⟩) = some (some a, m') ∧ ¬ Placed s.memory ⟨crossing, file⟩ a m' := by
  obtain ⟨n, long⟩ := longEnough_ones crossing
  have enough : crossing.numPages ≤ Spaces.gap.memory.freeFrames.length := by
    rw [Spaces.freeFrames_gap]
    decide +kernel
  obtain ⟨a, m', run, loaded, -⟩ := load_enough ⟨crossing, ones n⟩ crossing_fits enough
  refine ⟨Spaces.gap, Spaces.reach_gap, crossing_fits, ones n, long, a, m', run, ?_⟩
  have mem : crossing.initData ∈ crossing.segments := by simp [NoffHeader.segments]
  apply loaded.misplaced crossing_fits long rfl (List.length_take_of_le enough) granted_bound granted_sorted mem fun i => ones_getD
  rw [joined_granted crossing_fits mem, Spaces.freeFrames_gap]
  rintro (aligned | neighbours)
  · exact absurd aligned (by decide)
  · exact absurd (neighbours 8 (by decide) (by decide)) (by decide +kernel)

end Nachos.Mp2
