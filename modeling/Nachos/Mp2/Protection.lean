import Nachos.Mp2.Placing

/-!
# Which pages `Load` protects

The number of pages that `Load` marks is computed from the size of the read-only data alone,
and the first one is that of its first byte. When the data does not start on a page boundary,
its last bytes can be behind the marked pages; and what shares a page with it is protected too.
-/

namespace Nachos.Mp2
open Bytes AddrSpace Transition

/-- The addresses a program may store to: the data segments and the stack. -/
def NoffHeader.Writable (h : NoffHeader) (v : ℕ) : Prop :=
  (∃ seg ∈ [h.initData, h.uninitData], ∃ k < seg.size.toNat, v = seg.virtualAddr.toNat + k) ∨
    h.numPages * pageSize ≤ v + userStackSize.toNat ∧ v < h.numPages * pageSize

/-- The read-only data is protected and nothing that is written to is. -/
structure Protected (h : NoffHeader) (a : AddrSpace) : Prop where
  rdata : ∀ k < h.readonlyData.size.toNat, a.ReadOnly ((h.readonlyData.virtualAddr.toNat + k) / pageSize)
  writable : ∀ v, h.Writable v → ¬ a.ReadOnly (v / pageSize)
  stores : ∀ v size, h.Writable v → a.machineTranslate v size true ≠ .error .readOnly
  loop : ∀ i < pageAmount h.readonlyData, 0 ≤ h.readonlyData.virtualAddr.toInt.tdiv pageSize + i ∧
    h.readonlyData.virtualAddr.toInt.tdiv pageSize + i < h.numPages

/-- The last byte of the read-only data is on the last of its `pageAmount` pages, and no address that
is written to is on one of them. -/
structure NoffHeader.Separated (h : NoffHeader) : Prop where
  covered : 0 < h.readonlyData.size.toNat →
    h.readonlyData.virtualAddr.toNat % pageSize + (h.readonlyData.size.toNat - 1) % pageSize < pageSize
  alone : ∀ v, h.Writable v → ¬ Marks h.readonlyData (v / pageSize)

variable {h : NoffHeader} {m m' : Memory} {a : AddrSpace} {file : List Byte} {seg : Segment}

/-- The pages counted from the size hold every byte, unless the remainders add up to a page. -/
theorem marks_all_iff : (∀ k < seg.size.toNat, Marks seg ((seg.virtualAddr.toNat + k) / pageSize)) ↔
    (0 < seg.size.toNat → seg.virtualAddr.toNat % pageSize + (seg.size.toNat - 1) % pageSize < pageSize) := by
  have page : pageSize = 128 := rfl
  unfold Marks
  rw [pageAmount, divRoundUp_page, page]
  constructor
  · intro all nonempty
    have last := all (seg.size.toNat - 1) (by omega)
    omega
  · intro fits k lt
    have fits := fits (by omega)
    omega

/-- Only a page that is marked refuses a store. -/
theorem readOnly_of_refused {v size : ℕ} (refused : a.machineTranslate v size true = .error .readOnly) : a.ReadOnly (v / pageSize) := by
  unfold machineTranslate at refused
  split at refused
  · cases refused
  · split at refused
    · cases refused
    · rename_i e entry
      split at refused
      · cases refused
      · split at refused
        · rename_i both
          exact ⟨e, entry, both.1⟩
        · split at refused
          · cases refused
          · cases refused

/-- A page that is marked refuses a store of a word. -/
theorem refused_of_readOnly (valid : a.Valid) {v : ℕ} (word : v % 4 = 0) (marked : a.ReadOnly (v / pageSize)) :
    a.machineTranslate v 4 true = .error .readOnly := by
  obtain ⟨e, entry, bit⟩ := marked
  have live : e.valid = true := valid (e.physicalPage, e.valid) (List.mem_map_of_mem (List.mem_of_getElem? entry))
  unfold machineTranslate
  rw [if_neg (by omega), entry]
  dsimp only
  rw [if_neg (not_not.2 live), if_pos ⟨bit, rfl⟩]

/-- **The protection is exact** for the headers whose read-only data has its pages to itself. -/
theorem protected_iff (fits : h.Fits) (loaded : AddrSpace.load m (some ⟨h, file⟩) = some (some a, m')) :
    Protected h a ↔ h.Separated := by
  obtain ⟨enough, left⟩ := Loaded.of_load fits loaded
  have bits : ∀ p, a.ReadOnly p ↔ Marks h.readonlyData p := left.readOnly
  constructor
  · intro safe
    constructor
    · apply marks_all_iff.1
      intro k lt
      exact (bits _).1 (safe.rdata k lt)
    · intro v writable marks
      exact safe.writable v writable ((bits _).2 marks)
  · intro separated
    have open' : ∀ v, h.Writable v → ¬ a.ReadOnly (v / pageSize) := by
      intro v writable marked
      exact separated.alone v writable ((bits _).1 marked)
    constructor
    · intro k lt
      exact (bits _).2 (marks_all_iff.2 separated.covered k lt)
    · exact open'
    · intro v size writable refused
      exact open' v writable (readOnly_of_refused refused)
    · intro i lt
      have among : h.readonlyData ∈ h.segments := by simp [NoffHeader.segments]
      obtain ⟨number, here⟩ := (fits.inside _ among).pageNum (enough.trans m.length_freeFrames_le) lt
      rw [number]
      exact ⟨Int.natCast_nonneg _, Int.ofNat_lt.2 here⟩

/-- Read-only data and data on page boundaries. -/
def aligned : NoffHeader := ⟨noffMagic, ⟨0, 40, 128⟩, ⟨256, 296, 100⟩, ⟨128, 168, 128⟩, ⟨356, 0, 28⟩⟩

/-- The sections as the linker script puts them, one right behind the other. -/
def adjacent : NoffHeader := ⟨noffMagic, ⟨0, 40, 100⟩, ⟨120, 160, 80⟩, ⟨100, 140, 20⟩, ⟨200, 0, 28⟩⟩

theorem aligned_fits : aligned.Fits := NoffHeader.fits_of_clear rfl (by decide +kernel) (by decide +kernel)

theorem adjacent_fits : adjacent.Fits := NoffHeader.fits_of_clear rfl (by decide +kernel) (by decide +kernel)

theorem aligned_separated : aligned.Separated := by
  constructor
  · intro _
    decide +kernel
  · intro v writable marks
    have page : pageSize = 128 := rfl
    have stack : aligned.numPages = 11 ∧ userStackSize.toNat = 1024 := by decide +kernel
    have marked : 128 ≤ v ∧ v < 256 := by
      rw [Marks, page, show aligned.readonlyData.virtualAddr.toNat = 128 by rfl, show pageAmount aligned.readonlyData = 1 by decide] at marks
      omega
    rw [NoffHeader.Writable, stack.1, stack.2, page] at writable
    obtain ⟨seg, mem, k, lt, rfl⟩ | above := writable
    · have low : ∀ seg ∈ [aligned.initData, aligned.uninitData], 256 ≤ seg.virtualAddr.toNat := by decide
      have := low seg mem
      omega
    · omega

theorem protected_iff_aligned : ∃ a m', AddrSpace.load (Spaces.start : Spaces Bool).memory (some ⟨aligned, []⟩) = some (some a, m') ∧
    Protected aligned a := by
  have enough : aligned.numPages ≤ (Spaces.start : Spaces Bool).memory.freeFrames.length := by
    rw [Spaces.freeFrames_start]
    decide +kernel
  obtain ⟨a, m', run, -⟩ := load_enough ⟨aligned, []⟩ aligned_fits enough
  exact ⟨a, m', run, (protected_iff aligned_fits run).2 aligned_separated⟩

/-- The first data of the program is on the page of the read-only data. -/
theorem data_protected : adjacent.Fits ∧ (∀ seg ∈ adjacent.segments, adjacent.uninitData.Clear seg) ∧
    Inside adjacent.uninitData adjacent.numPages ∧ ∃ a m',
      AddrSpace.load (Spaces.start : Spaces Bool).memory (some ⟨adjacent, List.replicate 240 0⟩) = some (some a, m') ∧
        adjacent.Writable 120 ∧ a.machineTranslate 120 4 true = .error .readOnly ∧ ¬ Protected adjacent a := by
  have enough : adjacent.numPages ≤ (Spaces.start : Spaces Bool).memory.freeFrames.length := by
    rw [Spaces.freeFrames_start]
    decide +kernel
  obtain ⟨a, m', run, left, -⟩ := load_enough ⟨adjacent, List.replicate 240 0⟩ adjacent_fits enough
  have data : adjacent.Writable 120 := .inl ⟨adjacent.initData, List.mem_cons_self, 0, by decide, rfl⟩
  have refused : a.machineTranslate 120 4 true = .error .readOnly := by
    apply refused_of_readOnly (load_spec run).1 (by decide)
    apply (left.readOnly 0).2
    unfold Marks
    decide +kernel
  exact ⟨adjacent_fits, by decide +kernel, by decide +kernel, a, m', run, data, refused, fun safe => safe.stores 120 4 data refused⟩

end Nachos.Mp2
