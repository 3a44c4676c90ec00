import Nachos.Mp4.HeaderStore

/-!
# `Allocate` and `Deallocate`

`Allocate` succeeds exactly when the map has the sectors a file of the length needs, and
then lays the file out over clear bits that it sets. `Deallocate` clears the data
sectors of every link and nothing else: the extension-header sectors stay set.
-/

namespace Nachos.Mp4
open Bytes

/-- Data sectors and extension headers of a file of `length` bytes. -/
def sectorsNeeded (length : Nat) : Nat := divRoundUp length sectorSize + (divRoundUp length maxFileSize - 1)

/-- The length `Allocate` gives a file when `fileSize` is read as an unsigned number: a
negative size is cut to one full link. -/
def allocLength (fileSize : Word) : Nat := if fileSize.toNat < 2 ^ 31 + 3712 then fileSize.toNat else 3712

theorem allocLength_of_nonneg {fileSize : Word} (h : 0 ≤ fileSize.toInt) : allocLength fileSize = fileSize.toNat := by
  rw [BitVec.toInt_eq_toNat_cond] at h
  have := fileSize.isLt
  rw [allocLength, if_pos]
  split at h <;> omega

theorem sectorsNeeded_eq (length : Nat) :
    sectorsNeeded length = (length + 127) / 128 + ((length + 3711) / 3712 - 1) := by
  rw [sectorsNeeded, sectorSize, divRoundUp_sector]
  congr 2
  unfold divRoundUp
  rw [maxFileSize_eq]
  split <;> omega

namespace FileHeader
variable {n : Nat}

theorem takeSectors_spec : ∀ (count : Nat) (b : Bitmap n), count ≤ b.numClear →
    ∃ ss b', takeSectors count b = .ok (ss, b') ∧ ss.length = count ∧ b.Taken b' ss
  | 0, b, _ => ⟨[], b, rfl, rfl, .nil b⟩
  | count + 1, b, h => by
    cases hf : b.findAndSet with
    | none =>
      have := Bitmap.findAndSet_none.1 hf
      omega
    | some p =>
      obtain ⟨s, b'⟩ := p
      have one := Bitmap.Taken.of_findAndSet hf
      have := one.count
      obtain ⟨ss, b'', ht, hl, rest⟩ := takeSectors_spec count b'
        (by simp only [List.length_singleton] at this; omega)
      refine ⟨s :: ss, b'', ?_, by simp [hl], one.append rest⟩
      rw [takeSectors, hf]
      simp only [ht]
      rfl

/-! ## The link `Allocate` fills -/

theorem fill_getD (ss : List Nat) {i : Nat} (hi : i < 29) :
    (fill ss).toList.getD i 0 = match ss[i]? with | some s => BitVec.ofNat 32 s | none => -1 := by
  have : i < numDirect := by rw [numDirect_eq]; exact hi
  cases found : ss[i]? with
  | none => simp [fill, List.getD_eq_getElem?_getD, this, found]
  | some s => simp [fill, List.getD_eq_getElem?_getD, this, found]

theorem datas_fill (next bytes : Word) {ss : List Nat} (len : ss.length ≤ 29) (small : ∀ x ∈ ss, x < 2 ^ 31) :
    (HeaderSector.mk next bytes (BitVec.ofNat 32 ss.length) (fill ss)).datas = ss := by
  have hl : ss.length % 2 ^ 32 = ss.length := by omega
  have hd : (fill ss).toList.length = 29 := by rw [Vector.length_toList, numDirect_eq]
  apply List.ext_getElem
  · rw [HeaderSector.datas, List.length_map, List.length_take, BitVec.toNat_ofNat, hl]
    show min ss.length (fill ss).toList.length = _
    omega
  · intro i h1 h2
    have := small ss[i] (List.getElem_mem h2)
    have hg := fill_getD ss (i := i) (by omega)
    rw [List.getElem?_eq_getElem h2, List.getD_eq_getElem _ _ (by omega)] at hg
    simp only [HeaderSector.datas, List.getElem_map, List.getElem_take]
    rw [hg, BitVec.toNat_ofNat]
    omega

theorem shaped_fill (next : Word) {bytes : Nat} {ss : List Nat} (le : bytes ≤ 3712)
    (len : ss.length = divRoundUp bytes 128) :
    (HeaderSector.mk next (BitVec.ofNat 32 bytes) (BitVec.ofNat 32 ss.length) (fill ss)).Shaped bytes where
  le := le
  numBytes := by rw [BitVec.toNat_ofNat]; omega
  numSectors := by
    rw [divRoundUp_sector] at len
    rw [BitVec.toNat_ofNat, divRoundUp_sector]
    omega
  unused i hi hi' := by
    rw [HeaderSector.dataSector, fill_getD ss hi', List.getElem?_eq_none (by omega)]

theorem ofNat_toNat {s : Nat} (h : s < 2 ^ 31) : (BitVec.ofNat 32 s).toNat = s := by
  rw [BitVec.toNat_ofNat]
  omega

theorem ofNat_ne {s : Nat} (h : s < 2 ^ 31) : BitVec.ofNat 32 s ≠ -1 := by
  intro e
  have := congrArg BitVec.toNat e
  rw [ofNat_toNat h] at this
  simp at this
  omega

/-! ## Allocation -/

/-- A laid out file has as many sectors as it needs. -/
theorem Shaped.count : ∀ {h : FileHeader} {length : Nat}, h.Shaped length → (h.exts ++ h.datas).length = sectorsNeeded length
  | .last disk, length, hs => by
    have := hs.1.le
    rw [exts, datas, List.nil_append, hs.1.length_datas, sectorsNeeded_eq, divRoundUp_sector]
    omega
  | .link disk next, length, hs => by
    obtain ⟨hd, -, hlt, hn⟩ := hs
    have ih := hn.count
    have full : divRoundUp 3712 128 = 29 := rfl
    rw [List.length_append] at ih ⊢
    rw [exts, datas, List.length_cons, List.length_append, hd.length_datas, full]
    rw [sectorsNeeded_eq] at ih ⊢
    omega

/-- What a successful `Allocate` yields: a header for `length` bytes over bits that were
clear in `b` and are set in `b'`. -/
structure Allocated (b b' : Bitmap n) (h : FileHeader) (length : Nat) : Prop where
  shaped : h.Shaped length
  taken : b.Taken b' (h.exts ++ h.datas)

/-- The sectors of one link, as `Allocate` writes them down. -/
theorem filled (hn : n ≤ 2 ^ 31) {b b' : Bitmap n} {ss : List Nat} (next : Word) {bytes : Nat} (le : bytes ≤ 3712)
    (len : ss.length = divRoundUp bytes sectorSize) (taken : b.Taken b' ss) :
    (HeaderSector.mk next (BitVec.ofNat 32 bytes) (BitVec.ofNat 32 (divRoundUp bytes sectorSize)) (fill ss)).Shaped bytes ∧
      (HeaderSector.mk next (BitVec.ofNat 32 bytes) (BitVec.ofNat 32 (divRoundUp bytes sectorSize)) (fill ss)).datas = ss := by
  have few : ss.length ≤ 29 := by
    have := divRoundUp_sector bytes
    have len' : ss.length = divRoundUp bytes 128 := len
    omega
  rw [← len]
  constructor
  · exact shaped_fill next le len
  · exact datas_fill next _ few fun x hx => by have := taken.range x hx; omega

/-- The last link. -/
theorem Allocated.last (hn : n ≤ 2 ^ 31) {b b' : Bitmap n} {ss : List Nat} {bytes : Nat} (le : bytes ≤ 3712)
    (len : ss.length = divRoundUp bytes sectorSize) (taken : b.Taken b' ss) :
    Allocated b b' (.last ⟨-1, BitVec.ofNat 32 bytes, BitVec.ofNat 32 (divRoundUp bytes sectorSize), fill ss⟩) bytes := by
  obtain ⟨shaped, hd⟩ := filled hn (-1) le len taken
  refine ⟨⟨shaped, rfl⟩, ?_⟩
  rw [exts, datas, hd, List.nil_append]
  exact taken

/-- A full link, the sector of the next one and the rest of the file. -/
theorem Allocated.link (hn : n ≤ 2 ^ 31) {b b₁ b₂ b₃ : Bitmap n} {ss : List Nat} {next bytes : Nat} {rest : FileHeader}
    (more : 3712 < bytes) (len : ss.length = divRoundUp 3712 sectorSize) (taken : b.Taken b₁ ss) (one : b₁.Taken b₂ [next])
    (all : Allocated b₂ b₃ rest (bytes - 3712)) :
    Allocated b b₃ (.link ⟨BitVec.ofNat 32 next, BitVec.ofNat 32 3712, BitVec.ofNat 32 (divRoundUp 3712 sectorSize), fill ss⟩
      rest) bytes := by
  obtain ⟨shaped, hd⟩ := filled hn (BitVec.ofNat 32 next) le_rfl len taken
  have hnext : next < 2 ^ 31 := by
    have := one.range next (by simp)
    omega
  refine ⟨⟨shaped, ofNat_ne hnext, more, all.shaped⟩, ?_⟩
  have sectors := (taken.append one).append all.taken
  simp only [exts, datas, hd, ofNat_toNat hnext]
  refine sectors.perm ?_
  -- the sectors in the order they were taken, rearranged to headers first
  rw [List.append_assoc, List.singleton_append, List.cons_append]
  refine List.perm_middle.trans (.cons _ ?_)
  rw [← List.append_assoc, ← List.append_assoc]
  exact .append_right _ List.perm_append_comm

/-- `remain` and the length still to lay out. -/
theorem allocLength_step {fileSize : Word} (hpos : 0 < (fileSize - BitVec.ofNat 32 maxFileSize).toInt) :
    allocLength fileSize = fileSize.toNat ∧
      allocLength (fileSize - BitVec.ofNat 32 maxFileSize) = fileSize.toNat - 3712 := by
  obtain ⟨hlt, hr⟩ := remain_toNat hpos
  have h := toNat_lt_of_toInt (n := 2 ^ 31) hpos.le (by have := BitVec.toInt_lt (x := fileSize - BitVec.ofNat 32 maxFileSize); simpa using this)
  rw [hr] at h
  constructor
  · exact if_pos (by omega)
  · rw [allocLength, hr]
    exact if_pos (by omega)

theorem allocLength_stop {fileSize : Word} (hpos : ¬ 0 < (fileSize - BitVec.ofNat 32 maxFileSize).toInt) :
    (if fileSize.toNat > maxFileSize then maxFileSize else fileSize.toNat) = allocLength fileSize ∧
      allocLength fileSize ≤ 3712 := by
  have := fileSize.isLt
  rw [BitVec.toInt_eq_toNat_cond] at hpos
  simp only [BitVec.toNat_sub, BitVec.toNat_ofNat, maxFileSize_eq] at hpos
  rw [maxFileSize_eq, allocLength]
  constructor
  · split at hpos <;> split <;> split <;> omega
  · split at hpos <;> split <;> omega

/-- **`Allocate`**: it succeeds exactly when the map has the sectors the file needs. -/
theorem allocate_spec (hn : n ≤ 2 ^ 31) (b : Bitmap n) (fileSize : Word) :
    (sectorsNeeded (allocLength fileSize) ≤ b.numClear →
      ∃ h b', allocate b fileSize = .ok (some (h, b')) ∧ Allocated b b' h (allocLength fileSize)) ∧
    (b.numClear < sectorsNeeded (allocLength fileSize) → allocate b fileSize = .ok none) := by
  induction hm : fileSize.toNat using Nat.strong_induction_on generalizing fileSize b with
  | _ m ih =>
    subst hm
    rw [allocate]
    dsimp only
    by_cases hpos : 0 < (fileSize - BitVec.ofNat 32 maxFileSize).toInt
    · -- a full link, then the rest of the file over the remaining map
      obtain ⟨hlt, hr⟩ := remain_toNat hpos
      obtain ⟨hl, hl'⟩ := allocLength_step hpos
      have full : (if fileSize.toNat > maxFileSize then maxFileSize else fileSize.toNat) = 3712 := by
        rw [maxFileSize_eq, if_pos hlt]
      have need : sectorsNeeded fileSize.toNat = 30 + sectorsNeeded (fileSize.toNat - 3712) := by
        rw [sectorsNeeded_eq, sectorsNeeded_eq]; omega
      have full' : divRoundUp 3712 sectorSize = 29 := rfl
      rw [full, full', hl, need]
      by_cases hc : b.numClear < 29
      · rw [if_pos hc]
        exact ⟨fun h => by omega, fun _ => rfl⟩
      rw [if_neg hc]
      obtain ⟨ss, b₁, ht, hlen, taken⟩ := takeSectors_spec 29 b (by omega)
      have hc₁ := taken.count
      simp only [ht, bind, Except.bind, if_pos hpos]
      cases hf : b₁.findAndSet with
      | none =>
        have := Bitmap.findAndSet_none.1 hf
        exact ⟨fun h => by omega, fun _ => rfl⟩
      | some p =>
        obtain ⟨next, b₂⟩ := p
        have one := Bitmap.Taken.of_findAndSet hf
        have hc₂ := one.count
        rw [List.length_singleton] at hc₂
        obtain ⟨ih₁, ih₂⟩ := ih _ (by rw [hr]; omega) b₂ _ rfl
        rw [hl'] at ih₁ ih₂
        constructor
        · intro h
          obtain ⟨h', b₃, ha, rest⟩ := ih₁ (by omega)
          exact ⟨_, b₃, by simp only [ha]; rfl, .link hn hlt hlen taken one rest⟩
        · intro h
          simp only [ih₂ (by omega)]
          rfl
    · obtain ⟨hl, hle⟩ := allocLength_stop hpos
      have need : sectorsNeeded (allocLength fileSize) = divRoundUp (allocLength fileSize) sectorSize := by
        rw [sectorsNeeded_eq, sectorSize, divRoundUp_sector]; omega
      rw [hl, need]
      by_cases hc : b.numClear < divRoundUp (allocLength fileSize) sectorSize
      · rw [if_pos hc]
        exact ⟨fun h => by omega, fun _ => rfl⟩
      rw [if_neg hc]
      obtain ⟨ss, b₁, ht, hlen, taken⟩ := takeSectors_spec _ b (Nat.le_of_not_lt hc)
      simp only [ht, bind, Except.bind, if_neg hpos]
      exact ⟨fun _ => ⟨_, b₁, rfl, .last hn hle hlen taken⟩, fun h => absurd h hc⟩

theorem allocate_some (hn : n ≤ 2 ^ 31) {b b' : Bitmap n} {fileSize : Word} {h : FileHeader}
    (ha : allocate b fileSize = .ok (some (h, b'))) : Allocated b b' h (allocLength fileSize) := by
  obtain ⟨yes, no⟩ := allocate_spec hn b fileSize
  by_cases c : sectorsNeeded (allocLength fileSize) ≤ b.numClear
  · obtain ⟨h', b'', ha', al⟩ := yes c
    rw [ha] at ha'
    cases ha'
    exact al
  · rw [no (by omega)] at ha
    cases ha

/-! ## Deallocation -/

theorem releaseSectors_spec (hn : n < 2 ^ 31) : ∀ (ws : List Word) (b : Bitmap n), (ws.map BitVec.toNat).Nodup →
    (∀ x ∈ ws.map BitVec.toNat, x < n) → (∀ x ∈ ws.map BitVec.toNat, b.testBit x = true) →
    ∃ b', releaseSectors b ws = .ok b' ∧ b.Released b' (ws.map BitVec.toNat)
  | [], b, _, _, _ => ⟨b, rfl, .nil b⟩
  | w :: ws, b, nodup, hr, ht => by
    have hw : w.toNat < n := hr _ (by simp)
    have one := Bitmap.Released.clearBit b hw
    obtain ⟨hnot, nodup'⟩ := List.nodup_cons.1 nodup
    obtain ⟨b', hb, rest⟩ := releaseSectors_spec hn ws (b.clearBit w.toNat) nodup'
      (fun x hx => hr x (List.mem_cons_of_mem _ hx)) (fun x hx => by
        refine (one x).2 ⟨ht x (List.mem_cons_of_mem _ hx), ?_⟩
        rw [List.mem_singleton]
        rintro rfl
        exact hnot hx)
    refine ⟨b', ?_, one.append rest⟩
    rw [releaseSectors, Bitmap.test_eq hn b hw, ht _ (by simp)]
    simp only [bind, Except.bind, if_true, Bitmap.clear_eq hn b hw]
    exact hb

theorem used_eq {disk : HeaderSector} {bytes : Nat} (hs : disk.Shaped bytes) :
    ∃ ws, disk.used = .ok ws ∧ ws.map BitVec.toNat = disk.datas := by
  have := hs.sectors_le
  refine ⟨disk.dataSectors.toList.take disk.numSectors.toNat, ?_, rfl⟩
  have : disk.numSectors.toInt = disk.numSectors.toNat := by rw [hs.toInt_numSectors, hs.numSectors]
  rw [HeaderSector.used, this, if_pos (by rw [hs.numSectors, numDirect_eq]; omega)]
  rfl

/-- **`Deallocate`** clears the data sectors of the chain, and only those. -/
theorem deallocate_spec (hn : n < 2 ^ 31) : ∀ {h : FileHeader} {length : Nat} {b : Bitmap n}, h.Shaped length →
    h.datas.Nodup → (∀ x ∈ h.datas, x < n) → (∀ x ∈ h.datas, b.testBit x = true) →
    ∃ b', h.deallocate b = .ok b' ∧ b.Released b' h.datas
  | .last disk, length, b, hs, nodup, hr, ht => by
    obtain ⟨ws, hu, hw⟩ := used_eq hs.1
    simp only [datas, ← hw] at nodup hr ht ⊢
    obtain ⟨b', hb, rel⟩ := releaseSectors_spec hn _ _ nodup hr ht
    exact ⟨b', by rw [deallocate, hu]; exact hb, rel⟩
  | .link disk next, length, b, hs, nodup, hr, ht => by
    obtain ⟨ws, hu, hw⟩ := used_eq hs.1
    simp only [datas, ← hw, List.nodup_append] at nodup hr ht ⊢
    obtain ⟨b₁, hb₁, rel₁⟩ := releaseSectors_spec hn _ _ nodup.1 (fun x hx => hr x (List.mem_append_left _ hx))
      (fun x hx => ht x (List.mem_append_left _ hx))
    obtain ⟨b₂, hb₂, rel₂⟩ := deallocate_spec hn (b := b₁) hs.2.2.2 nodup.2.1
      (fun x hx => hr x (List.mem_append_right _ hx))
      (fun x hx => (rel₁ x).2 ⟨ht x (List.mem_append_right _ hx), fun hl => nodup.2.2 x hl x hx rfl⟩)
    refine ⟨b₂, ?_, rel₁.append rel₂⟩
    rw [deallocate, hu]
    simp only [bind, Except.bind, hb₁]
    exact hb₂

end FileHeader

end Nachos.Mp4
