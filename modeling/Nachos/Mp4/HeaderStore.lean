import Mathlib.Data.List.Perm.Subperm
import Nachos.Mp4.FileHeader

/-!
# Header chains on disk

A link fills exactly one sector and is read back unchanged. `WriteBack` stores a chain,
`FetchFrom` rebuilds a stored chain, and both touch only the header's sectors.
`ByteToSector` of a chain laid out for `L` bytes is the data sector that holds the offset.
-/

namespace Nachos.Mp4
open Bytes

theorem HeaderSector.decode_encode (h : HeaderSector) : decode h.encode = h := by
  obtain ⟨nextSector, numBytes, numSectors, dataSectors⟩ := h
  simp only [decode, encode, wordAt_encode _ (by omega : 0 < 32), wordAt_encode _ (by omega : 1 < 32),
    wordAt_encode _ (by omega : 2 < 32), word, mk.injEq, true_and]
  apply Vector.ext
  intro i hi
  rw [Vector.getElem_ofFn, wordAt_encode _ (by have := numDirect_eq; omega)]
  simp [word, dataSector, List.getD_eq_getElem?_getD, hi]

theorem HeaderSector.length_dataSectors (h : HeaderSector) : h.dataSectors.toList.length = 29 := by
  rw [Vector.length_toList, numDirect_eq]

namespace HeaderSector.Shaped
variable {h : HeaderSector} {bytes : Nat}

theorem sectors_le (hs : h.Shaped bytes) : divRoundUp bytes 128 ≤ 29 := by
  have := hs.le
  rw [divRoundUp_sector]
  omega

theorem length_datas (hs : h.Shaped bytes) : h.datas.length = divRoundUp bytes 128 := by
  have := hs.sectors_le
  rw [datas, List.length_map, List.length_take, h.length_dataSectors, hs.numSectors]
  omega

/-- A used entry of `dataSectors` is the data sector of that index. -/
theorem datas_getElem? (hs : h.Shaped bytes) {i : Nat} (hi : i < divRoundUp bytes 128) :
    h.datas[i]? = some (h.dataSector i).toNat := by
  have := hs.sectors_le
  have len := h.length_dataSectors
  rw [datas, List.getElem?_map, List.getElem?_take_of_lt (by rw [hs.numSectors]; exact hi), dataSector,
    List.getD_eq_getElem?_getD, List.getElem?_eq_getElem (by omega)]
  rfl

/-- An entry that is a sector of the disk is a data sector: the unused ones are `-1`. -/
theorem dataSector_mem (hs : h.Shaped bytes) {i : Nat} (hi : i < 29) (hd : (h.dataSector i).toNat < diskSectors) :
    (h.dataSector i).toNat ∈ h.datas := by
  by_cases hu : i < divRoundUp bytes 128
  · exact List.mem_of_getElem? (hs.datas_getElem? hu)
  · rw [hs.unused i (by omega) hi, diskSectors_eq] at hd
    simp at hd

theorem toInt_numBytes (hs : h.Shaped bytes) : h.numBytes.toInt = bytes := by
  have := hs.le
  rw [toInt_eq_toNat (by rw [hs.numBytes]; omega), hs.numBytes]

theorem toInt_numSectors (hs : h.Shaped bytes) : h.numSectors.toInt = divRoundUp bytes 128 := by
  have := hs.sectors_le
  rw [toInt_eq_toNat (by rw [hs.numSectors]; omega), hs.numSectors]

end HeaderSector.Shaped

namespace FileHeader

theorem Shaped.length_datas : ∀ {h : FileHeader} {length : Nat}, h.Shaped length →
    h.datas.length = divRoundUp length 128
  | .last _, _, hs => hs.1.length_datas
  | .link _ next, length, hs => by
    obtain ⟨hd, -, hlt, hn⟩ := hs
    rw [datas, List.length_append, hd.length_datas, hn.length_datas]
    simp only [divRoundUp_sector]
    omega

/-- `FileLength` of a chain. -/
theorem Shaped.fileLength : ∀ {h : FileHeader} {length : Nat}, h.Shaped length → length < 2 ^ 31 →
    h.fileLength = length
  | .last _, _, hs, _ => hs.1.toInt_numBytes
  | .link _ next, length, hs, hl => by
    obtain ⟨hd, -, hlt, hn⟩ := hs
    rw [FileHeader.fileLength, hd.toInt_numBytes, hn.fileLength (by omega), wrap32_eq (by omega) (by omega)]
    omega

/-- `ByteToSector` finds the data sector that holds a byte of the file. -/
theorem Shaped.byteToSector : ∀ {h : FileHeader} {length o : Nat}, h.Shaped length → length < 2 ^ 31 → o < length →
    ∃ w, h.byteToSector o = .ok w ∧ h.datas[o / 128]? = some w.toNat
  | .last disk, length, o, hs, hl, ho => by
    have idx : (o : Int).tdiv sectorSize = ((o / 128 : Nat) : Int) := rfl
    have hi : o / 128 < divRoundUp length 128 := by rw [divRoundUp_sector]; omega
    have := hs.1.sectors_le
    refine ⟨disk.dataSector (o / 128), ?_, hs.1.datas_getElem? hi⟩
    simp only [FileHeader.byteToSector, idx, numDirect_eq]
    rw [if_pos (by omega)]
    rfl
  | .link disk next, length, o, hs, hl, ho => by
    obtain ⟨hd, -, hlt, hn⟩ := hs
    have idx : (o : Int).tdiv sectorSize = ((o / 128 : Nat) : Int) := rfl
    have full : divRoundUp 3712 128 = 29 := rfl
    have len := hd.length_datas
    simp only [FileHeader.byteToSector, idx, numDirect_eq, datas]
    by_cases hi : o / 128 < 29
    · refine ⟨disk.dataSector (o / 128), ?_, ?_⟩
      · rw [if_pos (by omega)]; rfl
      · rw [List.getElem?_append_left (by omega), hd.datas_getElem? (by omega)]
    · obtain ⟨w, hw, hg⟩ := hn.byteToSector (o := o - 3712) (by omega) (by omega)
      refine ⟨w, ?_, ?_⟩
      · rw [if_neg (by omega), maxFileSize_eq, wrap32_eq (by omega) (by omega),
          show (o : Int) - (3712 : Nat) = ((o - 3712 : Nat) : Int) by omega]
        exact hw
      · rw [List.getElem?_append_right (by omega), len, full, ← hg]
        congr 1; omega

/-- Whatever the offset, a sector of the disk that `ByteToSector` returns is a data sector
of the chain. -/
theorem Shaped.byteToSector_mem : ∀ {h : FileHeader} {length : Nat} {o : Int} {w : Word}, h.Shaped length →
    h.byteToSector o = .ok w → w.toNat < diskSectors → w.toNat ∈ h.datas
  | .last disk, length, o, w, hs, hw, hd => by
    rw [FileHeader.byteToSector] at hw
    have := numDirect_eq
    by_cases c : 0 ≤ o.tdiv sectorSize ∧ o.tdiv sectorSize < numDirect
    · rw [if_pos c] at hw
      cases hw
      exact hs.1.dataSector_mem (by omega) hd
    · rw [if_neg c] at hw
      cases hw
  | .link disk next, length, o, w, hs, hw, hd => by
    rw [FileHeader.byteToSector] at hw
    have := numDirect_eq
    by_cases c : 0 ≤ o.tdiv sectorSize ∧ o.tdiv sectorSize < numDirect
    · rw [if_pos c] at hw
      cases hw
      exact List.mem_append_left _ (hs.1.dataSector_mem (by omega) hd)
    · rw [if_neg c] at hw
      exact List.mem_append_right _ (hs.2.2.2.byteToSector_mem hw hd)

end FileHeader

/-! ## Storing and fetching -/

/-- A stored chain stays stored while its header sectors keep their contents. -/
theorem Stored.congr {d d' : Disk} : ∀ {h : FileHeader} {s : Nat}, Stored d s h → AgreeOn (s :: h.exts) d d' →
    Stored d' s h
  | .last _, s, hs, ag => ⟨(ag s (by simp)).trans hs.1, hs.2⟩
  | .link _ next, s, hs, ag =>
    ⟨(ag s (by simp)).trans hs.1, hs.2.1, hs.2.2.congr (ag.mono (List.subset_cons_self _ _))⟩

theorem Stored.fetchDepth {d : Disk} : ∀ {h : FileHeader} {depth : Nat} {s : Word}, Stored d s.toNat h →
    (∀ x ∈ s.toNat :: h.exts, x < diskSectors) → h.exts.length < depth → FileHeader.fetchDepth d depth s = .ok h
  | .last disk, depth + 1, s, hs, hr, _ => by
    rw [FileHeader.fetchDepth, readSector_eq (hr _ (by simp)), hs.1]
    simp only [bind, Except.bind, HeaderSector.decode_encode]
    rw [if_neg (not_not.2 hs.2)]
    rfl
  | .link disk next, depth + 1, s, hs, hr, hl => by
    have ih : FileHeader.fetchDepth d depth disk.nextSector = .ok next := hs.2.2.fetchDepth (fun x hx => hr x (List.mem_cons_of_mem _ hx))
      (by simp only [FileHeader.exts, List.length_cons] at hl; omega)
    rw [FileHeader.fetchDepth, readSector_eq (hr _ (by simp)), hs.1]
    simp only [bind, Except.bind, HeaderSector.decode_encode]
    rw [if_pos hs.2.1, ih]
    rfl

/-- Distinct sectors of the disk are no more than the disk has. -/
theorem length_le_diskSectors {l : List Nat} (nodup : l.Nodup) (hr : ∀ x ∈ l, x < diskSectors) :
    l.length ≤ diskSectors := by
  have : l.Subperm (List.range diskSectors) := nodup.subperm fun x hx => List.mem_range.2 (hr x hx)
  simpa using this.length_le

/-- **`FetchFrom` rebuilds a stored chain.** -/
theorem Stored.fetchFrom {d : Disk} {h : FileHeader} {s : Word} (hs : Stored d s.toNat h)
    (nodup : (s.toNat :: h.exts).Nodup) (hr : ∀ x ∈ s.toNat :: h.exts, x < diskSectors) :
    FileHeader.fetchFrom d s = .ok h := by
  have := length_le_diskSectors nodup hr
  rw [List.length_cons] at this
  exact hs.fetchDepth hr (by omega)

/-- The links of a chain end where `nextSector` is `-1`. -/
def FileHeader.Ended : FileHeader → Prop
  | .last disk => disk.nextSector = -1
  | .link disk nextHeader => disk.nextSector ≠ -1 ∧ nextHeader.Ended

theorem FileHeader.Shaped.ended : ∀ {h : FileHeader} {length : Nat}, h.Shaped length → h.Ended
  | .last _, _, hs => hs.2
  | .link _ _, _, hs => ⟨hs.2.1, hs.2.2.2.ended⟩

/-- **`WriteBack` stores the chain** and changes only its header sectors. -/
theorem FileHeader.writeBack_stored : ∀ {h : FileHeader} {d : Disk} {s : Word}, h.Ended →
    (s.toNat :: h.exts).Nodup → (∀ x ∈ s.toNat :: h.exts, x < diskSectors) →
    ∃ d', h.writeBack d s = .ok d' ∧ Stored d' s.toNat h ∧ ∀ x, x ∉ s.toNat :: h.exts → d' x = d x
  | .last disk, d, s, he, _, hr => by
    refine ⟨_, writeSector_eq (hr _ (by simp)), ⟨by simp, he⟩, fun x hx => ?_⟩
    exact Function.update_of_ne (by simpa [exts] using hx) _ _
  | .link disk next, d, s, he, nodup, hr => by
    simp only [exts, List.nodup_cons] at nodup
    have nodup' : (disk.nextSector.toNat :: next.exts).Nodup := List.nodup_cons.2 nodup.2
    obtain ⟨d', hw, hs, hf⟩ := writeBack_stored (h := next) (d := Function.update d s.toNat disk.encode) he.2
      nodup' (fun x hx => hr x (List.mem_cons_of_mem _ hx))
    refine ⟨d', ?_, ⟨?_, he.1, hs⟩, fun x hx => ?_⟩
    · rw [writeBack, writeSector_eq (hr _ (by simp))]
      exact hw
    · rw [hf _ nodup.1]
      simp
    · simp only [exts, List.mem_cons, not_or] at hx
      rw [hf x (by simpa using hx.2)]
      exact Function.update_of_ne hx.1 _ _

end Nachos.Mp4
