import Nachos.Mp4.HeaderAlloc

/-!
# Headers from `Allocate` to `Deallocate`

What a header that `Allocate` has made says about the map it was made from, what is left of
it on disk after `WriteBack`, and what `Deallocate` gives back. The sectors of the extension
headers are taken and never given back.
-/

namespace Nachos.Mp4
open Bytes Transition

/-- Bits decide a map. -/
theorem Bitmap.ext_testBit {n : Nat} {a b : Bitmap n} (h : ∀ x, a.testBit x = b.testBit x) : a = b := by
  apply Bitmap.ext_word
  intro k _
  apply BitVec.eq_of_getLsbD_eq
  intro i hi
  have bit := h (32 * k + i)
  rw [Bitmap.testBit_eq, Bitmap.testBit_eq] at bit
  rwa [show (32 * k + i) / 32 = k by omega, show (32 * k + i) % 32 = i by omega] at bit

namespace FileHeader

variable {n : Nat} {b b' : Bitmap n} {h g : FileHeader} {length : Nat} {fileSize : Word}

/-- The links of a chain, without the pointers between them. -/
def links : FileHeader → List HeaderSector
  | .last disk => [disk]
  | .link disk nextHeader => disk :: nextHeader.links

theorem links_ne_nil : ∀ h : FileHeader, h.links ≠ []
  | .last _ => List.cons_ne_nil _ _
  | .link _ _ => List.cons_ne_nil _ _

/-- Every link but the last is full. -/
theorem Shaped.full : ∀ {h : FileHeader} {length : Nat}, h.Shaped length → ∀ l ∈ h.links.dropLast, l.numBytes.toInt = 3712
  | .last _, _, _, l, mem => by cases mem
  | .link disk next, length, hs, l, mem => by
    obtain ⟨hd, -, -, hn⟩ := hs
    rw [links, List.dropLast_cons_of_ne_nil next.links_ne_nil] at mem
    rcases List.mem_cons.1 mem with rfl | mem
    · exact hd.toInt_numBytes
    · exact hn.full l mem

/-! ## Allocation -/

/-- A header for `length` bytes on sectors that were clear in `b` and are set in `b'`. -/
structure LaidOut (b b' : Bitmap n) (h : FileHeader) (length : Nat) : Prop where
  fileLength : h.fileLength = length
  full : ∀ l ∈ h.links.dropLast, l.numBytes.toInt = 3712
  nodup : (h.exts ++ h.datas).Nodup
  clear : ∀ x ∈ h.exts ++ h.datas, x < n ∧ b.testBit x = false
  set : ∀ x ∈ h.exts ++ h.datas, b'.testBit x = true
  others : ∀ x, x ∉ h.exts ++ h.datas → b'.testBit x = b.testBit x
  data : ∀ o < length, ∃ w, h.byteToSector o = .ok w ∧ w.toNat ∈ h.datas
  same : ∀ o < length, ∀ o' < length, h.byteToSector o = h.byteToSector o' ↔ o / 128 = o' / 128

/-- Two bytes lie in one sector when the data sectors are distinct and one index has them. -/
theorem Shaped.byteToSector_inj (hs : h.Shaped length) (small : length < 2 ^ 31) (nodup : h.datas.Nodup) {o o' : Nat}
    (ho : o < length) (ho' : o' < length) : h.byteToSector o = h.byteToSector o' ↔ o / 128 = o' / 128 := by
  obtain ⟨w, hw, at_o⟩ := hs.byteToSector small ho
  obtain ⟨w', hw', at_o'⟩ := hs.byteToSector small ho'
  rw [hw, hw', Except.ok.injEq]
  constructor
  · rintro rfl
    rw [← at_o'] at at_o
    have bound : o / 128 < h.datas.length := by
      by_contra beyond
      rw [at_o', List.getElem?_eq_none (by omega)] at at_o
      cases at_o
    exact (List.getElem?_inj bound nodup).1 at_o
  · intro index
    rw [index, at_o', Option.some.injEq] at at_o
    exact (BitVec.eq_of_toNat_eq at_o).symm

theorem Allocated.laidOut (all : Allocated b b' h length) (small : length < 2 ^ 31) : LaidOut b b' h length where
  fileLength := all.shaped.fileLength small
  full := all.shaped.full
  nodup := all.taken.nodup
  clear x hx := ⟨all.taken.range x hx, all.taken.fresh x hx⟩
  set x hx := (all.taken.bits x).2 (.inl hx)
  others x hx := by
    rw [Bool.eq_iff_iff, all.taken.bits x]
    exact or_iff_right hx
  data o ho := by
    obtain ⟨w, hw, index⟩ := all.shaped.byteToSector small ho
    exact ⟨w, hw, List.mem_of_getElem? index⟩
  same o ho o' ho' := all.shaped.byteToSector_inj small (List.Nodup.of_append_right all.taken.nodup) ho ho'

/-- **`Allocate`** answers TRUE exactly when the map has a clear bit for each 128 bytes and for
each extension header, FALSE otherwise, and then lays the file out. -/
theorem allocate_iff (hn : n < 2 ^ 31) (b : Bitmap n) (fileSize : Word) (nonneg : 0 ≤ fileSize.toInt) :
    ((∃ r, allocate b fileSize = .ok (some r)) ↔
      (fileSize.toNat + 127) / 128 + ((fileSize.toNat + 3711) / 3712 - 1) ≤ b.numClear) ∧
    (¬ (∃ r, allocate b fileSize = .ok (some r)) → allocate b fileSize = .ok none) ∧
    ∀ h b', allocate b fileSize = .ok (some (h, b')) → LaidOut b b' h fileSize.toNat := by
  obtain ⟨yes, no⟩ := allocate_spec hn.le b fileSize
  rw [allocLength_of_nonneg nonneg, sectorsNeeded_eq] at yes no
  refine ⟨⟨fun ⟨r, success⟩ => ?_, fun room => ?_⟩, fun failed => ?_, fun h b' success => ?_⟩
  · by_contra full
    rw [no (by omega)] at success
    cases success
  · obtain ⟨h, b', success, -⟩ := yes room
    exact ⟨_, success⟩
  · apply no
    by_contra room
    obtain ⟨h, b', success, -⟩ := yes (by omega)
    exact failed ⟨_, success⟩
  · have all := allocate_some hn.le success
    rw [allocLength_of_nonneg nonneg] at all
    apply all.laidOut
    have := BitVec.toInt_lt (x := fileSize)
    rw [toInt_of_nonneg nonneg] at this
    exact_mod_cast this

/-- A file with an extension header on a map of 40 bits. -/
theorem allocate_iff_linked : ∃ h b', allocate (Bitmap.empty 40) 3713 = .ok (some (h, b')) ∧ LaidOut (Bitmap.empty 40) b' h 3713 := by
  obtain ⟨success, -, laid⟩ := allocate_iff (n := 40) (by decide) (Bitmap.empty 40) 3713 (by decide)
  obtain ⟨⟨h, b'⟩, call⟩ := success.2 (by rw [Bitmap.numClear_empty]; decide)
  exact ⟨h, b', call, laid h b' call⟩

/-! ## On disk -/

/-- Header sector `i` of the chain is link `i`. -/
def At (d : Disk) (s : Nat) (h : FileHeader) : Prop :=
  (s :: h.exts).length = h.links.length ∧
    ∀ (i x : Nat) (l : HeaderSector), (s :: h.exts)[i]? = some x → h.links[i]? = some l → d x = l.encode

theorem at_of_stored {d : Disk} : ∀ {h : FileHeader} {s : Nat}, Stored d s h → At d s h
  | .last disk, s, stored => by
    refine ⟨rfl, fun i x l hx hl => ?_⟩
    cases i with
    | zero =>
      cases hx
      cases hl
      exact stored.1
    | succ i => cases hx
  | .link disk next, s, stored => by
    obtain ⟨here, -, rest⟩ := stored
    obtain ⟨count, others⟩ := at_of_stored rest
    refine ⟨congrArg Nat.succ count, fun i x l hx hl => ?_⟩
    cases i with
    | zero =>
      cases hx
      cases hl
      exact here
    | succ i => exact others i x l hx hl

/-- A chain that was written lies on the disk. -/
theorem writeBack_range : ∀ {h : FileHeader} {d d' : Disk} {s : Word}, h.writeBack d s = .ok d' →
    ∀ x ∈ s.toNat :: h.exts, x < diskSectors
  | .last disk, d, d', s, written, x, mem => by
    obtain rfl := List.mem_singleton.1 mem
    exact (writeSector_ok written).1
  | .link disk next, d, d', s, written, x, mem => by
    obtain ⟨d₁, first, rest⟩ := bind_ok written
    rcases List.mem_cons.1 mem with rfl | mem
    · exact (writeSector_ok first).1
    · exact writeBack_range rest x mem

/-- What `FetchFrom` reads where `WriteBack` has written. -/
theorem fetchFrom_writeBack {d d' : Disk} {s : Word} (ended : h.Ended) (nodup : (s.toNat :: h.exts).Nodup)
    (written : h.writeBack d s = .ok d') : fetchFrom d' s = .ok h := by
  have range := writeBack_range written
  obtain ⟨d₁, again, stored, -⟩ := writeBack_stored (d := d) ended nodup range
  rw [written] at again
  cases again
  exact stored.fetchFrom nodup range

/-- **`WriteBack` and `FetchFrom`**: a header that `Allocate` made comes back link by link, one
sector each, and no other sector changes. -/
theorem header_persists (hn : n ≤ diskSectors) (success : allocate b fileSize = .ok (some (h, b'))) (d : Disk) {s : Word}
    (onDisk : s.toNat < diskSectors) (apart : s.toNat ∉ h.exts ++ h.datas) :
    ∃ d', h.writeBack d s = .ok d' ∧ fetchFrom d' s = .ok h ∧ At d' s.toNat h ∧ ∀ x, x ∉ s.toNat :: h.exts → d' x = d x := by
  have small := diskSectors_eq
  have all := allocate_some (by omega) success
  have range : ∀ x ∈ s.toNat :: h.exts, x < diskSectors := by
    intro x mem
    rcases List.mem_cons.1 mem with rfl | mem
    · exact onDisk
    · exact (all.taken.range x (List.mem_append_left _ mem)).trans_le hn
  have nodup : (s.toNat :: h.exts).Nodup :=
    List.nodup_cons.2 ⟨fun mem => apart (List.mem_append_left _ mem), List.Nodup.of_append_left all.taken.nodup⟩
  obtain ⟨d', written, stored, others⟩ := writeBack_stored (d := d) all.shaped.ended nodup range
  exact ⟨d', written, stored.fetchFrom nodup range, at_of_stored stored, others⟩

/-- A header of two links, written to sector 1000. -/
theorem header_persists_linked : ∃ h b' d', allocate (Bitmap.empty 40) 3713 = .ok (some (h, b')) ∧
    h.writeBack (fun _ => .tabulate fun _ => 0) 1000 = .ok d' ∧ fetchFrom d' 1000 = .ok h ∧ At d' 1000 h := by
  obtain ⟨h, b', success, all⟩ := (allocate_spec (n := 40) (by decide) (Bitmap.empty 40) 3713).1
    (by rw [Bitmap.numClear_empty]; decide)
  have apart : (1000 : Word).toNat ∉ h.exts ++ h.datas := fun mem => absurd (all.taken.range _ mem) (by decide)
  obtain ⟨d', written, fetched, sectors, -⟩ := header_persists (n := 40) (by decide) success (fun _ => .tabulate fun _ => 0)
    (s := 1000) (by decide) apart
  exact ⟨h, b', d', success, written, fetched, sectors⟩

/-! ## Deallocation -/

/-- A header, or a copy of it by way of the disk. -/
inductive Copied (h : FileHeader) : FileHeader → Prop where
  | self : Copied h h
  | fetched {d d' : Disk} {s : Word} {g : FileHeader} : s.toNat ∉ h.exts → h.writeBack d s = .ok d' →
      fetchFrom d' s = .ok g → Copied h g

theorem Copied.eq (copied : Copied h g) (ended : h.Ended) (nodup : h.exts.Nodup) : g = h := by
  cases copied with
  | self => rfl
  | fetched apart written fetched =>
    rw [fetchFrom_writeBack ended (List.nodup_cons.2 ⟨apart, nodup⟩) written] at fetched
    exact (Except.ok.inj fetched).symm

/-- A header without extension headers holds one link's bytes at most. -/
theorem Shaped.exts_eq_nil_iff : ∀ {h : FileHeader} {length : Nat}, h.Shaped length → (h.exts = [] ↔ length ≤ 3712)
  | .last _, _, hs => iff_of_true rfl hs.1.le
  | .link _ _, _, hs => iff_of_false (List.cons_ne_nil _ _) (Nat.not_le.2 hs.2.2.1)

/-- `Deallocate` never fails on a header that `Allocate` made, and leaves the sectors of the
extension headers set. -/
theorem Allocated.deallocate (all : Allocated b b' h length) (hn : n < 2 ^ 31) :
    ∃ c, h.deallocate b' = .ok c ∧ ∀ x, c.testBit x = true ↔ x ∈ h.exts ∨ b.testBit x = true := by
  have sub : ∀ x ∈ h.datas, x ∈ h.exts ++ h.datas := fun x hx => List.mem_append_right _ hx
  obtain ⟨c, done, released⟩ := deallocate_spec hn all.shaped (List.Nodup.of_append_right all.taken.nodup)
    (fun x hx => all.taken.range x (sub x hx)) (fun x hx => (all.taken.bits x).2 (.inl (sub x hx)))
  refine ⟨c, done, fun x => ?_⟩
  have fresh : b.testBit x = true → x ∉ h.exts ++ h.datas := by
    intro set mem
    rw [all.taken.fresh x mem] at set
    cases set
  have apart : x ∈ h.exts → x ∉ h.datas := fun ext data => List.disjoint_of_nodup_append all.taken.nodup ext data
  rw [released x, all.taken.bits x, List.mem_append]
  constructor
  · rintro ⟨(ext | data) | set, free⟩
    · exact .inl ext
    · exact absurd data free
    · exact .inr set
  · rintro (ext | set)
    · exact ⟨.inl (.inl ext), apart ext⟩
    · exact ⟨.inr set, fun data => fresh set (sub x data)⟩

theorem Allocated.restores_iff (all : Allocated b b' h length) (hn : n < 2 ^ 31) :
    h.deallocate b' = .ok b ↔ length ≤ 3712 := by
  obtain ⟨c, done, bits⟩ := all.deallocate hn
  rw [done, Except.ok.injEq, ← all.shaped.exts_eq_nil_iff]
  constructor
  · rintro rfl
    apply List.eq_nil_iff_forall_not_mem.2
    intro x ext
    have clear := all.taken.fresh x (List.mem_append_left _ ext)
    rw [(bits x).2 (.inl ext)] at clear
    cases clear
  · intro none
    apply Bitmap.ext_testBit
    intro x
    rw [Bool.eq_iff_iff, bits x, none]
    exact or_iff_right List.not_mem_nil

/-- **`Deallocate` undoes `Allocate` exactly when the file needs no extension header.** -/
theorem deallocate_restores_iff (hn : n < 2 ^ 31) (nonneg : 0 ≤ fileSize.toInt)
    (success : allocate b fileSize = .ok (some (h, b'))) :
    (∀ g, Copied h g → g.deallocate b' = .ok b) ↔ fileSize.toInt ≤ 3712 := by
  have all := allocate_some hn.le success
  rw [allocLength_of_nonneg nonneg] at all
  have size : fileSize.toInt ≤ 3712 ↔ fileSize.toNat ≤ 3712 := by
    rw [toInt_of_nonneg nonneg]
    omega
  rw [size, ← all.restores_iff hn]
  constructor
  · intro restores
    exact restores h .self
  · intro restores g copied
    rwa [copied.eq all.shaped.ended (List.Nodup.of_append_left all.taken.nodup)]

theorem deallocate_restores_iff_full : ∃ h b', allocate (Bitmap.empty 40) 3712 = .ok (some (h, b')) ∧
    h.deallocate b' = .ok (Bitmap.empty 40) := by
  obtain ⟨h, b', success, -⟩ := (allocate_spec (n := 40) (by decide) (Bitmap.empty 40) 3712).1
    (by rw [Bitmap.numClear_empty]; decide)
  exact ⟨h, b', success, (deallocate_restores_iff (n := 40) (by decide) (by decide) success).2 (by decide) h .self⟩

/-- The extension header of a file of 3713 bytes stays marked. -/
theorem deallocate_leaves : ∃ h b', allocate (Bitmap.empty diskSectors) 3713 = .ok (some (h, b')) ∧
    h.deallocate b' ≠ .ok (Bitmap.empty diskSectors) := by
  obtain ⟨h, b', success, all⟩ := (allocate_spec (n := diskSectors) (by decide) (Bitmap.empty diskSectors) 3713).1
    (by rw [Bitmap.numClear_empty]; decide)
  refine ⟨h, b', success, fun restores => ?_⟩
  exact absurd ((all.restores_iff (by decide)).1 restores) (by decide)

end FileHeader

end Nachos.Mp4
