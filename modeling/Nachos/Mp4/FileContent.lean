import Nachos.Mp4.OpenFile

/-!
# What `ReadAt` and `WriteAt` do

`fileByte d h o` is byte `o` of the file with header `h`. On a file of length `L`,
`ReadAt` returns the requested slice and `WriteAt` replaces it, and whatever the
request, `WriteAt` changes no sector but the file's data sectors.
-/

namespace Nachos.Mp4
open Bytes Transition

/-- Byte `o` of the file with header `h`, padding of the last sector included. -/
def fileByte (d : Disk) (h : FileHeader) (o : Nat) : Byte := (d (h.datas.getD (o / 128) 0)).bytes.getD (o % 128) 0

/-- The first `L` bytes of a file. -/
def content (d : Disk) (h : FileHeader) (L : Nat) : List Byte := tabulate L (fileByte d h)

@[simp] theorem length_content (d : Disk) (h : FileHeader) (L : Nat) : (content d h L).length = L := length_tabulate _ _

theorem getD_content {d : Disk} {h : FileHeader} {L o : Nat} (ho : o < L) : (content d h L).getD o 0 = fileByte d h o :=
  getD_tabulate _ ho

theorem getD_mem {l : List Nat} {i : Nat} (hi : i < l.length) : l.getD i 0 ∈ l := by
  rw [List.getD_eq_getElem _ _ hi]
  exact List.getElem_mem hi

/-- A file's bytes depend on its data sectors only. -/
theorem fileByte_congr {d d' : Disk} {h : FileHeader} {o : Nat} (ag : AgreeOn h.datas d d')
    (ho : o / 128 < h.datas.length) : fileByte d' h o = fileByte d h o := by
  rw [fileByte, ag _ (getD_mem ho), fileByte]

theorem FileHeader.Shaped.lt_datas {h : FileHeader} {L o : Nat} (hs : h.Shaped L) (ho : o < L) :
    o / 128 < h.datas.length := by
  rw [hs.length_datas, divRoundUp_sector]
  omega

theorem content_congr {d d' : Disk} {h : FileHeader} {L : Nat} (hs : h.Shaped L) (ag : AgreeOn h.datas d d') :
    content d' h L = content d h L :=
  tabulate_congr fun _ ho => fileByte_congr ag (hs.lt_datas ho)

/-- The header of an open file of length `L`: what `ByteToSector` needs. -/
structure Readable (h : FileHeader) (L : Nat) : Prop where
  shaped : h.Shaped L
  small : L < 2 ^ 30
  range : ∀ x ∈ h.datas, x < diskSectors

/-- `ByteToSector` at the start of sector index `i`. -/
theorem Readable.sector {h : FileHeader} {L i : Nat} (hr : Readable h L) (hi : 128 * i < L) :
    ∃ w, h.byteToSector (wrap32 ((i : Int) * sectorSize)) = .ok w ∧ w.toNat = h.datas.getD i 0 ∧ w.toNat < diskSectors := by
  have := hr.small
  obtain ⟨w, hw, hd⟩ := hr.shaped.byteToSector (by omega) hi
  have e : wrap32 ((i : Int) * sectorSize) = ((128 * i : Nat) : Int) := by
    rw [sectorSize, wrap32_eq (by omega) (by omega)]
    omega
  rw [Nat.mul_div_cancel_left _ (by omega : 0 < 128)] at hd
  refine ⟨w, by rw [e]; exact hw, ?_, hr.range _ (List.mem_of_getElem? hd)⟩
  rw [List.getD_eq_getElem?_getD, hd]
  rfl

/-! ## Reading -/

theorem tabulate_add (m n : Nat) (f : Nat → Byte) : tabulate (m + n) f = tabulate m f ++ tabulate n fun j => f (m + j) := by
  simp [tabulate, List.range_add, Function.comp_def]

theorem take_drop_tabulate {n s c : Nat} (f : Nat → Byte) (h : s + c ≤ n) :
    ((tabulate n f).drop s).take c = tabulate c fun j => f (s + j) := by
  obtain ⟨r, rfl⟩ : ∃ r, n = s + (c + r) := ⟨n - (s + c), by omega⟩
  rw [tabulate_add, List.drop_left' (length_tabulate _ _), tabulate_add, List.take_left' (length_tabulate _ _)]

theorem readSectors_eq {d : Disk} {h : FileHeader} {L : Nat} (hr : Readable h L) : ∀ (count i : Nat),
    (0 < count → 128 * (i + count - 1) < L) →
    OpenFile.readSectors d h count i = .ok (tabulate (128 * count) fun j => fileByte d h (128 * i + j))
  | 0, _, _ => rfl
  | count + 1, i, hi => by
    obtain ⟨w, hw, hd, hlt⟩ := hr.sector (i := i) (by have := hi (by omega); omega)
    have rest := readSectors_eq (d := d) hr count (i + 1) (fun hc => by
      have := hi (by omega)
      rwa [show i + 1 + count - 1 = i + (count + 1) - 1 by omega])
    rw [OpenFile.readSectors, hw]
    simp only [ok_bind, readSector_eq hlt]
    rw [show ((i : Int) + 1) = ((i + 1 : Nat) : Int) by omega, rest]
    simp only [ok_bind]
    rw [show 128 * (count + 1) = 128 + 128 * count by omega, tabulate_add]
    congr 2
    · refine ext_getD (by rw [length_tabulate]; exact (d _).size) fun j hj => ?_
      rw [(d _).size, sectorSize] at hj
      rw [getD_tabulate _ hj, fileByte, hd]
      congr 1
      · congr 3; omega
      · omega
    · refine tabulate_congr fun j _ => ?_
      congr 1; omega

/-- A request inside the file. -/
theorem Request.ofArgs_eq {L n p : Nat} (hn : 0 < n) (hp : p < L) (small : L < 2 ^ 30) (fits : p + n < 2 ^ 31) :
    Request.ofArgs L n p = some {
      numBytes := (min n (L - p) : Nat)
      position := p
      firstSector := (p / 128 : Nat)
      lastSector := ((p + min n (L - p) - 1) / 128 : Nat) } := by
  have hb : (if wrap32 ((p : Int) + n) > L then wrap32 ((L : Int) - p) else n) = ((min n (L - p) : Nat) : Int) := by
    rw [wrap32_eq (by omega) (by omega), wrap32_eq (by omega) (by omega)]
    split <;> omega
  rw [Request.ofArgs, if_neg (by omega)]
  simp only [hb]
  rw [wrap32_eq (by omega) (by omega), show (p : Int) + (min n (L - p) : Nat) - 1 = ((p + min n (L - p) - 1 : Nat) : Int) by omega]
  rfl

theorem Request.ofArgs_none {L n p : Nat} (h : min n (L - p) = 0) : Request.ofArgs L n p = none := by
  rw [Request.ofArgs, if_pos (by omega)]

/-- The sector indices of a request of `m` bytes at `p`. -/
def spanLength (p m : Nat) : Nat := (p + m - 1) / 128 + 1 - p / 128

theorem newBuffer_eq {p m : Nat} (hm : 0 < m) (fits : p + m < 2 ^ 30) :
    (Request.mk m p (p / 128 : Nat) ((p + m - 1) / 128 : Nat)).numSectors = (spanLength p m : Nat) ∧
      (Request.mk m p (p / 128 : Nat) ((p + m - 1) / 128 : Nat)).newBuffer =
        .ok (List.replicate (128 * spanLength p m) 0) := by
  have hs : (Request.mk m p (p / 128 : Nat) ((p + m - 1) / 128 : Nat)).numSectors = (spanLength p m : Nat) := by
    simp only [Request.numSectors, spanLength]
    omega
  refine ⟨hs, ?_⟩
  rw [Request.newBuffer, hs, sectorSize]
  rw [if_pos (by rw [spanLength]; omega), show (((spanLength p m : Nat) : Int) * (128 : Nat)).toNat = 128 * spanLength p m by omega]
  rfl

theorem poke_eq {buf src : List Byte} {o : Nat} (h : o + src.length ≤ buf.length) :
    poke buf o src = .ok (overwrite buf o src) := by
  rw [poke, if_pos (by omega)]
  rfl

/-- **`ReadAt` returns the requested slice**, cut at the end of the file. -/
theorem readAt_eq {d : Disk} {f : OpenFile} {L n p : Nat} (hr : Readable f.hdr L) (fits : p + n < 2 ^ 31) :
    f.readAt d n p = .ok (tabulate (min n (L - p)) fun j => fileByte d f.hdr (p + j)) := by
  rw [OpenFile.readAt, hr.shaped.fileLength (by have := hr.small; omega)]
  by_cases h0 : min n (L - p) = 0
  · rw [Request.ofArgs_none h0, h0]
    rfl
  rw [Request.ofArgs_eq (by omega) (by omega) hr.small fits]
  generalize hm : min n (L - p) = m at h0 ⊢
  obtain ⟨hs, hb⟩ := newBuffer_eq (p := p) (m := m) (by omega) (by have := hr.small; omega)
  have span : p - p / 128 * 128 + m ≤ 128 * spanLength p m := by rw [spanLength]; omega
  have last : 128 * (p / 128 + spanLength p m - 1) < L := by rw [spanLength]; omega
  have hrd := readSectors_eq (d := d) hr (spanLength p m) (p / 128) (fun _ => last)
  have hstart : (p : Int) - (p / 128 : Nat) * sectorSize = ((p - p / 128 * 128 : Nat) : Int) := by
    rw [sectorSize]; omega
  simp only [hb, ok_bind, hs, Int.toNat_natCast, hrd]
  rw [show (0 : Int) = (0 : Nat) from rfl, poke_eq (by simp), overwrite_all (by simp)]
  simp only [ok_bind, hstart, length_tabulate, Int.toNat_natCast]
  rw [if_pos (by omega), take_drop_tabulate _ span]
  refine congrArg Except.ok (tabulate_congr fun j _ => ?_)
  congr 1; omega

/-- Reading a whole file from its start. -/
theorem readAt_all {d : Disk} {f : OpenFile} {L n : Nat} (hr : Readable f.hdr L) (hn : L ≤ n) (fits : n < 2 ^ 31) :
    f.readAt d n 0 = .ok (content d f.hdr L) := by
  have := readAt_eq (d := d) (p := 0) hr (by omega : 0 + n < 2 ^ 31)
  rw [Nat.cast_zero, Nat.sub_zero, Nat.min_eq_right hn] at this
  rw [this, content]
  simp only [Nat.zero_add]

/-! ## Writing -/

/-- Sectors other than those of `l` keep their contents. -/
def AgreeOff (l : List Nat) (d d' : Disk) : Prop := ∀ x, x ∉ l → d' x = d x

theorem AgreeOff.refl (l : List Nat) (d : Disk) : AgreeOff l d d := fun _ _ => rfl

theorem AgreeOff.trans {l : List Nat} {d d' d'' : Disk} (h : AgreeOff l d d') (h' : AgreeOff l d' d'') :
    AgreeOff l d d'' :=
  fun x hx => (h' x hx).trans (h x hx)

theorem AgreeOff.on {l m : List Nat} {d d' : Disk} (h : AgreeOff l d d') (dis : m.Disjoint l) : AgreeOn m d d' :=
  fun x hx => h x (dis hx)

/-- The write loop changes data sectors only, whatever the request. -/
theorem writeSectors_off {h : FileHeader} {L : Nat} (hs : h.Shaped L) : ∀ {count : Nat} {i : Int} {buf : List Byte}
    {d d' : Disk}, OpenFile.writeSectors h buf d count i = .ok d' → AgreeOff h.datas d d'
  | 0, _, _, d, d', hw => by cases hw; exact .refl _ _
  | count + 1, i, buf, d, d', hw => by
    obtain ⟨w, hb, hw⟩ := bind_ok hw
    obtain ⟨d₁, hd, hw⟩ := bind_ok hw
    obtain ⟨hlt, rfl⟩ := writeSector_ok hd
    have mem := hs.byteToSector_mem hb hlt
    refine AgreeOff.trans (fun x hx => ?_) (writeSectors_off hs hw)
    exact Function.update_of_ne (by rintro rfl; exact hx mem) _ _

/-- **`WriteAt` changes no sector but the file's data sectors**, whatever the request. -/
theorem writeAt_off {d d' : Disk} {f : OpenFile} {source : Nat → Byte} {n p r : Int} {L : Nat} (hs : f.hdr.Shaped L)
    (hw : f.writeAt d source n p = .ok (r, d')) : AgreeOff f.hdr.datas d d' := by
  unfold OpenFile.writeAt at hw
  split at hw
  · cases hw
    exact .refl _ _
  · obtain ⟨_, -, hw⟩ := bind_ok hw
    obtain ⟨_, -, hw⟩ := bind_ok hw
    obtain ⟨_, -, hw⟩ := bind_ok hw
    obtain ⟨_, -, hw⟩ := bind_ok hw
    obtain ⟨_, hd, hw⟩ := bind_ok hw
    cases hw
    exact writeSectors_off hs hd

theorem writeSectors_eq {h : FileHeader} {L : Nat} (hr : Readable h L) (nodup : h.datas.Nodup) :
    ∀ (count i : Nat) (buf : List Byte) (d : Disk), (0 < count → 128 * (i + count - 1) < L) →
    ∃ d', OpenFile.writeSectors h buf d count i = .ok d' ∧ ∀ o, o / 128 < h.datas.length → fileByte d' h o =
      if 128 * i ≤ o ∧ o < 128 * (i + count) then buf.getD (o - 128 * i) 0 else fileByte d h o
  | 0, i, buf, d, _ => ⟨d, rfl, fun o _ => (if_neg (by omega)).symm⟩
  | count + 1, i, buf, d, hi => by
    have hlast := hi (by omega)
    obtain ⟨w, hw, hd, hlt⟩ := hr.sector (i := i) (by omega)
    have hil : i < h.datas.length := by have := hr.shaped.lt_datas (o := 128 * i) (by omega); omega
    set v := Sector.tabulate fun j => buf.getD j 0
    -- only bytes of sector index `i` change: the data sectors are distinct
    have one : ∀ o, o / 128 < h.datas.length → fileByte (Function.update d w.toNat v) h o =
        if o / 128 = i then buf.getD (o % 128) 0 else fileByte d h o := by
      intro o ho
      rw [fileByte, hd]
      by_cases e : o / 128 = i
      · rw [e, Function.update_self, if_pos rfl, Sector.getD_tabulate _ (Nat.mod_lt _ (by omega))]
      · have : h.datas.getD (o / 128) 0 ≠ h.datas.getD i 0 := by
          rw [List.getD_eq_getElem _ _ ho, List.getD_eq_getElem _ _ hil]
          exact fun e' => e ((nodup.getElem_inj_iff).1 e')
        rw [Function.update_of_ne this, if_neg e, fileByte]
    obtain ⟨d', hd', rest⟩ := writeSectors_eq hr nodup count (i + 1) (buf.drop 128)
      (Function.update d w.toNat v) (fun hc => by rwa [show i + 1 + count - 1 = i + (count + 1) - 1 by omega])
    refine ⟨d', ?_, fun o ho => ?_⟩
    · rw [OpenFile.writeSectors, hw]
      simp only [ok_bind, writeSector_eq hlt]
      rw [show ((i : Int) + 1) = ((i + 1 : Nat) : Int) by omega]
      exact hd'
    · rw [rest o ho, one o ho]
      by_cases e : o / 128 = i
      · rw [if_neg (by omega), if_pos e, if_pos (by omega)]
        congr 1; omega
      · rw [if_neg e]
        by_cases c : 128 * (i + 1) ≤ o ∧ o < 128 * (i + 1 + count)
        · rw [if_pos c, if_pos (by omega)]
          rw [List.getD_eq_getElem?_getD, List.getElem?_drop, List.getD_eq_getElem?_getD,
            show 128 + (o - 128 * (i + 1)) = o - 128 * i by omega]
        · rw [if_neg c, if_neg (by omega)]

/-- A partly modified sector `i` of a request starting in sector `k` keeps the file's bytes. -/
theorem readPartial_eq {d : Disk} {f : OpenFile} {L : Nat} (hr : Readable f.hdr L) (c : Bool) (buf : List Byte) {k i : Nat}
    (hk : k ≤ i) (hi : 128 * i < L) (fits : 128 * (i - k) + 128 ≤ buf.length) :
    ∃ buf', f.readPartial d c buf (128 * (i - k) : Nat) i = .ok buf' ∧ buf'.length = buf.length ∧
      ∀ j, 128 * k + j < L → buf'.getD j 0 =
        if c = true ∧ (128 * k + j) / 128 = i then fileByte d f.hdr (128 * k + j) else buf.getD j 0 := by
  rw [OpenFile.readPartial]
  cases c with
  | false => exact ⟨buf, rfl, rfl, fun j _ => by simp⟩
  | true =>
    have := hr.small
    have pos : wrap32 ((i : Int) * sectorSize) = ((128 * i : Nat) : Int) := by
      rw [sectorSize, wrap32_eq (by omega) (by omega)]
      omega
    have hread : f.readAt d sectorSize (128 * i : Nat) = .ok (tabulate (min 128 (L - 128 * i)) fun j =>
        fileByte d f.hdr (128 * i + j)) := readAt_eq hr (by rw [sectorSize]; omega)
    rw [if_pos (rfl : true = true), pos, hread, ok_bind]
    generalize hsrc : tabulate (min 128 (L - 128 * i)) (fun j => fileByte d f.hdr (128 * i + j)) = src
    have len : src.length = min 128 (L - 128 * i) := by rw [← hsrc, length_tabulate]
    have room : 128 * (i - k) + src.length ≤ buf.length := by omega
    refine ⟨_, poke_eq room, length_overwrite room, fun j hj => ?_⟩
    rw [getD_overwrite room, len]
    by_cases h : (128 * k + j) / 128 = i
    · rw [if_pos (by omega), if_pos ⟨rfl, h⟩, ← hsrc, getD_tabulate _ (by omega),
        show 128 * i + (j - 128 * (i - k)) = 128 * k + j by omega]
    · rw [if_neg (by omega), if_neg fun c => h c.2]

/-- The first and the last sector of a request are read unless it covers them: outside the request
the buffer then holds what the file does. -/
theorem readAround_eq {d : Disk} {f : OpenFile} {L p m k i : Nat} (hr : Readable f.hdr L) (buf : List Byte)
    (length : buf.length = 128 * (i + 1 - k)) (inFile : p + m ≤ L) (first : 128 * k ≤ p ∧ p < 128 * (k + 1))
    (last : 128 * i < p + m ∧ p + m ≤ 128 * (i + 1)) (positive : 0 < m) :
    ∃ buf₁ buf₂, f.readPartial d (!decide (p = 128 * k)) buf 0 k = .ok buf₁ ∧
      f.readPartial d (!decide (p + m = 128 * (i + 1)) && (decide (k ≠ i) || decide (p = 128 * k))) buf₁
        (((i : Nat) - (k : Nat)) * sectorSize) i = .ok buf₂ ∧
      buf₂.length = 128 * (i + 1 - k) ∧
      ∀ o < L, 128 * k ≤ o → o < 128 * (i + 1) → ¬ (p ≤ o ∧ o < p + m) → buf₂.getD (o - 128 * k) 0 = fileByte d f.hdr o := by
  obtain ⟨buf₁, h₁, len₁, get₁⟩ := readPartial_eq (d := d) hr (!decide (p = 128 * k)) buf (le_refl k) (by omega) (by omega)
  rw [Nat.sub_self, Nat.mul_zero, Nat.cast_zero] at h₁
  obtain ⟨buf₂, h₂, len₂, get₂⟩ := readPartial_eq (d := d) hr
    (!decide (p + m = 128 * (i + 1)) && (decide (k ≠ i) || decide (p = 128 * k))) buf₁
    (by omega : k ≤ i) (by omega) (by omega)
  have offset : ((128 * (i - k) : Nat) : Int) = ((i : Nat) - (k : Nat)) * sectorSize := by
    rw [sectorSize]
    omega
  rw [offset] at h₂
  refine ⟨buf₁, buf₂, h₁, h₂, by omega, fun o ho from' upto outside => ?_⟩
  have e : 128 * k + (o - 128 * k) = o := by omega
  have g₁ := get₁ (o - 128 * k) (by omega)
  have g₂ := get₂ (o - 128 * k) (by omega)
  rw [e] at g₁ g₂
  rw [g₂, g₁]
  simp only [Bool.and_eq_true, Bool.or_eq_true, Bool.not_eq_true', decide_eq_true_eq, decide_eq_false_iff_not]
  split
  · rfl
  · rw [if_pos (by omega)]

/-- **`WriteAt` replaces the requested slice**, cut at the end of the file. -/
theorem writeAt_eq {d : Disk} {f : OpenFile} (source : Nat → Byte) {L n p : Nat} (hr : Readable f.hdr L)
    (nodup : f.hdr.datas.Nodup) (fits : p + n < 2 ^ 31) :
    ∃ d', f.writeAt d source n p = .ok ((min n (L - p) : Nat), d') ∧ AgreeOff f.hdr.datas d d' ∧
      ∀ o < L, fileByte d' f.hdr o = if p ≤ o ∧ o < p + n then source (o - p) else fileByte d f.hdr o := by
  suffices h : ∃ d', f.writeAt d source n p = .ok ((min n (L - p) : Nat), d') ∧
      ∀ o < L, fileByte d' f.hdr o = if p ≤ o ∧ o < p + n then source (o - p) else fileByte d f.hdr o by
    obtain ⟨d', hw, hb⟩ := h
    exact ⟨d', hw, writeAt_off hr.shaped hw, hb⟩
  have small := hr.small
  rw [OpenFile.writeAt, hr.shaped.fileLength (by omega)]
  by_cases h0 : min n (L - p) = 0
  · rw [Request.ofArgs_none h0, h0]
    exact ⟨d, rfl, fun o ho => (if_neg (by omega)).symm⟩
  rw [Request.ofArgs_eq (by omega) (by omega) hr.small fits]
  have cut : ∀ o < L, (o < p + n ↔ o < p + min n (L - p)) := fun o ho => by omega
  have inFile : p + min n (L - p) ≤ L := by omega
  generalize min n (L - p) = m at h0 cut inFile ⊢
  obtain ⟨hs, hb⟩ := newBuffer_eq (p := p) (m := m) (by omega) (by omega)
  set k := p / 128 with hk
  set i := (p + m - 1) / 128 with hi
  have span : spanLength p m = i + 1 - k := rfl
  have first : 128 * k ≤ p ∧ p < 128 * (k + 1) := by omega
  have last : 128 * i < p + m ∧ p + m ≤ 128 * (i + 1) := by omega
  have positive : 0 < m := by omega
  clear_value k i
  clear hk hi h0
  have lastAligned : (wrap32 ((p : Int) + m) = ((i : Nat) + 1) * sectorSize) ↔ p + m = 128 * (i + 1) := by
    rw [wrap32_eq (by omega) (by omega), sectorSize]
    omega
  have firstAligned : ((p : Int) = (k : Nat) * sectorSize) ↔ p = 128 * k := by
    rw [sectorSize]
    omega
  have one : ((k : Nat) : Int) ≠ (i : Nat) ↔ k ≠ i := by omega
  simp only [hb, ok_bind, hs, Int.toNat_natCast, lastAligned, firstAligned, one]
  obtain ⟨buf₁, buf₂, h₁, h₂, len₂, around⟩ := readAround_eq (d := d) hr (List.replicate (128 * spanLength p m) 0)
    (by rw [List.length_replicate, span]) inFile first last positive
  have start : (p : Int) - (k : Nat) * sectorSize = ((p - 128 * k : Nat) : Int) := by rw [sectorSize]; omega
  have room : p - 128 * k + (tabulate m source).length ≤ buf₂.length := by rw [length_tabulate]; omega
  obtain ⟨d', hw, hd⟩ := writeSectors_eq hr nodup (spanLength p m) k (overwrite buf₂ (p - 128 * k) (tabulate m source)) d
    (fun _ => by omega)
  refine ⟨d', ?_, fun o ho => ?_⟩
  · rw [h₁, ok_bind, h₂, ok_bind, start, poke_eq room, ok_bind, hw]
    rfl
  · rw [hd o (hr.shaped.lt_datas ho)]
    by_cases c : 128 * k ≤ o ∧ o < 128 * (k + spanLength p m)
    · rw [if_pos c, getD_overwrite room, length_tabulate]
      by_cases w : p ≤ o ∧ o < p + m
      · rw [if_pos (by omega), if_pos (by rw [cut o ho]; exact w), getD_tabulate _ (by omega)]
        congr 1; omega
      · rw [if_neg (by omega), if_neg (by rw [cut o ho]; exact w)]
        exact around o ho c.1 (by omega) w
    · rw [if_neg c, if_neg (by rw [cut o ho]; omega)]

/-- Writing a file from its start to its end. -/
theorem writeAt_all {d : Disk} {f : OpenFile} {bytes : List Byte} (hr : Readable f.hdr bytes.length)
    (nodup : f.hdr.datas.Nodup) :
    ∃ d', f.writeAt d (fun i => bytes.getD i 0) bytes.length 0 = .ok (bytes.length, d') ∧
      AgreeOff f.hdr.datas d d' ∧ content d' f.hdr bytes.length = bytes := by
  have := hr.small
  obtain ⟨d', hw, ho, hb⟩ := writeAt_eq (d := d) (fun i => bytes.getD i 0) (p := 0) hr nodup
    (by omega : 0 + bytes.length < 2 ^ 31)
  refine ⟨d', ?_, ho, ?_⟩
  · rw [Nat.sub_zero, Nat.min_self] at hw
    exact hw
  · refine (tabulate_congr fun o ho' => ?_).trans (tabulate_getD bytes)
    rw [hb o ho', if_pos (by omega), Nat.sub_zero]

-- the bytes of a whole file are never to be listed while a goal is elaborated
attribute [irreducible] content

end Nachos.Mp4
