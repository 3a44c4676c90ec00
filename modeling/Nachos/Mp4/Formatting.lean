import Nachos.Mp4.Removing

/-!
# A formatted disk

`FileSystem(TRUE)` succeeds on every disk and leaves two files: the map at sector 0 and
an empty root directory at sector 1, with exactly their sectors marked.
-/

namespace Nachos.Mp4
open Bytes

variable {d d' : Disk} {S : Store} {p : Nat}

/-- The store of a formatted disk. -/
def Store.formatted (map root : Node) : Store := fun s => if s = 0 then some map else if s = 1 then some root else none

/-- What `FileSystem(TRUE)` leaves. -/
structure Fresh (d : Disk) (fs : FileSystem) (S : Store) : Prop where
  mounted : Mounted d fs S
  sound : Sound S
  distinct : S.Distinct
  noEntry : ∀ p i e, ¬ S.Entry p i e
  only : ∀ {s v}, S s = some v → s = 0 ∨ s = 1
  exact : ∀ x, S.freeMap.testBit x = true → ∃ s v, S s = some v ∧ x ∈ v.owned s
  room : 500000 ≤ S.freeMap.numClear

/-- The two marks. -/
theorem marks_eq {b : FreeMap} (clear : ∀ x, b.testBit x = false) : ∃ b₁ b₂ : FreeMap, b.mark freeMapSector = .ok b₁ ∧
    b₁.mark directorySector = .ok b₂ ∧ b.Taken b₂ [0, 1] := by
  have hn : diskSectors < 2 ^ 31 := by rw [diskSectors_eq]; omega
  have h0 : (0 : Nat) < diskSectors := by rw [diskSectors_eq]; omega
  have h1 : (1 : Nat) < diskSectors := by rw [diskSectors_eq]; omega
  have c0 := Bitmap.numClear_setBit h0 (clear 0)
  have c1 := Bitmap.numClear_setBit (b := b.setBit 0) h1 (by rw [Bitmap.testBit_setBit _ h0, clear]; rfl)
  refine ⟨b.setBit 0, (b.setBit 0).setBit 1, Bitmap.mark_eq hn b h0, Bitmap.mark_eq hn _ h1, ?_⟩
  constructor
  · decide
  · intro x hx
    rcases List.mem_pair.1 hx with rfl | rfl
    · exact h0
    · exact h1
  · intro x _
    exact clear x
  · intro x
    rw [Bitmap.testBit_setBit _ h1, Bitmap.testBit_setBit _ h0, clear]
    simp [or_comm]
  · rw [← c0, ← c1]
    rfl

theorem mustAllocate_eq {b : FreeMap} {L : Nat} (hL : L < 2 ^ 31) (room : sectorsNeeded L ≤ b.numClear) : ∃ h b',
    FileSystem.mustAllocate b L = .ok (h, b') ∧ FileHeader.Allocated b b' h L := by
  have hn : diskSectors ≤ 2 ^ 31 := by rw [diskSectors_eq]; omega
  have size : allocLength (BitVec.ofNat 32 L) = L := by
    rw [allocLength, BitVec.toNat_ofNat, Nat.mod_eq_of_lt (by omega), if_pos (by omega)]
  obtain ⟨yes, -⟩ := FileHeader.allocate_spec hn b (BitVec.ofNat 32 L)
  rw [size] at yes
  obtain ⟨h, b', ha, al⟩ := yes room
  refine ⟨h, b', ?_, al⟩
  rw [FileSystem.mustAllocate, ha]
  rfl

/-- A disk holds the store with no files. -/
theorem rep_empty (d : Disk) : Rep d (fun _ => none) := ⟨by simp, by simp⟩

theorem laid_empty : Laid (fun _ => none) := ⟨by simp, by simp, by simp, by simp⟩

/-- Two lists of sectors taken after sectors 0 and 1, as the owned sectors of two files. -/
theorem owned_of_nodup {h g : FileHeader} (nodup : ([0, 1] ++ (h.exts ++ h.datas) ++ (g.exts ++ g.datas)).Nodup) :
    (h.owned 0).Nodup ∧ (g.owned 1).Nodup ∧ (h.owned 0).Disjoint (g.owned 1) := by
  simp only [FileHeader.owned]
  generalize h.exts ++ h.datas = l at nodup ⊢
  generalize g.exts ++ g.datas = r at nodup ⊢
  have e : [0, 1] ++ l ++ r = 0 :: 1 :: (l ++ r) := rfl
  rw [e] at nodup
  refine ⟨?_, ?_, ?_⟩
  · exact nodup.sublist (((List.sublist_append_left l r).cons 1).cons_cons 0)
  · exact nodup.sublist (((List.sublist_append_right l r).cons_cons 1).cons 0)
  · obtain ⟨n0, n1, rest⟩ : 0 ∉ 1 :: (l ++ r) ∧ 1 ∉ l ++ r ∧ (l ++ r).Nodup := by
      simpa only [List.nodup_cons] using nodup
    intro x hx hy
    rcases List.mem_cons.1 hx with rfl | hx <;> rcases List.mem_cons.1 hy with hy | hy
    · cases hy
    · exact n0 (List.mem_cons_of_mem _ (List.mem_append_right _ hy))
    · exact n1 (hy ▸ List.mem_append_left _ hx)
    · exact List.disjoint_of_nodup_append rest hx hy

/-- The sectors that `FileSystem(TRUE)` reserves before it writes to the disk. -/
structure Planned (mapHdr dirHdr : FileHeader) (b : FreeMap) : Prop where
  mapShaped : mapHdr.Shaped freeMapFileSize
  dirShaped : dirHdr.Shaped directoryFileSize
  mapNodup : (mapHdr.owned 0).Nodup
  dirNodup : (dirHdr.owned 1).Nodup
  apart : (mapHdr.owned 0).Disjoint (dirHdr.owned 1)
  bits : ∀ x, b.testBit x = true ↔ x ∈ mapHdr.owned 0 ∨ x ∈ dirHdr.owned 1
  range : ∀ x, x ∈ mapHdr.owned 0 ∨ x ∈ dirHdr.owned 1 → x < diskSectors
  room : 500000 ≤ b.numClear

theorem planned {b : FreeMap} (clear : ∀ x, b.testBit x = false) (count : b.numClear = diskSectors) :
    ∃ b₁ b₂ mapHdr b₃ dirHdr b₄, b.mark freeMapSector = .ok b₁ ∧ b₁.mark directorySector = .ok b₂ ∧
      FileSystem.mustAllocate b₂ freeMapFileSize = .ok (mapHdr, b₃) ∧
      FileSystem.mustAllocate b₃ directoryFileSize = .ok (dirHdr, b₄) ∧ Planned mapHdr dirHdr b₄ := by
  have sectors := diskSectors_eq
  obtain ⟨b₁, b₂, h₁, h₂, t₂⟩ := marks_eq clear
  have c₂ := t₂.count
  simp only [List.length_cons, List.length_nil] at c₂
  have mapLen : freeMapFileSize = 65536 := rfl
  have dirLen : directoryFileSize = 1280 := rfl
  obtain ⟨mapHdr, b₃, h₃, al₃⟩ := mustAllocate_eq (b := b₂) (L := freeMapFileSize) (by omega)
    (by rw [sectorsNeeded_eq, mapLen]; omega)
  have c₃ := al₃.taken.count
  rw [al₃.shaped.count, sectorsNeeded_eq, mapLen] at c₃
  obtain ⟨dirHdr, b₄, h₄, al₄⟩ := mustAllocate_eq (b := b₃) (L := directoryFileSize) (by omega)
    (by rw [sectorsNeeded_eq, dirLen]; omega)
  have c₄ := al₄.taken.count
  rw [al₄.shaped.count, sectorsNeeded_eq, dirLen] at c₄
  -- all sectors taken, and what each file owns of them
  have all := (t₂.append al₃.taken).append al₄.taken
  obtain ⟨nodup₀, nodup₁, apart⟩ := owned_of_nodup all.nodup
  have mem (x : Nat) : x ∈ [0, 1] ++ (mapHdr.exts ++ mapHdr.datas) ++ (dirHdr.exts ++ dirHdr.datas) ↔
      x ∈ mapHdr.owned 0 ∨ x ∈ dirHdr.owned 1 := by
    simp only [FileHeader.owned, List.mem_cons, List.mem_append, List.not_mem_nil, or_false]
    tauto
  refine ⟨b₁, b₂, mapHdr, b₃, dirHdr, b₄, h₁, h₂, h₃, h₄, al₃.shaped, al₄.shaped, nodup₀, nodup₁, apart, ?_, ?_, by omega⟩
  · intro x
    rw [all.bits x, clear, ← mem x, Bool.false_eq_true, or_false]
  · exact fun x hx => all.range x ((mem x).2 hx)

namespace Store
variable {map root : Node}

theorem formatted_cases {s : Nat} {v : Node} (h : formatted map root s = some v) : s = 0 ∧ v = map ∨ s = 1 ∧ v = root := by
  unfold formatted at h
  split at h
  · exact .inl ⟨‹_›, (Option.some.inj h).symm⟩
  split at h
  · exact .inr ⟨‹_›, (Option.some.inj h).symm⟩
  · cases h

theorem insert_formatted : (insert (insert (fun _ => none) 0 map) 1 root) = formatted map root := by
  funext q
  unfold formatted
  rcases eq_or_ne q 1 with rfl | h1
  · exact insert_self ..
  rw [insert_other _ h1, if_neg h1]
  rcases eq_or_ne q 0 with rfl | h0
  · exact insert_self ..
  · rw [insert_other _ h0, if_neg h0]

theorem formatted_put_map (bytes : List Byte) :
    (formatted map root).put 0 bytes = formatted { map with bytes := bytes } root := by
  funext q
  rcases eq_or_ne q 0 with rfl | h0
  · exact put_self rfl _
  · rw [put_other _ h0, formatted, formatted, if_neg h0, if_neg h0]

theorem formatted_put_root (bytes : List Byte) :
    (formatted map root).put 1 bytes = formatted map { root with bytes := bytes } := by
  funext q
  rcases eq_or_ne q 1 with rfl | h1
  · exact put_self rfl _
  · rw [put_other _ h1, formatted, formatted, if_neg h1, if_neg h1]

/-- Two files laid out apart, an empty directory among them, are a sound store. -/
theorem formatted_fresh {m : FreeMap} {fs : FileSystem} (laid : Laid (formatted map root)) (rep : Rep d (formatted map root))
    (hm : map.isDir = false) (hr : root.isDir = true) (mb : map.bytes = m.toBytes)
    (rb : root.bytes = (Directory.new numDirEntries).toBytes)
    (bits : ∀ x, m.testBit x = true ↔ x ∈ map.owned 0 ∨ x ∈ root.owned 1) (room : 500000 ≤ m.numClear)
    (hf : fs.freeMapFile.hdr = map.hdr) (hd : fs.directoryFile.hdr = root.hdr) : Fresh d fs (formatted map root) := by
  have noEntry : ∀ p i e, ¬ (formatted map root).Entry p i e := by
    rintro p i e ⟨v, hv, hdir, -, he, hu⟩
    rcases formatted_cases hv with ⟨-, rfl⟩ | ⟨-, rfl⟩
    · rw [hm] at hdir
      cases hdir
    · rw [Node.table, rb, Directory.ofBytes_toBytes, Directory.entry_new] at he
      rw [← he] at hu
      exact hu rfl
  have free : (formatted map root).freeMap = m := by
    rw [freeMap_eq (v := map) rfl, mb, Bitmap.ofBytes_toBytes]
  have sound : Sound (formatted map root) :=
    { toLaid := laid
      map := ⟨map, rfl, hm, by rw [mb, Bitmap.length_toBytes, freeMapBytes_eq]⟩
      root := ⟨root, rfl, hr⟩
      dirSize := by
        intro s v hv hdir
        rcases formatted_cases hv with ⟨-, rfl⟩ | ⟨-, rfl⟩
        · rw [hm] at hdir
          cases hdir
        · rw [rb, Directory.length_toBytes, directoryFileSize]
      named := fun he => absurd he (noEntry _ _ _)
      unique := fun he => absurd he (noEntry _ _ _)
      marked := by
        intro s v hv x hx
        rw [free, bits]
        rcases formatted_cases hv with ⟨rfl, rfl⟩ | ⟨rfl, rfl⟩
        · exact .inl hx
        · exact .inr hx }
  refine ⟨⟨rep, ⟨map, rfl, hf⟩, ⟨root, rfl, hd⟩⟩, sound, ?_, noEntry, ?_, ?_, by rw [free]; exact room⟩
  · intro s v hv hdir
    rcases formatted_cases hv with ⟨-, rfl⟩ | ⟨-, rfl⟩
    · rw [hm] at hdir
      cases hdir
    · rw [Node.table, rb, Directory.ofBytes_toBytes]
      exact Directory.distinct_new
  · intro s v hv
    rcases formatted_cases hv with ⟨h, -⟩ | ⟨h, -⟩
    · exact .inl h
    · exact .inr h
  · intro x hx
    rw [free, bits] at hx
    rcases hx with hx | hx
    · exact ⟨0, map, rfl, hx⟩
    · exact ⟨1, root, rfl, hx⟩

end Store

/-- The two headers are written. -/
theorem Planned.headers {mapHdr dirHdr : FileHeader} {b : FreeMap} (plan : Planned mapHdr dirHdr b) (raw : Disk) :
    ∃ d₁ d₂ mb rb, mb.length = freeMapFileSize ∧ rb.length = directoryFileSize ∧
      mapHdr.writeBack raw freeMapSector = .ok d₁ ∧ dirHdr.writeBack d₁ directorySector = .ok d₂ ∧
      Laid (Store.formatted ⟨mapHdr, mb, false⟩ ⟨dirHdr, rb, true⟩) ∧
      Rep d₂ (Store.formatted ⟨mapHdr, mb, false⟩ ⟨dirHdr, rb, true⟩) := by
  have range₀ : ∀ x ∈ mapHdr.owned 0, x < diskSectors := fun x hx => plan.range x (.inl hx)
  have range₁ : ∀ x ∈ dirHdr.owned 1, x < diskSectors := fun x hx => plan.range x (.inr hx)
  obtain ⟨d₁, w₁, -, rep₁⟩ := (rep_empty raw).writeHeader laid_empty (s := freeMapSector) plan.mapShaped plan.mapNodup range₀
    (fun h => by cases h) false
  rw [show freeMapSector.toNat = 0 from rfl] at rep₁
  set map : Node := ⟨mapHdr, content d₁ mapHdr freeMapFileSize, false⟩ with hmap
  have laid₁ := laid_empty.insert (s := 0) (v := map) (by rw [hmap, length_content]; exact plan.mapShaped) plan.mapNodup range₀
    (fun h => by cases h)
  have apart : ∀ {t w}, Store.insert (fun _ => none) 0 map t = some w → (dirHdr.owned 1).Disjoint (w.owned t) := by
    intro t w h
    rcases eq_or_ne t 0 with rfl | ht
    · rw [Store.insert_self] at h
      cases h
      exact List.disjoint_symm plan.apart
    · rw [Store.insert_other _ ht] at h
      cases h
  obtain ⟨d₂, w₂, -, rep₂⟩ := rep₁.writeHeader laid₁ (s := directorySector) plan.dirShaped plan.dirNodup range₁ apart true
  rw [show directorySector.toNat = 1 from rfl] at rep₂
  have laid₂ := laid₁.insert (s := 1) (v := ⟨dirHdr, content d₂ dirHdr directoryFileSize, true⟩)
    (by rw [length_content]; exact plan.dirShaped) plan.dirNodup range₁ apart
  rw [Store.insert_formatted] at rep₂ laid₂
  exact ⟨d₁, d₂, _, _, length_content .., length_content .., w₁, w₂, laid₂, rep₂⟩

/-- The map and the root directory's table are written. -/
theorem Rep.contents {map root : Node} (rep : Rep d (Store.formatted map root)) (laid : Laid (Store.formatted map root))
    (mapSize : map.bytes.length = freeMapFileSize) (rootSize : root.bytes.length = directoryFileSize) (m : FreeMap) (t : Dir) :
    ∃ d₁ d₂, Mp4.writeMap d m ⟨map.hdr, 0⟩ = .ok d₁ ∧ t.writeBack d₁ ⟨root.hdr, 0⟩ = .ok d₂ ∧
      Laid (Store.formatted { map with bytes := m.toBytes } { root with bytes := t.toBytes }) ∧
      Rep d₂ (Store.formatted { map with bytes := m.toBytes } { root with bytes := t.toBytes }) := by
  obtain ⟨d₁, w₁, rep₁⟩ := rep.writeMap laid (v := map) rfl mapSize (f := ⟨map.hdr, 0⟩) rfl m
  have laid₁ : Laid ((Store.formatted map root).put 0 m.toBytes) := laid.put rfl (by
    rw [mapSize, Bitmap.length_toBytes, freeMapBytes_eq])
  rw [Store.formatted_put_map] at rep₁ laid₁
  obtain ⟨d₂, w₂, rep₂, -⟩ := rep₁.writeTable laid₁ (p := 1) (u := root) rfl rootSize (f := ⟨root.hdr, 0⟩) rfl t
  have laid₂ : Laid ((Store.formatted { map with bytes := m.toBytes } root).put 1 t.toBytes) := laid₁.put rfl (by
    rw [rootSize, Directory.length_toBytes, directoryFileSize])
  rw [Store.formatted_put_root] at rep₂ laid₂
  exact ⟨d₁, d₂, w₁, w₂, laid₂, rep₂⟩

/-- **`FileSystem(TRUE)`** succeeds on every disk. -/
theorem format_spec (raw : Disk) : ∃ d fs S, FileSystem.format raw = .ok (d, fs) ∧ Fresh d fs S := by
  obtain ⟨b, hb, clear, count⟩ : ∃ b : FreeMap, b = Bitmap.empty diskSectors ∧ (∀ x, b.testBit x = false) ∧
    b.numClear = diskSectors := ⟨_, rfl, Bitmap.testBit_empty, Bitmap.numClear_empty _⟩
  obtain ⟨b₁, b₂, mapHdr, b₃, dirHdr, b₄, h₁, h₂, h₃, h₄, plan⟩ := planned clear count
  obtain ⟨d₁, d₂, mb, rb, mapSize, rootSize, w₁, w₂, laid₂, rep₂⟩ := plan.headers raw
  have open₀ := rep₂.openFile laid₂ (s := freeMapSector) rfl
  have open₁ := rep₂.openFile laid₂ (s := directorySector) rfl
  obtain ⟨d₃, d₄, w₃, w₄, laid₄, rep₄⟩ := rep₂.contents laid₂ mapSize rootSize b₄ (Directory.new numDirEntries)
  refine ⟨d₄, ⟨⟨mapHdr, 0⟩, ⟨dirHdr, 0⟩, none⟩,
    Store.formatted ⟨mapHdr, b₄.toBytes, false⟩ ⟨dirHdr, (Directory.new numDirEntries).toBytes, true⟩, ?_, ?_⟩
  · unfold FileSystem.format FileSystem.mount
    rw [← hb]
    -- step by step: the kernel must not compare maps of the whole disk
    rw [h₁, ok_bind, h₂, ok_bind, h₃, ok_bind]
    dsimp only
    rw [h₄, ok_bind]
    dsimp only
    rw [w₁, ok_bind, w₂, ok_bind, open₀, ok_bind, open₁, ok_bind]
    simp only [pure, Except.pure, ok_bind]
    rw [w₃, ok_bind, w₄, ok_bind]
  · exact Store.formatted_fresh (m := b₄) laid₄ rep₄ rfl rfl rfl rfl plan.bits plan.room rfl rfl

theorem Fresh.unused {fs : FileSystem} {u : Node} (fresh : Fresh d fs S) (hu : S 1 = some u) (hd : u.isDir = true) :
    (∀ i < numDirEntries, (u.table.entry i).inUse = 0) ∧ ∀ name, u.table.findIndex name = none := by
  have unused : ∀ i < numDirEntries, (u.table.entry i).inUse = 0 := by
    intro i hi
    by_contra h
    exact fresh.noEntry 1 i _ ⟨u, hu, hd, hi, rfl, h⟩
  refine ⟨unused, fun name => ?_⟩
  rw [Directory.findIndex_none]
  exact fun i hi used => absurd (unused i hi) used

/-- The root directory of a formatted disk has room for any name. -/
theorem Fresh.canCreate {fs : FileSystem} (fresh : Fresh d fs S) {parent : List Byte} (top : tokens parent = [])
    (name : List Byte) {L : Nat} (small : 1 + sectorsNeeded L ≤ 500000) : CanCreate S parent name L := by
  obtain ⟨u, hu, hd⟩ := fresh.sound.root
  have room := fresh.room
  obtain ⟨unused, missing⟩ := fresh.unused hu hd
  exact ⟨1, u, by rw [top]; rfl, hu, missing name, ⟨0, by decide, unused 0 (by decide)⟩, by omega⟩

/-- A formatted disk has no regular file to walk through. -/
theorem Fresh.dirsAlong {fs : FileSystem} (fresh : Fresh d fs S) (names : List (List Byte)) : DirsAlong S 1 names := by
  intro q c v _ hc hv
  cases q with
  | nil =>
    cases hc
    obtain ⟨u, hu, hd⟩ := fresh.sound.root
    rw [hv] at hu
    cases hu
    exact hd
  | cons a q =>
    obtain ⟨w, hw, -⟩ := Option.bind_eq_some_iff.1 hc
    obtain ⟨i, e, he, -⟩ := Store.child_some hw
    exact absurd he (fresh.noEntry 1 i e)

end Nachos.Mp4
