import Nachos.Mp4.Linking
import Nachos.Mp4.Unlinking

/-!
# Path walks on a mounted file system

On a mounted file system `OpenDir` and the reads of a parent's table do what `follow`
does in the tree of names, as long as the walk enters no regular file: the code does not
look at the `Dir` flag.
-/

namespace Nachos.Mp4
open Bytes

/-- `fs` is open on a disk that holds `S`: its in-core headers are those of the map and the
root directory. -/
structure Mounted (d : Disk) (fs : FileSystem) (S : Store) : Prop where
  rep : Rep d S
  mapHdr : ∃ v, S 0 = some v ∧ fs.freeMapFile.hdr = v.hdr
  dirHdr : ∃ v, S 1 = some v ∧ fs.directoryFile.hdr = v.hdr

/-- The walk of `names` from `p` passes through directories only, as far as it gets. -/
def DirsAlong (S : Store) (p : Nat) (names : List (List Byte)) : Prop :=
  ∀ q c v, q <+: names → Tree.follow S.child p (q.map toKey) = some c → S c = some v → v.isDir = true

variable {d d' : Disk} {fs : FileSystem} {S : Store} {p s : Nat} {u v : Node} {junk : Word}

/-! ## Reading tables and the map -/

section
variable (mounted : Mounted d fs S) (tidy : Tidy S)
include tidy

theorem Tidy.readable_dir (h : S p = some u) (hd : u.isDir = true) : Readable u.hdr (20 * numDirEntries) := by
  have := tidy.readable h
  rwa [tidy.dirSize h hd] at this

theorem Tidy.readable_map {v : Node} (h : S 0 = some v) : Readable v.hdr (4 * numWords diskSectors) := by
  obtain ⟨u₀, h₀, -, hl⟩ := tidy.map
  rw [h] at h₀
  cases h₀
  have := tidy.readable h
  rwa [hl, ← freeMapBytes_eq] at this

/-- `FetchFrom` a live directory. -/
theorem Rep.fetchTable (rep : Rep d S) (h : S p = some u) (hd : u.isDir = true) {f : OpenFile} (hf : f.hdr = u.hdr)
    (t : Dir) : t.fetchFrom d f = .ok u.table := by
  rw [Directory.fetchFrom_eq (hf ▸ tidy.readable_dir h hd), hf, Node.table, ← rep.bytes h, tidy.dirSize h hd,
    directoryFileSize]

omit tidy in
/-- Writing the map back. -/
theorem Rep.writeMap (rep : Rep d S) (laid : Laid S) (h : S 0 = some v) (size : v.bytes.length = freeMapFileSize)
    {f : OpenFile} (hf : f.hdr = v.hdr) (m : FreeMap) :
    ∃ d', writeMap d m f = .ok d' ∧ Rep d' (S.put 0 m.toBytes) := by
  have len : m.toBytes.length = v.bytes.length := by rw [Bitmap.length_toBytes, freeMapBytes_eq, size]
  have hr : Readable f.hdr m.toBytes.length := by
    rw [hf, len]
    exact laid.readable h
  obtain ⟨d', hw, off, hc⟩ := writeAt_all (d := d) hr (hf ▸ laid.datas_nodup h)
  rw [Bitmap.length_toBytes] at hw
  rw [hf] at off hc
  refine ⟨d', ?_, rep.put laid h off ?_⟩
  · rw [Mp4.writeMap, hw]
    rfl
  · rw [← len]
    exact hc

omit tidy in
/-- `WriteBack` to a live directory. -/
theorem Rep.writeTable (rep : Rep d S) (laid : Laid S) (h : S p = some u) (size : u.bytes.length = directoryFileSize)
    {f : OpenFile} (hf : f.hdr = u.hdr) (t : Dir) :
    ∃ d', t.writeBack d f = .ok d' ∧ Rep d' (S.put p t.toBytes) ∧ AgreeOff u.hdr.datas d d' := by
  have hr : Readable f.hdr (20 * numDirEntries) := by
    have := laid.readable h
    rw [hf]
    rwa [size] at this
  obtain ⟨d', hw, off, hc⟩ := Directory.writeBack_eq (d := d) hr (hf ▸ laid.datas_nodup h) t
  rw [hf] at off hc
  refine ⟨d', hw, rep.put laid h off ?_, off⟩
  rw [size]
  exact hc

include mounted

theorem Mounted.root : ∃ u, S 1 = some u ∧ u.isDir = true ∧ fs.directoryFile.hdr = u.hdr := by
  obtain ⟨u, hu, hf⟩ := mounted.dirHdr
  obtain ⟨u', hu', hd⟩ := tidy.root
  rw [hu] at hu'
  cases hu'
  exact ⟨u, hu, hd, hf⟩

theorem Mounted.fetchMap : fetchMap d fs.freeMapFile = .ok S.freeMap := by
  obtain ⟨v, hv, hf⟩ := mounted.mapHdr
  obtain ⟨u₀, h₀, -, hl⟩ := tidy.map
  rw [hv] at h₀
  cases h₀
  have hr := tidy.readable_map hv
  rw [Mp4.fetchMap, readAt_all (hf ▸ hr) le_rfl (by have := hr.small; omega), ok_bind, hf,
    overwrite_all (by rw [length_content, Bitmap.length_toBytes]), Store.freeMap_eq hv, ← mounted.rep.bytes hv, hl]
  rfl

end

/-! ## Walks -/

/-- The sector of an entry in use is never `-1`. -/
theorem Tidy.sector_ne (tidy : Tidy S) {i : Nat} {e : DirectoryEntry} (h : S.Entry p i e) : e.sector ≠ -1 := by
  intro hs
  have := tidy.entry_lt h
  rw [hs, diskSectors_eq] at this
  simp at this

/-- `Find` in a live directory. -/
theorem Tidy.find (tidy : Tidy S) (h : S p = some u) (hd : u.isDir = true) (name : List Byte) :
    (S.child p (toKey name) = none ∧ u.table.find name = -1 ∧ u.table.findIndex name = none) ∨
    ∃ i e v, S.Entry p i e ∧ u.table.findIndex name = some i ∧ u.table.entry i = e ∧ u.table.find name = e.sector ∧
      e.sector ≠ -1 ∧ S.child p (toKey name) = some e.sector.toNat ∧ S e.sector.toNat = some v ∧ (e.dir ≠ 0 ↔ v.isDir = true) := by
  have same : u.table.findIndex (toKey name).bytes = u.table.findIndex name := Directory.findIndex_key (key_key name)
  rw [Store.child_eq h hd, Directory.lookup, same, Directory.find]
  cases hi : u.table.findIndex name with
  | none => exact .inl ⟨rfl, rfl, rfl⟩
  | some i =>
    obtain ⟨hn, hu, hk⟩ := Directory.findIndex_some hi
    have he : S.Entry p i (u.table.entry i) := ⟨u, h, hd, hn, rfl, hu⟩
    obtain ⟨-, v, hv, kind⟩ := tidy.named he
    exact .inr ⟨i, _, v, he, rfl, rfl, rfl, tidy.sector_ne he, rfl, hv, kind⟩

theorem DirsAlong.head {ts : List (List Byte)} (h : DirsAlong S p ts) (hu : S p = some u) : u.isDir = true :=
  h [] p u (List.nil_prefix) rfl hu

theorem DirsAlong.tail {t : List Byte} {ts : List (List Byte)} {c : Nat} (h : DirsAlong S p (t :: ts))
    (hc : S.child p (toKey t) = some c) : DirsAlong S c ts := by
  intro q e v hq he hv
  refine h (t :: q) e v (List.cons_prefix_cons.2 ⟨rfl, hq⟩) ?_ hv
  rw [List.map_cons, Tree.follow, hc]
  exact he

/-- **The loop of `OpenDir` follows the names.** -/
theorem Mounted.walk (mounted : Mounted d fs S) (tidy : Tidy S) : ∀ (ts : List (List Byte)) (p : Nat) (u : Node) (sector : Word),
    S p = some u → DirsAlong S p ts →
    (Tree.follow S.child p (ts.map toKey) = none ∧ FileSystem.walk d ts u.table sector = .ok none) ∨
    ∃ c v w, Tree.follow S.child p (ts.map toKey) = some c ∧ S c = some v ∧ v.isDir = true ∧
      FileSystem.walk d ts u.table sector = .ok (some w) ∧ (ts ≠ [] → w.toNat = c)
  | [], p, u, sector, hu, dirs => .inr ⟨p, u, sector, rfl, hu, dirs.head hu, rfl, fun h => absurd rfl h⟩
  | t :: ts, p, u, sector, hu, dirs => by
    rw [List.map_cons, Tree.follow, FileSystem.walk]
    rcases tidy.find hu (dirs.head hu) t with ⟨hc, hf, -⟩ | ⟨i, e, v, he, -, -, hf, hne, hc, hv, -⟩
    · rw [hc, hf]
      exact .inl ⟨rfl, rfl⟩
    · have tail := dirs.tail hc
      have hd := tail.head hv
      rw [hc, hf, if_neg hne, mounted.rep.openFile tidy.toLaid hv, Option.bind_some, ok_bind,
        Rep.fetchTable tidy mounted.rep hv hd rfl, ok_bind]
      rcases mounted.walk tidy ts _ v e.sector hv tail with ⟨h₁, h₂⟩ | ⟨c, v', w, h₁, h₂, h₃, h₄, h₅⟩
      · exact .inl ⟨h₁, h₂⟩
      · refine .inr ⟨c, v', w, h₁, h₂, h₃, h₄, fun _ => ?_⟩
        cases ts with
        | nil =>
          cases h₁
          cases h₄
          rfl
        | cons t' ts' => exact h₅ (by simp)

section
variable (mounted : Mounted d fs S) (tidy : Tidy S)
include mounted tidy

/-- **`OpenDir`** of a path with components. -/
theorem Mounted.openDir {parent : List Byte} (hne : tokens parent ≠ []) (dirs : DirsAlong S 1 (tokens parent)) (junk : Word) :
    (Tree.follow S.child 1 ((tokens parent).map toKey) = none ∧ fs.openDir d junk parent = .ok none) ∨
    ∃ c v, Tree.follow S.child 1 ((tokens parent).map toKey) = some c ∧ S c = some v ∧ v.isDir = true ∧
      fs.openDir d junk parent = .ok (some ⟨v.hdr, 0⟩) := by
  obtain ⟨u, hu, hd, hf⟩ := mounted.root tidy
  rw [FileSystem.openDir, Rep.fetchTable tidy mounted.rep hu hd hf, ok_bind]
  rcases mounted.walk tidy _ 1 u junk hu dirs with ⟨h₁, h₂⟩ | ⟨c, v, w, h₁, h₂, h₃, h₄, h₅⟩
  · rw [h₂]
    exact .inl ⟨h₁, rfl⟩
  · refine .inr ⟨c, v, h₁, h₂, h₃, ?_⟩
    have hw : S w.toNat = some v := by rw [h₅ hne]; exact h₂
    rw [h₄, ok_bind]
    simp only [mounted.rep.openFile tidy.toLaid hw, ok_bind]
    rfl

/-- **The parent's table**, as the calls read it. -/
theorem Mounted.parentTable {parent : List Byte} (dirs : DirsAlong S 1 (tokens parent)) (junk : Word) :
    (Tree.follow S.child 1 ((tokens parent).map toKey) = none ∧ tokens parent ≠ [] ∧ fs.parentTable d junk parent = .ok none) ∨
    ∃ c v, Tree.follow S.child 1 ((tokens parent).map toKey) = some c ∧ S c = some v ∧ v.isDir = true ∧
      fs.parentTable d junk parent = .ok (some v.table) := by
  obtain ⟨u, hu, hd, hf⟩ := mounted.root tidy
  rw [FileSystem.parentTable, Rep.fetchTable tidy mounted.rep hu hd hf, ok_bind]
  by_cases hne : tokens parent ≠ []
  · rw [if_pos hne]
    rcases mounted.openDir tidy hne dirs junk with ⟨h₁, h₂⟩ | ⟨c, v, h₁, h₂, h₃, h₄⟩
    · rw [h₂]
      exact .inl ⟨h₁, hne, rfl⟩
    · refine .inr ⟨c, v, h₁, h₂, h₃, ?_⟩
      rw [h₄, ok_bind]
      have table := Rep.fetchTable tidy mounted.rep h₂ h₃ (f := ⟨v.hdr, 0⟩) rfl u.table
      simp only [table, ok_bind]
      rfl
  · rw [if_neg hne]
    rw [not_not] at hne
    refine .inr ⟨1, u, ?_, hu, hd, rfl⟩
    rw [hne]
    rfl

/-- Writing a directory's table through `OpenDir`. The store that the disk holds may
have changed outside of the directories. -/
theorem Mounted.writeParent {parent : List Byte} (hne : tokens parent ≠ []) (dirs : DirsAlong S 1 (tokens parent))
    (hp : Tree.follow S.child 1 ((tokens parent).map toKey) = some p) (hu : S p = some u) (junk : Word) (t : Dir) :
    fs.writeParent d junk parent t = t.writeBack d ⟨u.hdr, 0⟩ := by
  rcases mounted.openDir tidy hne dirs junk with ⟨h₁, -⟩ | ⟨c, v, h₁, h₂, -, h₄⟩
  · rw [hp] at h₁
    cases h₁
  · rw [hp] at h₁
    cases h₁
    rw [hu] at h₂
    cases h₂
    rw [FileSystem.writeParent, h₄]
    rfl

end

end Nachos.Mp4
