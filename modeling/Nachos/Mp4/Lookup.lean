import Nachos.Mp4.Walking

/-!
# Headers and paths of a disk

What a disk says by itself: the headers reached from sectors 0 and 1, the sectors they
own, and where paths lead. Unlike `OpenDir`, the walks here go below an entry only when
its `Dir` flag is set. On a disk that holds a tidy store they agree with the store.
-/

namespace Nachos.Mp4
open Bytes

/-- The table of the directory with its header at `sector`. -/
def tableAt (d : Disk) (sector : Word) : Exec Dir := do
  (Directory.new numDirEntries).fetchFrom d (← openFile d sector)

/-- The free map on disk. -/
def diskMap (d : Disk) : Exec FreeMap := do fetchMap d (← openFile d freeMapSector)

/-- Where names lead from a header, through entries whose `Dir` flag is set: a header
sector, and whether it is a directory's. -/
def resolveFrom (d : Disk) : List (List Byte) → Word → Bool → Option (Word × Bool)
  | [], sector, dir => some (sector, dir)
  | name :: rest, sector, dir =>
    if dir then
      match tableAt d sector with
      | .ok t =>
        match t.lookup name with
        | some e => resolveFrom d rest e.sector (e.dir != 0)
        | none => none
      | .error _ => none
    else none

/-- Where names lead from the root directory. -/
def resolve (d : Disk) (names : List (List Byte)) : Option (Word × Bool) := resolveFrom d names directorySector true

/-- A file seen from outside. -/
inductive View where
  | directory (length : Int)
  | regular (length : Int) (contents : List Byte)

def viewAt (d : Disk) (sector : Word) (dir : Bool) : Exec View := do
  let file ← openFile d sector
  if dir then pure (.directory file.length)
  else do pure (.regular file.length (← file.readAt d file.length 0))

/-- The file that names lead to. -/
def view (d : Disk) (names : List (List Byte)) : Option (Exec View) := (resolve d names).map fun r => viewAt d r.1 r.2

/-- The headers of a disk: the map's, and the root's with those of the entries in use of
directories. A header below the root comes with the entries on the way, the last first. -/
inductive Reached (d : Disk) : Option (List Nat) → Word → Bool → Prop where
  | map : Reached d none freeMapSector false
  | root : Reached d (some []) directorySector true
  | entry {route : List Nat} {sector : Word} {t : Dir} {i : Nat} : Reached d (some route) sector true →
      tableAt d sector = .ok t → i < numDirEntries → (t.entry i).inUse ≠ 0 →
      Reached d (some (i :: route)) (t.entry i).sector ((t.entry i).dir != 0)

/-- **Sector ownership**: the headers of a disk have the layout of `Allocate` and own
sectors of their own, all of them marked in the map. -/
structure Ownership (d : Disk) : Prop where
  formed : ∀ {route sector dir}, Reached d route sector dir → ∃ h L, FileHeader.fetchFrom d sector = .ok h ∧ h.Shaped L ∧
    (dir = true → L = directoryFileSize) ∧ (route = none → L = freeMapFileSize)
  nodup : ∀ {route sector dir h}, Reached d route sector dir → FileHeader.fetchFrom d sector = .ok h →
    (h.owned sector.toNat).Nodup
  range : ∀ {route sector dir h}, Reached d route sector dir → FileHeader.fetchFrom d sector = .ok h →
    ∀ x ∈ h.owned sector.toNat, x < diskSectors
  disjoint : ∀ {route route' sector sector' dir dir' h h'}, Reached d route sector dir → Reached d route' sector' dir' →
    route ≠ route' → FileHeader.fetchFrom d sector = .ok h → FileHeader.fetchFrom d sector' = .ok h' →
    (h.owned sector.toNat).Disjoint (h'.owned sector'.toNat)
  marked : ∃ b, diskMap d = .ok b ∧ ∀ {route sector dir h}, Reached d route sector dir →
    FileHeader.fetchFrom d sector = .ok h → ∀ x ∈ h.owned sector.toNat, b.testBit x = true

namespace Store

/-- Where names lead from the root of the tree. -/
def walk (S : Store) (names : List (List Byte)) : Option Nat := Tree.follow S.child 1 (names.map toKey)

/-- The file that names lead to. -/
def file (S : Store) (names : List (List Byte)) : Option (Nat × Node) := (S.walk names).bind fun c => (S c).map (Prod.mk c)

variable {S : Store} {names : List (List Byte)} {c : Nat} {v : Node}

theorem file_eq (h : S.walk names = some c) (hv : S c = some v) : S.file names = some (c, v) := by
  rw [file, h, Option.bind_some, hv]
  rfl

theorem file_some (h : S.file names = some (c, v)) : S.walk names = some c ∧ S c = some v := by
  obtain ⟨c', hc, h⟩ := Option.bind_eq_some_iff.1 h
  obtain ⟨v', hv, h⟩ := Option.map_eq_some_iff.1 h
  cases h
  exact ⟨hc, hv⟩

/-- Every name leads to a live file. -/
theorem file_walk (tidy : Tidy S) (h : S.walk names = some c) : ∃ v, S.file names = some (c, v) := by
  suffices live : ∃ v, S c = some v by
    obtain ⟨v, hv⟩ := live
    exact ⟨v, file_eq h hv⟩
  induction names using List.reverseRecOn with
  | nil =>
    cases h
    obtain ⟨v, hv, -⟩ := tidy.root
    exact ⟨v, hv⟩
  | append_singleton names name _ =>
    rw [walk, List.map_append, List.map_singleton, Tree.follow_snoc] at h
    obtain ⟨q, -, hc⟩ := Option.bind_eq_some_iff.1 h
    exact (tidy.child_live hc).2

end Store

/-- A regular file is neither the map nor the root directory. -/
theorem Tidy.two_le {S : Store} (tidy : Tidy S) {names : List (List Byte)} {c : Nat} {v : Node} (file : S.file names = some (c, v))
    (regular : v.isDir = false) : 2 ≤ c := by
  obtain ⟨walked, hv⟩ := Store.file_some file
  cases names using List.reverseRecOn with
  | nil =>
    cases walked
    obtain ⟨u, hu, hd⟩ := tidy.root
    rw [hv] at hu
    cases hu
    rw [hd] at regular
    cases regular
  | append_singleton names name =>
    rw [Store.walk, List.map_append, List.map_singleton, Tree.follow_snoc] at walked
    obtain ⟨p, -, child⟩ := Option.bind_eq_some_iff.1 walked
    exact (tidy.child_live child).1

/-- A file seen from outside. -/
def Node.view (v : Node) : View :=
  if v.isDir then .directory v.bytes.length else .regular v.bytes.length v.bytes

variable {d d' : Disk} {S : Store} {s : Word} {v : Node} {names : List (List Byte)}

namespace Rep

section
variable (rep : Rep d S) (tidy : Tidy S)
include rep tidy

theorem tableAt (h : S s.toNat = some v) (hd : v.isDir = true) : tableAt d s = .ok v.table := by
  rw [Mp4.tableAt, rep.openFile tidy.toLaid h, ok_bind]
  exact rep.fetchTable tidy h hd rfl _

theorem diskMap : diskMap d = .ok S.freeMap := by
  obtain ⟨v, h, hd, hl⟩ := tidy.map
  obtain ⟨u, hu, -⟩ := tidy.root
  have mounted : Mounted d ⟨⟨v.hdr, 0⟩, ⟨u.hdr, 0⟩, none⟩ S := ⟨rep, ⟨v, h, rfl⟩, ⟨u, hu, rfl⟩⟩
  rw [Mp4.diskMap, rep.openFile tidy.toLaid (s := freeMapSector) h, ok_bind]
  exact mounted.fetchMap tidy

theorem resolveFrom (names : List (List Byte)) (h : S s.toNat = some v) :
    resolveFrom d names s v.isDir =
      (Tree.follow S.child s.toNat (names.map toKey)).bind fun c => (S c).map fun w => (BitVec.ofNat 32 c, w.isDir) := by
  induction names generalizing s v with
  | nil => simp [Mp4.resolveFrom, h]
  | cons name rest ih =>
    rw [Mp4.resolveFrom, List.map_cons, Tree.follow]
    cases hd : v.isDir with
    | false =>
      rw [Store.child_not_dir fun w hw => by rw [h] at hw; cases hw; exact hd]
      rfl
    | true =>
      rw [if_pos rfl, rep.tableAt tidy h hd]
      dsimp only
      rcases tidy.find h hd name with ⟨hc, -, hf⟩ | ⟨i, e, w, -, hi, rfl, -, -, hc, hw, kind⟩
      · rw [hc, Directory.lookup_none.2 hf]
        rfl
      · rw [hc, Directory.lookup, hi, Option.map_some, Option.bind_some]
        have flag : ((v.table.entry i).dir != 0) = w.isDir := by
          rw [Bool.eq_iff_iff, ← kind]
          simp
        dsimp only
        rw [flag]
        exact ih hw

/-- **Paths of the disk are paths of the store.** -/
theorem resolve (names : List (List Byte)) :
    resolve d names = (S.file names).map fun f => (BitVec.ofNat 32 f.1, f.2.isDir) := by
  obtain ⟨u, hu, hd⟩ := tidy.root
  have := rep.resolveFrom tidy (s := directorySector) names hu
  rw [hd] at this
  rw [Mp4.resolve, this, Store.file, Option.map_bind]
  refine congrArg (Option.bind (S.walk names)) (funext fun c => ?_)
  rw [Function.comp_apply, Option.map_map]
  rfl

/-- A path of the disk leads to a file of the store. -/
theorem resolve_some {dir : Bool} (h : Mp4.resolve d names = some (s, dir)) : ∃ v, S.file names = some (s.toNat, v) ∧ v.isDir = dir := by
  rw [rep.resolve tidy] at h
  obtain ⟨⟨c, v⟩, file, e⟩ := Option.map_eq_some_iff.1 h
  obtain ⟨rfl, kind⟩ := Prod.mk.inj e
  refine ⟨v, ?_, kind⟩
  rw [tidy.toNat_ofNat (Store.file_some file).2]
  exact file

theorem viewAt (h : S s.toNat = some v) : viewAt d s v.isDir = .ok v.view := by
  have small := tidy.length_le h
  have len : OpenFile.length ⟨v.hdr, 0⟩ = v.bytes.length := (tidy.shaped h).fileLength (by omega)
  rw [Mp4.viewAt, rep.openFile tidy.toLaid h, ok_bind, Node.view, len]
  cases v.isDir with
  | true => rfl
  | false =>
    have hr : Readable (OpenFile.mk v.hdr 0).hdr v.bytes.length := tidy.readable h
    rw [if_neg (by simp), if_neg (by simp), readAt_all hr le_rfl (by omega), ok_bind, rep.bytes h]
    rfl

theorem view (names : List (List Byte)) : view d names = (S.file names).map fun f => .ok f.2.view := by
  rw [Mp4.view, rep.resolve tidy, Option.map_map]
  cases hf : S.file names with
  | none => rfl
  | some f =>
    obtain ⟨c, v⟩ := f
    obtain ⟨-, hv⟩ := Store.file_some hf
    exact congrArg some (rep.viewAt tidy (s := BitVec.ofNat 32 c) (by rw [tidy.toNat_ofNat hv]; exact hv))

/-- A header of the disk is a live file of the store. -/
theorem reached {route : Option (List Nat)} {dir : Bool} (h : Reached d route s dir) :
    ∃ v, S s.toNat = some v ∧ v.isDir = dir ∧ (route = none → s.toNat = 0) ∧ (route = some [] → s.toNat = 1) := by
  induction h with
  | map =>
    obtain ⟨v, hv, hd, -⟩ := tidy.map
    exact ⟨v, hv, hd, fun _ => rfl, (fun h => by cases h)⟩
  | root =>
    obtain ⟨v, hv, hd⟩ := tidy.root
    exact ⟨v, hv, hd, (fun h => by cases h), fun _ => rfl⟩
  | @entry route sector t i _ ht hi hu ih =>
    obtain ⟨u, hs, hd, -⟩ := ih
    rw [rep.tableAt tidy hs hd] at ht
    cases ht
    obtain ⟨-, v, hv, kind⟩ := tidy.named ⟨u, hs, hd, hi, rfl, hu⟩
    refine ⟨v, hv, ?_, (fun h => by cases h), (fun h => by cases h)⟩
    rw [Bool.eq_iff_iff, ← kind]
    simp

end

end Rep

end Nachos.Mp4
