import Nachos.Mp4.Store

/-!
# The directory tree of a store

`Sound` is the invariant of the file system over its files: the entries of directories
name live files, each file once (`Tidy`), and the map marks the sectors the files own. The
directories of a tidy store are a rooted tree of names. `Edited` is what linking a file and
unlinking one have in common.
-/

namespace Nachos.Mp4
open Bytes

/-- A name as directories compare it. -/
structure Key where
  bytes : List Byte
  isKey : key bytes = bytes

theorem Key.ext {a b : Key} (h : a.bytes = b.bytes) : a = b := by
  cases a; cases b; cases h; rfl

theorem key_key (s : List Byte) : key (key s) = key s :=
  Directory.key_eq (fun _ hx => Directory.ne_zero_of_mem_key hx) (Directory.length_key_le s)

def toKey (name : List Byte) : Key := ⟨key name, key_key name⟩

/-- A component of one to nine characters is its own key. -/
theorem FileName.key_eq (c : FileName) : key c.bytes = c.bytes := Directory.key_eq c.noNul c.le

theorem toKey_inj {a b : FileName} (h : toKey a.bytes = toKey b.bytes) : a = b := by
  have := congrArg Key.bytes h
  simp only [toKey, FileName.key_eq] at this
  exact FileName.ext this

namespace Store

/-- Entry `i` of directory `p` is in use and is `e`. -/
def Entry (S : Store) (p i : Nat) (e : DirectoryEntry) : Prop :=
  ∃ v, S p = some v ∧ v.isDir = true ∧ i < numDirEntries ∧ v.table.entry i = e ∧ e.inUse ≠ 0

/-- The free map the store keeps in file 0. -/
def freeMap (S : Store) : FreeMap :=
  match S 0 with
  | some v => .ofBytes _ v.bytes
  | none => .empty _

/-- The file that directory `p` names by `k`. -/
def child (S : Store) (p : Nat) (k : Key) : Option Nat :=
  match S p with
  | some v => if v.isDir then (v.table.lookup k.bytes).map fun e => e.sector.toNat else none
  | none => none

/-- Every directory names a file once. -/
def Distinct (S : Store) : Prop := ∀ {s v}, S s = some v → v.isDir = true → v.table.Distinct

end Store

/-- The files of a store with its directories: each entry in use names a live file, and
no two entries name one file. -/
structure Tidy (S : Store) : Prop extends Laid S where
  map : ∃ v, S 0 = some v ∧ v.isDir = false ∧ v.bytes.length = freeMapFileSize
  root : ∃ v, S 1 = some v ∧ v.isDir = true
  dirSize : ∀ {s v}, S s = some v → v.isDir = true → v.bytes.length = directoryFileSize
  named : ∀ {p i e}, S.Entry p i e → 2 ≤ e.sector.toNat ∧ ∃ v, S e.sector.toNat = some v ∧ (e.dir ≠ 0 ↔ v.isDir = true)
  unique : ∀ {p i e p' i' e'}, S.Entry p i e → S.Entry p' i' e' → e.sector = e'.sector → p = p' ∧ i = i'

/-- The invariant of the file system over its files: the map marks what they own. -/
structure Sound (S : Store) : Prop extends Tidy S where
  marked : ∀ {s v}, S s = some v → ∀ x ∈ v.owned s, S.freeMap.testBit x = true

variable {S : Store} {p : Nat} {v : Node}

theorem Store.child_eq (h : S p = some v) (hd : v.isDir = true) (k : Key) :
    S.child p k = (v.table.lookup k.bytes).map fun e => e.sector.toNat := by
  simp only [child, h, hd, if_true]

theorem Store.child_not_dir (h : ∀ v, S p = some v → v.isDir = false) (k : Key) : S.child p k = none := by
  unfold child
  split
  · rename_i v hv
    rw [h v hv]
    rfl
  · rfl

theorem Store.child_some {k : Key} {w : Nat} (h : S.child p k = some w) :
    ∃ i e, S.Entry p i e ∧ e.sector.toNat = w ∧ key e.name.toList = k.bytes := by
  unfold child at h
  split at h
  · rename_i v hv
    split at h
    · rename_i hd
      obtain ⟨e, he, rfl⟩ := Option.map_eq_some_iff.1 h
      obtain ⟨i, hi, -, rfl, hu, hk⟩ := Directory.lookup_some he
      exact ⟨i, _, ⟨v, hv, hd, hi, rfl, hu⟩, rfl, by rw [hk, k.isKey]⟩
    · cases h
  · cases h

theorem Store.entry_at (h : S p = some v) (hd : v.isDir = true) {j : Nat} {e : DirectoryEntry} :
    S.Entry p j e ↔ j < numDirEntries ∧ v.table.entry j = e ∧ e.inUse ≠ 0 := by
  constructor
  · rintro ⟨w, hw, -, rest⟩
    rw [h] at hw
    cases hw
    exact rest
  · intro rest
    exact ⟨v, h, hd, rest⟩

/-- The map's words fill `FreeMapFileSize` bytes. -/
theorem freeMapBytes_eq : 4 * numWords diskSectors = freeMapFileSize := rfl

theorem Node.table_toBytes (u : Node) (t : Dir) : ({ u with bytes := t.toBytes } : Node).table = t :=
  Directory.ofBytes_toBytes t

theorem Store.freeMap_eq (h : S 0 = some v) : S.freeMap = .ofBytes _ v.bytes := by
  rw [freeMap, h]

namespace Tidy

theorem entry_lt (tidy : Tidy S) {i : Nat} {e : DirectoryEntry} (h : S.Entry p i e) : e.sector.toNat < diskSectors := by
  obtain ⟨-, v, hv, -⟩ := tidy.named h
  exact tidy.lt hv

/-- The map is not a directory. -/
theorem dir_ne_zero (tidy : Tidy S) (h : S p = some v) (hd : v.isDir = true) : p ≠ 0 := by
  rintro rfl
  obtain ⟨u₀, h₀, hf, -⟩ := tidy.map
  rw [h] at h₀
  cases h₀
  rw [hd] at hf
  cases hf

theorem child_zero (tidy : Tidy S) (k : Key) : S.child 0 k = none := by
  apply Store.child_not_dir
  intro v hv
  cases hd : v.isDir with
  | false => rfl
  | true => exact absurd rfl (tidy.dir_ne_zero hv hd)

/-- The directories are a rooted tree. -/
theorem rooted (tidy : Tidy S) : Tree.Rooted S.child 1 where
  parent {v v' w k k'} h h' := by
    obtain ⟨i, e, he, hs, hk⟩ := Store.child_some h
    obtain ⟨i', e', he', hs', hk'⟩ := Store.child_some h'
    obtain ⟨rfl, rfl⟩ := tidy.unique he he' (BitVec.eq_of_toNat_eq (hs.trans hs'.symm))
    obtain ⟨u, hu, -, -, rfl, -⟩ := he
    obtain ⟨u', hu', -, -, rfl, -⟩ := he'
    rw [hu] at hu'
    cases hu'
    exact ⟨rfl, Key.ext (hk.symm.trans hk')⟩
  root v k h := by
    obtain ⟨i, e, he, hs, -⟩ := Store.child_some h
    have := (tidy.named he).1
    omega

/-- A child is live, and is neither the map nor the root. -/
theorem child_live (tidy : Tidy S) {k : Key} {w : Nat} (h : S.child p k = some w) : 2 ≤ w ∧ ∃ v, S w = some v := by
  obtain ⟨i, e, he, rfl, -⟩ := Store.child_some h
  obtain ⟨h2, v, hv, -⟩ := tidy.named he
  exact ⟨h2, v, hv⟩

end Tidy

/-- Two stores with the same directories. -/
theorem Store.entry_congr {S S' : Store} (h : ∀ q w, w.isDir = true → (S' q = some w ↔ S q = some w)) {q j : Nat}
    {e : DirectoryEntry} : S'.Entry q j e ↔ S.Entry q j e := by
  constructor
  · rintro ⟨w, hw, hd, rest⟩
    exact ⟨w, (h q w hd).1 hw, hd, rest⟩
  · rintro ⟨w, hw, hd, rest⟩
    exact ⟨w, (h q w hd).2 hw, hd, rest⟩

theorem Store.child_congr {S S' : Store} (h : ∀ q w, w.isDir = true → (S' q = some w ↔ S q = some w)) :
    S'.child = S.child := by
  have one : ∀ {S S' : Store}, (∀ q w, w.isDir = true → (S' q = some w ↔ S q = some w)) → ∀ {q k c},
      S'.child q k = some c → S.child q k = some c := by
    intro S S' h q k c hc
    unfold child at hc
    split at hc
    · rename_i w hw
      split at hc
      · rename_i hd
        rwa [child_eq ((h q w hd).1 hw) hd]
      · cases hc
    · cases hc
  funext q k
  exact Option.ext fun c => ⟨one h, one fun q w hd => (h q w hd).symm⟩

/-! ## Changing the bytes of a file that is no directory -/

section
variable {s : Nat} {bytes : List Byte} (h : S s = some v) (hd : v.isDir = false)
include h hd

theorem Store.put_dirs (q : Nat) (w : Node) (hw : w.isDir = true) : S.put s bytes q = some w ↔ S q = some w := by
  rcases eq_or_ne q s with rfl | hs
  · rw [put_self h, h]
    constructor
    · intro e
      cases e
      rw [hd] at hw
      cases hw
    · intro e
      cases e
      rw [hd] at hw
      cases hw
  · rw [put_other S hs]

theorem Store.child_put : (S.put s bytes).child = S.child := child_congr (put_dirs h hd)

/-- Rewriting a regular file or the map leaves the directories as they are. -/
theorem Tidy.put (tidy : Tidy S) (len : bytes.length = v.bytes.length) : Tidy (S.put s bytes) where
  toLaid := tidy.toLaid.put h len
  map := by
    obtain ⟨u₀, h₀, hf, hl⟩ := tidy.map
    rcases eq_or_ne 0 s with rfl | hs
    · rw [h] at h₀
      cases h₀
      exact ⟨_, Store.put_self h bytes, hd, len.trans hl⟩
    · exact ⟨u₀, (Store.put_other S hs bytes).trans h₀, hf, hl⟩
  root := by
    obtain ⟨u₁, h₁, hr⟩ := tidy.root
    exact ⟨u₁, (Store.put_dirs h hd 1 u₁ hr).2 h₁, hr⟩
  dirSize hw hr := tidy.dirSize ((Store.put_dirs h hd _ _ hr).1 hw) hr
  named {p i e} he := by
    obtain ⟨h2, w, hw, hk⟩ := tidy.named ((Store.entry_congr (Store.put_dirs h hd)).1 he)
    refine ⟨h2, ?_⟩
    rcases eq_or_ne e.sector.toNat s with hs | hs
    · rw [hs] at hw ⊢
      rw [h] at hw
      cases hw
      exact ⟨_, Store.put_self h bytes, hk⟩
    · exact ⟨w, (Store.put_other S hs bytes).trans hw, hk⟩
  unique he he' := tidy.unique ((Store.entry_congr (Store.put_dirs h hd)).1 he)
    ((Store.entry_congr (Store.put_dirs h hd)).1 he')

/-- Writing a regular file keeps the invariant. -/
theorem Sound.put (sound : Sound S) (h0 : s ≠ 0) (len : bytes.length = v.bytes.length) : Sound (S.put s bytes) where
  toTidy := sound.toTidy.put h hd len
  marked {q w} hw x hx := by
    have map : (S.put s bytes).freeMap = S.freeMap := by
      rw [Store.freeMap, Store.freeMap, Store.put_other S h0.symm]
    rw [map]
    rcases eq_or_ne q s with rfl | hs
    · rw [Store.put_self h] at hw
      cases hw
      exact sound.marked h x hx
    · rw [Store.put_other S hs] at hw
      exact sound.marked hw x hx

end

/-! ## Changing the entries of a directory -/

/-- Directory `p` gets other entries and the map other bits, file `s` comes or goes, and the other
files stay. -/
structure Edited (S S' : Store) (p : Nat) (u : Node) (t : Dir) (s : Nat) (m : FreeMap) : Prop where
  parent : S p = some u
  isDir : u.isDir = true
  ne_parent : p ≠ s
  ne_zero : s ≠ 0
  ne_one : s ≠ 1
  at_parent : S' p = some { u with bytes := t.toBytes }
  at_map : ∀ {u₀}, S 0 = some u₀ → S' 0 = some { u₀ with bytes := m.toBytes }
  at_other : ∀ {q}, q ≠ s → q ≠ p → q ≠ 0 → S' q = S q

namespace Edited

variable {S' : Store} {u : Node} {t : Dir} {s : Nat} {m : FreeMap} {q : Nat} {w : Node}

/-- The old files are there, with their headers. -/
theorem keeps (edit : Edited S S' p u t s m) (hs : q ≠ s) (h : S q = some w) :
    ∃ w', S' q = some w' ∧ w'.hdr = w.hdr ∧ w'.isDir = w.isDir := by
  rcases eq_or_ne q p with rfl | hp
  · rw [edit.parent] at h
    cases h
    exact ⟨_, edit.at_parent, rfl, rfl⟩
  · rcases eq_or_ne q 0 with rfl | h0
    · exact ⟨_, edit.at_map h, rfl, rfl⟩
    · exact ⟨w, (edit.at_other hs hp h0).trans h, rfl, rfl⟩

/-- The other regular files keep their bytes. -/
theorem file_iff (edit : Edited S S' p u t s m) (hs : q ≠ s) (h0 : q ≠ 0) (hd : w.isDir = false) :
    S' q = some w ↔ S q = some w := by
  rcases eq_or_ne q p with rfl | hp
  · refine iff_of_false (fun h => ?_) fun h => ?_
    · rw [edit.at_parent] at h
      cases h
      exact Bool.false_ne_true (hd.symm.trans edit.isDir)
    · rw [edit.parent] at h
      cases h
      exact Bool.false_ne_true (hd.symm.trans edit.isDir)
  · rw [edit.at_other hs hp h0]

section
variable (edit : Edited S S' p u t s m) (tidy : Tidy S)
include edit tidy

/-- The files other than `s` are old ones, with their headers and kinds. -/
theorem files (hs : q ≠ s) (h : S' q = some w) :
    ∃ w₀, S q = some w₀ ∧ w₀.hdr = w.hdr ∧ w₀.isDir = w.isDir ∧ (q ≠ p → q ≠ 0 → w₀ = w) := by
  rcases eq_or_ne q p with rfl | hp
  · rw [edit.at_parent] at h
    cases h
    exact ⟨u, edit.parent, rfl, rfl, fun c => absurd rfl c⟩
  rcases eq_or_ne q 0 with rfl | h0
  · obtain ⟨u₀, hu, -⟩ := tidy.map
    rw [edit.at_map hu] at h
    cases h
    exact ⟨u₀, hu, rfl, rfl, fun _ c => absurd rfl c⟩
  · rw [edit.at_other hs hp h0] at h
    exact ⟨w, h, rfl, rfl, fun _ _ => rfl⟩

/-- The other directories keep their entries. -/
theorem dir_iff (hs : q ≠ s) (hp : q ≠ p) (hd : w.isDir = true) : S' q = some w ↔ S q = some w := by
  constructor
  · intro h
    obtain ⟨w₀, h₀, -, hk, same⟩ := edit.files tidy hs h
    have h0 := tidy.dir_ne_zero h₀ (hk.trans hd)
    exact same hp h0 ▸ h₀
  · intro h
    exact (edit.at_other hs hp (tidy.dir_ne_zero h hd)).trans h

theorem freeMap_eq : S'.freeMap = m := by
  obtain ⟨u₀, h₀, -⟩ := tidy.map
  rw [Store.freeMap_eq (edit.at_map h₀), Bitmap.ofBytes_toBytes]

theorem map : ∃ v, S' 0 = some v ∧ v.isDir = false ∧ v.bytes.length = freeMapFileSize := by
  obtain ⟨u₀, h₀, hd, -⟩ := tidy.map
  refine ⟨_, edit.at_map h₀, hd, ?_⟩
  rw [Bitmap.length_toBytes, freeMapBytes_eq]

theorem root : ∃ v, S' 1 = some v ∧ v.isDir = true := by
  obtain ⟨u₁, h₁, hd⟩ := tidy.root
  obtain ⟨w, hw, -, hk⟩ := edit.keeps edit.ne_one.symm h₁
  exact ⟨w, hw, hk.trans hd⟩

theorem dirSize (hs : q ≠ s) (hw : S' q = some w) (hd : w.isDir = true) : w.bytes.length = directoryFileSize := by
  rcases eq_or_ne q p with rfl | hp
  · rw [edit.at_parent] at hw
    cases hw
    rw [Directory.length_toBytes, directoryFileSize]
  · exact tidy.dirSize ((edit.dir_iff tidy hs hp hd).1 hw) hd

theorem entry_iff (hs : q ≠ s) {j : Nat} {e : DirectoryEntry} : S'.Entry q j e ↔
    (q = p ∧ j < numDirEntries ∧ t.entry j = e ∧ e.inUse ≠ 0) ∨ (q ≠ p ∧ S.Entry q j e) := by
  rcases eq_or_ne q p with rfl | hp
  · rw [Store.entry_at edit.at_parent edit.isDir, Node.table_toBytes]
    exact ⟨fun rest => .inl ⟨rfl, rest⟩, fun both => both.elim And.right fun ne => absurd rfl ne.1⟩
  · constructor
    · rintro ⟨w, hw, hd, rest⟩
      exact .inr ⟨hp, w, (edit.dir_iff tidy hs hp hd).1 hw, hd, rest⟩
    · rintro (⟨same, -⟩ | ⟨-, w, hw, hd, rest⟩)
      · exact absurd same hp
      · exact ⟨w, (edit.dir_iff tidy hs hp hd).2 hw, hd, rest⟩

theorem child_other (hs : q ≠ s) (hp : q ≠ p) (k : Key) : S'.child q k = S.child q k := by
  rcases eq_or_ne q 0 with rfl | h0
  · obtain ⟨u₀, hz, hf, -⟩ := tidy.map
    rw [tidy.child_zero]
    apply Store.child_not_dir
    intro w hw
    rw [edit.at_map hz] at hw
    cases hw
    exact hf
  · rw [Store.child, Store.child, edit.at_other hs hp h0]

omit tidy in
theorem child_parent (k : Key) : S'.child p k = (t.lookup k.bytes).map fun e => e.sector.toNat := by
  rw [Store.child_eq edit.at_parent edit.isDir, Node.table_toBytes]

end

end Edited

end Nachos.Mp4
