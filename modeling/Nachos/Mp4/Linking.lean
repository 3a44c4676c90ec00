import Nachos.Mp4.Namespace

/-!
# Linking a new file

`Create` and `CreateDirectory` change the store by one file and one entry of its parent.
Linking keeps the invariant and adds a leaf to the tree of names.
-/

namespace Nachos.Mp4
open Bytes

variable {S : Store} {p i s : Nat} {u v : Node} {name : List Byte} {m : FreeMap}

/-- What `Create` and `CreateDirectory` establish before they write: a free entry of the
parent `u`, and a file `v` on sectors that were clear and are set in `m`. -/
structure Linking (S : Store) (p : Nat) (u : Node) (i : Nat) (name : List Byte) (s : Nat) (v : Node) (m : FreeMap) :
    Prop where
  parent : S p = some u
  isDir : u.isDir = true
  slot : i < numDirEntries
  free : (u.table.entry i).inUse = 0
  fresh : u.table.findIndex name = none
  shaped : v.hdr.Shaped v.bytes.length
  nodup : (v.owned s).Nodup
  range : ∀ x ∈ v.owned s, x < diskSectors
  clear : ∀ x ∈ v.owned s, S.freeMap.testBit x = false
  bits : ∀ x, m.testBit x = true ↔ x ∈ v.owned s ∨ S.freeMap.testBit x = true
  empty : v.isDir = true → v.bytes = (Directory.new numDirEntries).toBytes

/-- The parent's table with the new entry. -/
def linkedTable (u : Node) (i : Nat) (name : List Byte) (s : Nat) (dir : Bool) : Dir :=
  u.table.setEntry i (Directory.added (u.table.entry i) name (BitVec.ofNat 32 s) dir)

/-- The store with file `v` linked. -/
def Store.link (S : Store) (p : Nat) (u : Node) (i : Nat) (name : List Byte) (s : Nat) (v : Node) (m : FreeMap) : Store :=
  ((S.insert s v).put p (linkedTable u i name s v.isDir).toBytes).put 0 m.toBytes

namespace Linking

section
variable (link : Linking S p u i name s v m) (sound : Sound S)
include link sound

/-- The sectors of the new file are no live file's. -/
theorem apart {t : Nat} {w : Node} (h : S t = some w) : (v.owned s).Disjoint (w.owned t) := by
  intro x hx hw
  have := sound.marked h x hw
  rw [link.clear x hx] at this
  cases this

theorem dead : S s = none := by
  cases h : S s with
  | none => rfl
  | some w => exact absurd (w.self_mem s) (link.apart sound h (v.self_mem s))

theorem ne_parent : p ≠ s := by
  rintro rfl
  have := link.dead sound
  rw [link.parent] at this
  cases this

theorem ne_zero : s ≠ 0 := by
  rintro rfl
  obtain ⟨u₀, h₀, -⟩ := sound.map
  rw [link.dead sound] at h₀
  cases h₀

theorem ne_one : s ≠ 1 := by
  rintro rfl
  obtain ⟨u₀, h₀, -⟩ := sound.root
  rw [link.dead sound] at h₀
  cases h₀

theorem parent_ne_zero : p ≠ 0 := sound.dir_ne_zero link.parent link.isDir

theorem at_new : S.link p u i name s v m s = some v := by
  rw [Store.link, Store.put_other _ (link.ne_zero sound), Store.put_other _ (link.ne_parent sound).symm,
    Store.insert_self]

theorem at_parent : S.link p u i name s v m p =
    some { u with bytes := (linkedTable u i name s v.isDir).toBytes } := by
  rw [Store.link, Store.put_other _ (link.parent_ne_zero sound), Store.put_self]
  rw [Store.insert_other _ (link.ne_parent sound), link.parent]

theorem at_map {u₀ : Node} (h : S 0 = some u₀) :
    S.link p u i name s v m 0 = some { u₀ with bytes := m.toBytes } := by
  rw [Store.link, Store.put_self]
  rw [Store.put_other _ (link.parent_ne_zero sound).symm, Store.insert_other _ (link.ne_zero sound).symm, h]

omit link sound in
theorem at_other {q : Nat} (hs : q ≠ s) (hp : q ≠ p) (h0 : q ≠ 0) : S.link p u i name s v m q = S q := by
  rw [Store.link, Store.put_other _ h0, Store.put_other _ hp, Store.insert_other _ hs]

theorem edited : Edited S (S.link p u i name s v m) p u (linkedTable u i name s v.isDir) s m where
  parent := link.parent
  isDir := link.isDir
  ne_parent := link.ne_parent sound
  ne_zero := link.ne_zero sound
  ne_one := link.ne_one sound
  at_parent := link.at_parent sound
  at_map := link.at_map sound
  at_other := at_other

/-- The files after linking: the new one, and the old ones with their headers and kinds. -/
theorem files {q : Nat} {w : Node} (h : S.link p u i name s v m q = some w) : (q = s ∧ w = v) ∨
    (q ≠ s ∧ ∃ w₀, S q = some w₀ ∧ w₀.hdr = w.hdr ∧ w₀.isDir = w.isDir ∧ (q ≠ p → q ≠ 0 → w₀ = w)) := by
  rcases eq_or_ne q s with rfl | hs
  · rw [link.at_new sound] at h
    exact .inl ⟨rfl, (Option.some.inj h).symm⟩
  · exact .inr ⟨hs, (link.edited sound).files sound.toTidy hs h⟩

theorem ne_live {q : Nat} {w : Node} (h : S q = some w) : q ≠ s := by
  rintro rfl
  rw [link.dead sound] at h
  cases h

/-- The old files are there after linking, with their headers. -/
theorem keeps {q : Nat} {w : Node} (h : S q = some w) : ∃ w', S.link p u i name s v m q = some w' ∧ w'.hdr = w.hdr := by
  obtain ⟨w', hw, hh, -⟩ := (link.edited sound).keeps (link.ne_live sound h) h
  exact ⟨w', hw, hh⟩

theorem freeMap_eq : (S.link p u i name s v m).freeMap = m := (link.edited sound).freeMap_eq sound.toTidy

/-- The entries after linking. -/
theorem entry_iff {q j : Nat} {e : DirectoryEntry} : (S.link p u i name s v m).Entry q j e ↔
    (q = p ∧ j = i ∧ e = Directory.added (u.table.entry i) name (BitVec.ofNat 32 s) v.isDir) ∨ S.Entry q j e := by
  rcases eq_or_ne q s with rfl | hs
  · -- a new directory is empty
    refine iff_of_false ?_ ?_
    · rintro ⟨w, hw, hd, hj, rfl, hu⟩
      rw [link.at_new sound] at hw
      cases hw
      rw [Node.table, link.empty hd, Directory.ofBytes_toBytes, Directory.entry_new] at hu
      exact hu rfl
    · rintro (⟨same, -⟩ | ⟨w, hw, -⟩)
      · exact link.ne_parent sound same.symm
      · exact link.ne_live sound hw rfl
  rw [(link.edited sound).entry_iff sound.toTidy hs, linkedTable, Directory.entry_setEntry _ link.slot]
  rcases eq_or_ne q p with rfl | hp
  · rw [Store.entry_at link.parent link.isDir]
    rcases eq_or_ne j i with rfl | hj
    · rw [if_pos rfl]
      constructor
      · rintro (⟨-, -, rfl, -⟩ | ⟨ne, -⟩)
        · exact .inl ⟨rfl, rfl, rfl⟩
        · exact absurd rfl ne
      · rintro (⟨-, -, rfl⟩ | ⟨-, rfl, hu⟩)
        · exact .inl ⟨rfl, link.slot, rfl, Directory.byte_one_ne⟩
        · exact absurd link.free hu
    · simp [hj]
  · simp [hp]

theorem laid_link : Laid (S.link p u i name s v m) := by
  obtain ⟨u₀, h₀, -, hl⟩ := sound.map
  have one := sound.toLaid.insert link.shaped link.nodup link.range (link.apart sound)
  have hp : S.insert s v p = some u := by rw [Store.insert_other _ (link.ne_parent sound), link.parent]
  have size := sound.dirSize link.parent link.isDir
  have two : Laid ((S.insert s v).put p (linkedTable u i name s v.isDir).toBytes) := one.put hp
    (by rw [Directory.length_toBytes, size, directoryFileSize])
  apply two.put (v := u₀)
  · rw [Store.put_other _ (link.parent_ne_zero sound).symm, Store.insert_other _ (link.ne_zero sound).symm, h₀]
  · rw [Bitmap.length_toBytes, hl, freeMapBytes_eq]

/-- **Linking keeps the invariant.** -/
theorem sound_link : Sound (S.link p u i name s v m) where
  toLaid := link.laid_link sound
  map := (link.edited sound).map sound.toTidy
  root := (link.edited sound).root sound.toTidy
  dirSize {q w} hw hd := by
    rcases link.files sound hw with ⟨rfl, rfl⟩ | ⟨hs, -⟩
    · rw [link.empty hd, Directory.length_toBytes, directoryFileSize]
    · exact (link.edited sound).dirSize sound.toTidy hs hw hd
  marked {q w} hw x hx := by
    rw [link.freeMap_eq sound, link.bits]
    rcases link.files sound hw with ⟨rfl, rfl⟩ | ⟨hs, w₀, h₀, hh, -⟩
    · exact .inl hx
    · right
      apply sound.marked h₀
      rwa [Node.owned, hh]
  named {q j e} he := by
    have number : (BitVec.ofNat 32 s).toNat = s := by
      have := link.range s (v.self_mem s)
      rw [diskSectors_eq] at this
      rw [BitVec.toNat_ofNat]
      omega
    rcases (link.entry_iff sound).1 he with ⟨-, -, rfl⟩ | old
    · have h0 := link.ne_zero sound
      have h1 := link.ne_one sound
      refine ⟨?_, v, ?_, ?_⟩
      · rw [Directory.added, number]
        omega
      · rw [Directory.added, number]
        exact link.at_new sound
      · simp only [Directory.added]
        cases v.isDir <;> simp
    · obtain ⟨h2, w, hw, hk⟩ := sound.named old
      obtain ⟨w', hw', -, same⟩ := (link.edited sound).keeps (link.ne_live sound hw) hw
      exact ⟨h2, w', hw', by rw [same]; exact hk⟩
  unique {q j e q' j' e'} he he' hs := by
    have only : ∀ {r l f}, S.Entry r l f → f.sector ≠ BitVec.ofNat 32 s := by
      intro r l f hf h
      obtain ⟨-, w, hw, -⟩ := sound.named hf
      have := link.range s (v.self_mem s)
      rw [diskSectors_eq] at this
      rw [h, BitVec.toNat_ofNat, Nat.mod_eq_of_lt (by omega), link.dead sound] at hw
      cases hw
    rcases (link.entry_iff sound).1 he with ⟨rfl, rfl, rfl⟩ | old <;>
      rcases (link.entry_iff sound).1 he' with ⟨rfl, rfl, rfl⟩ | old'
    · exact ⟨rfl, rfl⟩
    · exact absurd hs.symm (only old')
    · exact absurd hs (only old)
    · exact sound.unique old old' hs

omit sound in
/-- The parent's table finds the new entry under its name and the others as before. -/
theorem lookup_parent (k : List Byte) : (linkedTable u i name s v.isDir).lookup k =
    if key k = key name then some (Directory.added (u.table.entry i) name (BitVec.ofNat 32 s) v.isDir)
    else u.table.lookup k :=
  Directory.lookup_added link.slot link.free link.fresh _ _ _

/-- **Linking adds a leaf** to the tree of names. -/
theorem grown : Tree.Grown S.child (S.link p u i name s v m).child p (toKey name) s where
  fresh := by
    rw [Store.child_eq link.parent link.isDir, Option.map_eq_none_iff, Directory.lookup_none, ← link.fresh]
    exact Directory.findIndex_key (key_key name)
  unreached q k h := by
    obtain ⟨-, w, hw⟩ := sound.child_live h
    rw [link.dead sound] at hw
    cases hw
  added := by
    have := link.range s (v.self_mem s)
    rw [diskSectors_eq] at this
    rw [(link.edited sound).child_parent, link.lookup_parent, if_pos (show key (toKey name).bytes = key name from key_key name),
      Option.map_some, Directory.added, BitVec.toNat_ofNat, Nat.mod_eq_of_lt (by omega)]
  leaf k := by
    cases hd : v.isDir with
    | false =>
      apply Store.child_not_dir
      intro w hw
      rw [link.at_new sound] at hw
      cases hw
      exact hd
    | true =>
      rw [Store.child_eq (link.at_new sound) hd, Node.table, link.empty hd, Directory.ofBytes_toBytes, Directory.lookup_new]
      rfl
  others q k hs edge := by
    rcases eq_or_ne q p with rfl | hp
    · rw [(link.edited sound).child_parent, link.lookup_parent, Store.child_eq link.parent link.isDir, if_neg]
      intro hk
      exact edge ⟨rfl, Key.ext (k.isKey.symm.trans hk)⟩
    · exact (link.edited sound).child_other sound.toTidy hs hp k

theorem distinct (hd : S.Distinct) : (S.link p u i name s v m).Distinct := by
  intro q w hw hdir
  rcases link.files sound hw with ⟨rfl, rfl⟩ | ⟨hs, -⟩
  · rw [Node.table, link.empty hdir, Directory.ofBytes_toBytes]
    exact Directory.distinct_new
  · rcases eq_or_ne q p with rfl | hp
    · rw [link.at_parent sound] at hw
      cases hw
      rw [Node.table_toBytes]
      exact (hd link.parent link.isDir).added link.slot link.fresh _ _
    · exact hd (((link.edited sound).dir_iff sound.toTidy hs hp hdir).1 hw) hdir

end

end Linking

end Nachos.Mp4
