import Nachos.Mp4.Namespace

/-!
# Unlinking a file

`Remove` of a file or directory below another directory drops one file and one entry of
its parent. Unlinking keeps the invariant and cuts one edge of the tree of names; the
files below a removed directory stay live, without a name.
-/

namespace Nachos.Mp4
open Bytes

variable {S : Store} {p i s : Nat} {u v : Node} {name : List Byte} {m : FreeMap}

/-- What `Remove` establishes before it writes: entry `i` of the parent `u` names file
`v`, whose header sector and data sectors are the ones cleared in `m`. -/
structure Unlinking (S : Store) (p : Nat) (u : Node) (i : Nat) (name : List Byte) (s : Nat) (v : Node) (m : FreeMap) :
    Prop where
  parent : S p = some u
  isDir : u.isDir = true
  found : u.table.findIndex name = some i
  target : (u.table.entry i).sector.toNat = s
  file : S s = some v
  ne_parent : p ≠ s
  bits : ∀ x, m.testBit x = true ↔ S.freeMap.testBit x = true ∧ x ∉ s :: v.hdr.datas

/-- The parent's table without the entry. -/
def unlinkedTable (u : Node) (i : Nat) : Dir := u.table.setEntry i (Directory.removed (u.table.entry i))

/-- The store without file `s`. -/
def Store.unlink (S : Store) (p : Nat) (u : Node) (i s : Nat) (m : FreeMap) : Store :=
  ((S.put 0 m.toBytes).put p (unlinkedTable u i).toBytes).erase s

namespace Unlinking

theorem slot (unlink : Unlinking S p u i name s v m) : i < numDirEntries := (Directory.findIndex_some unlink.found).1

theorem entry (unlink : Unlinking S p u i name s v m) : S.Entry p i (u.table.entry i) :=
  ⟨u, unlink.parent, unlink.isDir, unlink.slot, rfl, (Directory.findIndex_some unlink.found).2.1⟩

section
variable (unlink : Unlinking S p u i name s v m) (sound : Sound S)
include unlink sound

theorem two_le : 2 ≤ s := unlink.target ▸ (sound.named unlink.entry).1

theorem parent_ne_zero : p ≠ 0 := sound.dir_ne_zero unlink.parent unlink.isDir

theorem at_parent : S.unlink p u i s m p = some { u with bytes := (unlinkedTable u i).toBytes } := by
  rw [Store.unlink, Store.erase_other _ unlink.ne_parent, Store.put_self]
  rw [Store.put_other _ (unlink.parent_ne_zero sound), unlink.parent]

theorem at_map {u₀ : Node} (h : S 0 = some u₀) : S.unlink p u i s m 0 = some { u₀ with bytes := m.toBytes } := by
  have := unlink.two_le sound
  rw [Store.unlink, Store.erase_other _ (by omega), Store.put_other _ (unlink.parent_ne_zero sound).symm,
    Store.put_self h]

omit unlink sound in
theorem at_gone : S.unlink p u i s m s = none := Store.erase_self _ _

omit unlink sound in
theorem at_other {q : Nat} (hs : q ≠ s) (hp : q ≠ p) (h0 : q ≠ 0) : S.unlink p u i s m q = S q := by
  rw [Store.unlink, Store.erase_other _ hs, Store.put_other _ hp, Store.put_other _ h0]

theorem edited : Edited S (S.unlink p u i s m) p u (unlinkedTable u i) s m where
  parent := unlink.parent
  isDir := unlink.isDir
  ne_parent := unlink.ne_parent
  ne_zero := by
    have := unlink.two_le sound
    omega
  ne_one := by
    have := unlink.two_le sound
    omega
  at_parent := unlink.at_parent sound
  at_map := unlink.at_map sound
  at_other := at_other

omit unlink sound in
theorem ne_gone {q : Nat} {w : Node} (h : S.unlink p u i s m q = some w) : q ≠ s := by
  rintro rfl
  rw [at_gone] at h
  cases h

/-- The files after unlinking are old ones, with their headers and kinds. -/
theorem files {q : Nat} {w : Node} (h : S.unlink p u i s m q = some w) : q ≠ s ∧
    ∃ w₀, S q = some w₀ ∧ w₀.hdr = w.hdr ∧ w₀.isDir = w.isDir ∧ (q ≠ p → q ≠ 0 → w₀ = w) :=
  ⟨ne_gone h, (unlink.edited sound).files sound.toTidy (ne_gone h) h⟩

/-- The files other than the removed one are there after unlinking, with their headers. -/
theorem keeps {q : Nat} {w : Node} (hs : q ≠ s) (h : S q = some w) :
    ∃ w', S.unlink p u i s m q = some w' ∧ w'.hdr = w.hdr := by
  obtain ⟨w', hw, hh, -⟩ := (unlink.edited sound).keeps hs h
  exact ⟨w', hw, hh⟩

theorem freeMap_eq : (S.unlink p u i s m).freeMap = m := (unlink.edited sound).freeMap_eq sound.toTidy

/-- The entries after unlinking. -/
theorem entry_iff {q j : Nat} {e : DirectoryEntry} :
    (S.unlink p u i s m).Entry q j e ↔ S.Entry q j e ∧ ¬ (q = p ∧ j = i) ∧ q ≠ s := by
  rcases eq_or_ne q s with rfl | hs
  · refine iff_of_false ?_ fun both => both.2.2 rfl
    rintro ⟨w, hw, -⟩
    exact ne_gone hw rfl
  rw [(unlink.edited sound).entry_iff sound.toTidy hs, unlinkedTable, Directory.entry_setEntry _ unlink.slot]
  rcases eq_or_ne q p with rfl | hp
  · rw [Store.entry_at unlink.parent unlink.isDir]
    rcases eq_or_ne j i with rfl | hj
    · rw [if_pos rfl]
      refine iff_of_false ?_ fun both => both.2.1 ⟨rfl, rfl⟩
      rintro (⟨-, -, rfl, hu⟩ | ⟨ne, -⟩)
      · exact hu rfl
      · exact ne rfl
    · simp [hj, hs]
  · simp [hp, hs]

theorem laid : Laid (S.unlink p u i s m) := by
  obtain ⟨u₀, h₀, -, hl⟩ := sound.map
  have size := sound.dirSize unlink.parent unlink.isDir
  have one : Laid (S.put 0 m.toBytes) := sound.toLaid.put h₀ (by rw [Bitmap.length_toBytes, hl, freeMapBytes_eq])
  have hp : S.put 0 m.toBytes p = some u := by rw [Store.put_other _ (unlink.parent_ne_zero sound), unlink.parent]
  exact (one.put hp (by rw [Directory.length_toBytes, size, directoryFileSize])).erase s

/-- **Unlinking keeps the invariant.** -/
theorem sound_unlink : Sound (S.unlink p u i s m) where
  toLaid := unlink.laid sound
  map := (unlink.edited sound).map sound.toTidy
  root := (unlink.edited sound).root sound.toTidy
  dirSize hw hd := (unlink.edited sound).dirSize sound.toTidy (ne_gone hw) hw hd
  marked {q w} hw x hx := by
    rw [unlink.freeMap_eq sound, unlink.bits]
    obtain ⟨hs, w₀, h₀, hh, -⟩ := unlink.files sound hw
    have mine : x ∈ w₀.owned q := by rwa [Node.owned, hh]
    refine ⟨sound.marked h₀ x mine, fun hx' => ?_⟩
    apply sound.disjoint h₀ unlink.file hs mine
    rcases List.mem_cons.1 hx' with rfl | hd
    · exact v.self_mem x
    · exact v.datas_subset s hd
  named {q j e} he := by
    obtain ⟨old, edge, -⟩ := (unlink.entry_iff sound).1 he
    obtain ⟨h2, w, hw, hk⟩ := sound.named old
    have hs : e.sector.toNat ≠ s := by
      intro h
      exact edge (sound.unique old unlink.entry (BitVec.eq_of_toNat_eq (h.trans unlink.target.symm)))
    obtain ⟨w', hw', -, same⟩ := (unlink.edited sound).keeps hs hw
    exact ⟨h2, w', hw', by rw [same]; exact hk⟩
  unique he he' := sound.unique ((unlink.entry_iff sound).1 he).1 ((unlink.entry_iff sound).1 he').1

theorem distinct (hd : S.Distinct) : (S.unlink p u i s m).Distinct := by
  intro q w hw hdir
  rcases eq_or_ne q p with rfl | hp
  · rw [unlink.at_parent sound] at hw
    cases hw
    rw [Node.table_toBytes]
    exact (hd unlink.parent unlink.isDir).removed unlink.slot
  · exact hd (((unlink.edited sound).dir_iff sound.toTidy (ne_gone hw) hp hdir).1 hw) hdir

/-- **Unlinking cuts one edge** of the tree of names. -/
theorem pruned (hd : S.Distinct) : Tree.Pruned S.child (S.unlink p u i s m).child p (toKey name) s := by
  have lookup : ∀ k : Key, (unlinkedTable u i).lookup k.bytes =
      if key k.bytes = key name then none else u.table.lookup k.bytes :=
    fun k => Directory.lookup_removed (hd unlink.parent unlink.isDir) unlink.found k.bytes
  constructor
  · rw [Store.child_eq unlink.parent unlink.isDir, Directory.lookup,
      Directory.findIndex_key (show key (toKey name).bytes = key name from key_key name), unlink.found]
    exact congrArg some unlink.target
  · rw [(unlink.edited sound).child_parent, lookup, if_pos (show key (toKey name).bytes = key name from key_key name)]
    rfl
  · intro k
    apply Store.child_not_dir
    intro w hw
    rw [at_gone] at hw
    cases hw
  · intro q k hs edge
    rcases eq_or_ne q p with rfl | hp
    · rw [(unlink.edited sound).child_parent, lookup, Store.child_eq unlink.parent unlink.isDir, if_neg]
      intro hk
      exact edge ⟨rfl, Key.ext (k.isKey.symm.trans hk)⟩
    · exact (unlink.edited sound).child_other sound.toTidy hs hp k

end

end Unlinking

end Nachos.Mp4
