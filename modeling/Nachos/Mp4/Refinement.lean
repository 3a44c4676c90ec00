import Nachos.Base.FileTree
import Nachos.Base.Trace
import Nachos.Mp4.UserCalls

/-!
# The file system is a tree of files

Calls come with what they return. Over the runs of a client that keeps to what the code can
take, the files of the disk are a `FileTree`: each call returns, and what it returns and what it changes is
a step of the tree. The space is exact: `Create` takes the header, the data sectors and the extension headers
of a file, `Remove` gives back the header and the data sectors.
-/

namespace Nachos.Mp4
open Bytes Transition

instance : DecidableEq Key := fun a b => decidable_of_iff (a.bytes = b.bytes) ⟨Key.ext, congrArg Key.bytes⟩

/-- The limits of the file system. -/
def limits : FileTree.Limits where
  names := numDirEntries
  directory := directoryFileSize
  cost length := 1 + sectorsNeeded length
  refund length := 1 + divRoundUp length sectorSize

/-- The last component of a path. -/
def targetName (name : CString) : List Byte :=
  match splitPath name with
  | .ok (_, target) => target
  | .error _ => []

/-- A call on the tree. -/
def Call.onTree : Call → FileTree.Call Key Byte
  | .create _ name initialSize => .create ((parentNames name).map toKey) (toKey (targetName name)) (allocLength initialSize)
  | .createDirectory _ name => .createDirectory ((parentNames name).map toKey) (toKey (targetName name))
  | .remove _ name => .remove ((parentNames name).map toKey) (toKey (targetName name))
  | .openAs id _ name => .openAs id ((parentNames name).map toKey) (toKey (targetName name))
  | .write id source numBytes => .write id (tabulate numBytes.toNat source)
  | .read id numBytes => .read id numBytes.toNat
  | .seek id position => .seek id position.toNat
  | .close id => .close id

/-- One call with what it returns. -/
def Machine.call (m : Machine) : Call → Exec (FileTree.Answer Byte × Machine)
  | .create junk name initialSize => do
    let (created, d) ← m.fs.create m.disk junk name initialSize
    pure (.done created, { m with disk := d })
  | .createDirectory junk name => do
    let (created, d) ← m.fs.createDirectory m.disk junk name
    pure (.done created, { m with disk := d })
  | .remove junk name => do
    let (removed, d) ← m.fs.remove m.disk junk name
    pure (.done removed, { m with disk := d, descriptors := m.afterRemoval (resolve m.disk (pathNames name)) })
  | .openAs id junk name => do
    let (file, fs) ← m.fs.open m.disk junk name
    let h := file.map fun f => Descriptor.mk f (resolve m.disk (pathNames name)) false
    pure (.done file.isSome, { m with fs := fs }.setDescriptor id h)
  | .write id source numBytes =>
    match m.descriptors id with
    | none => pure (.wrote 0, m)
    | some h => do
      let (written, d, file) ← h.file.write m.disk source numBytes
      pure (.wrote written, { m with disk := d }.setDescriptor id (some { h with file := file }))
  | .read id numBytes =>
    match m.descriptors id with
    | none => pure (.read [], m)
    | some h => do
      let (buffer, file) ← h.file.read m.disk numBytes
      pure (.read buffer, m.setDescriptor id (some { h with file := file }))
  | .seek id position =>
    match m.descriptors id with
    | none => pure (.done true, m)
    | some h => pure (.done true, m.setDescriptor id (some { h with file := h.file.seek position }))
  | .close id => pure (.done true, m.setDescriptor id none)

/-- The path has a slash and fits the buffer of `SplitPath`. -/
def Splits (name : CString) : Prop := ∃ parts, splitPath name = .ok parts

/-- Transfers through a descriptor of a regular file that is still there, with no overflow. -/
def Transferable (m : Machine) (id : Nat) (numBytes : Int) : Prop :=
  ∀ h, m.descriptors id = some h → h.Writable ∧ h.file.seekPosition + numBytes < 2 ^ 31

/-- The calls of a client that keeps to what the code can take: it opens no name that a subdirectory lacks, and removes only
what is there, below a subdirectory (`Remove` deletes uninitialised pointers otherwise). -/
def Proper (m : Machine) : Call → Prop
  | .create _ name _ => Splits name ∧ DirParents m.disk name
  | .createDirectory _ name => Splits name ∧ DirParents m.disk name
  | .remove _ name => Splits name ∧ DirParents m.disk name ∧ parentNames name ≠ [] ∧ resolve m.disk (pathNames name) ≠ none
  | .openAs _ _ name => Splits name ∧ DirParents m.disk name ∧
      (resolve m.disk (pathNames name) = none → parentNames name ≠ [] → resolve m.disk (parentNames name) = none)
  | .write id _ numBytes => Transferable m id numBytes
  | .read id numBytes => Transferable m id numBytes
  | .seek _ position => 0 ≤ position ∧ position < 2 ^ 31
  | .close _ => True

/-- One call of a run. -/
def Machine.Calls (m : Machine) (c : Call) (a : FileTree.Answer Byte) (m' : Machine) : Prop := m.call c = .ok (a, m')

/-- A file as the tree has it. -/
def Node.shown (v : Node) : FileTree.File Byte := if v.isDir then .directory else .regular v.bytes

/-- What the tree says of a descriptor. -/
def Descriptor.shown (h : Descriptor) : Option (Nat × Nat) :=
  if h.removed then none
  else h.target.bind fun t => if t.2 then none else some (t.1.toNat, h.file.seekPosition.toNat)

/-- The tree of a machine whose disk holds the store. The map is no file of the tree. -/
def Machine.tree (m : Machine) (S : Store) : FileTree Nat Key Byte where
  file s := if s = 0 then none else (S s).map Node.shown
  child := S.child
  free := S.freeMap.numClear
  opened id := (m.descriptors id).bind Descriptor.shown

variable {d d' : Disk} {fs : FileSystem} {S S' : Store} {m m' : Machine} {c : Call} {path : CString}
  {parent name : List Byte} {p i s : Nat} {u v : Node} {b : FreeMap} {L : Nat} {a : FileTree.Answer Byte}

/-- A call with its answer is a call. -/
theorem Machine.run_of_call (done : m.call c = .ok (a, m')) : m.run c = .ok m' := by
  cases c with
  | create junk name initialSize =>
    obtain ⟨⟨r, d'⟩, made, done⟩ := bind_ok done
    cases done
    exact run_create made
  | createDirectory junk name =>
    obtain ⟨⟨r, d'⟩, made, done⟩ := bind_ok done
    cases done
    exact run_createDirectory made
  | remove junk name =>
    obtain ⟨⟨r, d'⟩, removed, done⟩ := bind_ok done
    cases done
    exact run_remove removed
  | openAs id junk name =>
    obtain ⟨⟨file, fs⟩, opened, done⟩ := bind_ok done
    cases done
    rw [run, opened]
    rfl
  | write id source numBytes =>
    unfold call at done
    unfold run
    cases hh : m.descriptors id with
    | none =>
      simp only [hh] at done ⊢
      cases done
      rfl
    | some h =>
      simp only [hh] at done ⊢
      obtain ⟨⟨r, d', file⟩, wrote, done⟩ := bind_ok done
      cases done
      rw [wrote]
      rfl
  | read id numBytes =>
    unfold call at done
    unfold run
    cases hh : m.descriptors id with
    | none =>
      simp only [hh] at done ⊢
      cases done
      rfl
    | some h =>
      simp only [hh] at done ⊢
      obtain ⟨⟨r, file⟩, read, done⟩ := bind_ok done
      cases done
      rw [read]
      rfl
  | seek id position =>
    unfold call at done
    unfold run
    cases hh : m.descriptors id with
    | none =>
      simp only [hh] at done ⊢
      cases done
      rfl
    | some h =>
      simp only [hh] at done ⊢
      cases done
      rfl
  | close id =>
    cases done
    rfl

/-! ## Space -/

theorem Bitmap.numClear_congr {n : Nat} {b b' : Bitmap n} (same : ∀ x, b'.testBit x = b.testBit x) : b'.numClear = b.numClear := by
  rw [Bitmap.numClear, Bitmap.numClear]
  congr
  funext x
  rw [same]

/-- What is released is clear again. -/
theorem Bitmap.Released.count {n : Nat} {l : List Nat} {b b' : Bitmap n} (released : b.Released b' l) (nodup : l.Nodup)
    (range : ∀ x ∈ l, x < n) (marked : ∀ x ∈ l, b.testBit x = true) : b'.numClear = b.numClear + l.length := by
  induction l generalizing b' with
  | nil =>
    apply Bitmap.numClear_congr
    intro x
    rw [Bool.eq_iff_iff, released x]
    simp
  | cons x l ih =>
    obtain ⟨new, nodup⟩ := List.nodup_cons.1 nodup
    have here := range x List.mem_cons_self
    have clear : b'.testBit x = false := by
      rw [← Bool.not_eq_true, released x]
      simp
    -- with `x` set again only the others are released
    have others : b.Released (b'.setBit x) l := by
      intro y
      rw [Bitmap.testBit_setBit b' here, Bool.or_eq_true, decide_eq_true_eq, released y, List.mem_cons, not_or]
      constructor
      · rintro (rfl | both)
        · exact ⟨marked y List.mem_cons_self, new⟩
        · exact ⟨both.1, both.2.2⟩
      · rintro ⟨set', kept⟩
        by_cases same : y = x
        · exact .inl same
        · exact .inr ⟨set', same, kept⟩
    have smaller := ih others nodup (fun y mem => range y (List.mem_cons_of_mem x mem)) fun y mem => marked y (List.mem_cons_of_mem x mem)
    have one := Bitmap.numClear_setBit here clear
    rw [List.length_cons]
    omega

/-- A directory has as many names as entries in use. -/
theorem Store.names_lt_iff (distinct : S.Distinct) (hp : S p = some u) (hd : u.isDir = true) :
    {k | S.child p k ≠ none}.ncard < numDirEntries ↔ ∃ i < numDirEntries, (u.table.entry i).inUse = 0 := by
  let keyAt (i : Nat) : Key := toKey (u.table.entry i).name.toList
  let used := (Finset.range numDirEntries).filter fun i => (u.table.entry i).inUse ≠ 0
  have names : {k | S.child p k ≠ none} = keyAt '' (used : Set Nat) := by
    ext k
    simp only [Set.mem_ofPred_eq, Set.mem_image, Finset.mem_coe, used, Finset.mem_filter, Finset.mem_range]
    constructor
    · intro named
      obtain ⟨w, hw⟩ := Option.ne_none_iff_exists'.1 named
      obtain ⟨i, e, he, -, hk⟩ := Store.child_some hw
      obtain ⟨hi, rfl, hu⟩ := (Store.entry_at hp hd).1 he
      exact ⟨i, ⟨hi, hu⟩, Key.ext hk⟩
    · rintro ⟨i, ⟨hi, hu⟩, rfl⟩ none'
      rw [Store.child_eq hp hd, Option.map_eq_none_iff, Directory.lookup_none, Directory.findIndex_none] at none'
      exact none' i hi hu (key_key _).symm
  have inj : Set.InjOn keyAt used := by
    intro i hi j hj same
    obtain ⟨hi, hiu⟩ := Finset.mem_filter.1 (Finset.mem_coe.1 hi)
    obtain ⟨hj, hju⟩ := Finset.mem_filter.1 (Finset.mem_coe.1 hj)
    exact distinct hp hd i (Finset.mem_range.1 hi) j (Finset.mem_range.1 hj) hiu hju (congrArg Key.bytes same)
  have all : used ⊆ Finset.range numDirEntries := Finset.filter_subset _ _
  rw [names, inj.ncard_image, Set.ncard_coe_finset]
  constructor
  · intro few
    by_contra full
    have every : used = Finset.range numDirEntries := by
      apply Finset.filter_true_of_mem
      intro i hi unused
      exact full ⟨i, Finset.mem_range.1 hi, unused⟩
    rw [every, Finset.card_range] at few
    exact lt_irrefl _ few
  · rintro ⟨i, hi, unused⟩
    have proper : used ⊂ Finset.range numDirEntries := by
      refine all.ssubset_of_ne fun every => ?_
      have mem : i ∈ used := every ▸ Finset.mem_range.2 hi
      exact (Finset.mem_filter.1 mem).2 unused
    have := Finset.card_lt_card proper
    rwa [Finset.card_range] at this

/-! ## The tree of a machine -/

theorem Machine.file_tree (m : Machine) {q : Nat} (h0 : q ≠ 0) : (m.tree S).file q = (S q).map Node.shown := if_neg h0

theorem Node.shown_dir (hd : v.isDir = true) : v.shown = .directory := if_pos hd

theorem Node.shown_regular (hd : v.isDir = false) : v.shown = .regular v.bytes := if_neg (by rw [hd]; exact Bool.false_ne_true)

/-- A directory shows nothing of its bytes. -/
theorem Node.shown_congr {w : Node} (hd : v.isDir = true) (hw : w.isDir = true) : v.shown = w.shown := by
  rw [v.shown_dir hd, w.shown_dir hw]

theorem Tidy.file_directory (tidy : Tidy S) (m : Machine) :
    (m.tree S).file p = some .directory ↔ ∃ u, S p = some u ∧ u.isDir = true := by
  constructor
  · intro shown
    have h0 : p ≠ 0 := by
      rintro rfl
      cases shown
    rw [m.file_tree h0] at shown
    obtain ⟨u, hu, kind⟩ := Option.map_eq_some_iff.1 shown
    refine ⟨u, hu, ?_⟩
    by_contra regular
    rw [Node.shown_regular (by simpa using regular)] at kind
    cases kind
  · rintro ⟨u, hu, hd⟩
    rw [m.file_tree (tidy.dir_ne_zero hu hd), hu, Option.map_some, u.shown_dir hd]

/-- **A file can be made exactly when the tree has room for it.** -/
theorem Sound.fits_iff (sound : Sound S) (distinct : S.Distinct) (m : Machine) (parent name : List Byte) (L : Nat) :
    (∃ p, Tree.follow S.child 1 ((tokens parent).map toKey) = some p ∧ (m.tree S).Fits limits p (toKey name) L) ↔
      CanCreate S parent name L ∧ ∀ p u, Tree.follow S.child 1 ((tokens parent).map toKey) = some p → S p = some u → u.isDir = true := by
  have tidy := sound.toTidy
  constructor
  · rintro ⟨p, hp, dir, free, few, room⟩
    obtain ⟨u, hu, hd⟩ := (tidy.file_directory m).1 dir
    refine ⟨⟨p, u, hp, hu, ?_, (Store.names_lt_iff (S := S) distinct hu hd).1 few, room⟩, fun q w hq hw => ?_⟩
    · rcases tidy.find hu hd name with ⟨-, -, none'⟩ | ⟨i, e, w, -, -, -, -, -, hc, -⟩
      · exact none'
      · cases hc.symm.trans free
    · rw [hp] at hq
      cases hq
      rw [hu] at hw
      cases hw
      exact hd
  · rintro ⟨⟨p, u, hp, hu, fresh, slot, room⟩, dirs⟩
    have hd := dirs p u hp hu
    refine ⟨p, hp, (tidy.file_directory m).2 ⟨u, hu, hd⟩, ?_, (Store.names_lt_iff (S := S) distinct hu hd).2 slot, room⟩
    rcases tidy.find hu hd name with ⟨none', -⟩ | ⟨i, e, w, -, hi, -⟩
    · exact none'
    · cases hi.symm.trans fresh

/-- What the tree has open is an open regular file that is still there. -/
theorem Machine.opened_some {id q position : Nat} (opened : (m.tree S).opened id = some (q, position)) :
    ∃ h sector, m.descriptors id = some h ∧ h.removed = false ∧ h.target = some (sector, false) ∧ sector.toNat = q ∧
      h.file.seekPosition.toNat = position := by
  obtain ⟨h, hh, shown⟩ := Option.bind_eq_some_iff.1 opened
  obtain ⟨kept, shown⟩ := Option.ite_none_left_eq_some.1 shown
  obtain ⟨⟨sector, dir⟩, target, shown⟩ := Option.bind_eq_some_iff.1 shown
  obtain ⟨regular, shown⟩ := Option.ite_none_left_eq_some.1 shown
  cases shown
  rw [Bool.not_eq_true] at kept regular
  rw [show dir = false from regular] at target
  exact ⟨h, sector, hh, kept, target, rfl, rfl⟩

section

variable (inv : Invariant m S)
include inv

/-- A header sector that was free is no file of the tree. -/
theorem Linking.unused (link : Linking S p u i name s v b) : (m.tree S).Unused s where
  file := by
    rw [m.file_tree (link.ne_zero inv.sound), link.dead inv.sound]
    rfl
  named := (link.grown inv.sound).unreached
  opened id position opened := by
    obtain ⟨h, sector, hh, kept, target, here, -⟩ := Machine.opened_some opened
    obtain ⟨-, w, hw, -⟩ := inv.writable hh kept target
    rw [here, link.dead inv.sound] at hw
    cases hw

/-- **Creating a file** is a link in the tree. -/
theorem Created.tree {dir : Bool} (made : Created S parent name dir L d' p u i s v b) :
    ({ m with disk := d' } : Machine).tree (S.link p u i name s v b) = (m.tree S).link p (toKey name) s v.shown (limits.cost L) := by
  have link := made.link
  have sound := inv.sound
  have edit := link.edited sound
  apply FileTree.ext
  · funext q
    show (if q = 0 then none else (S.link p u i name s v b q).map Node.shown) = Function.update (m.tree S).file s (some v.shown) q
    rcases eq_or_ne q s with rfl | hs
    · rw [if_neg (link.ne_zero sound), link.at_new sound, Function.update_self]
      rfl
    rw [Function.update_of_ne hs]
    by_cases h0 : q = 0
    · rw [if_pos h0, h0]
      rfl
    rw [if_neg h0, m.file_tree h0]
    rcases eq_or_ne q p with rfl | hp
    · rw [edit.at_parent, link.parent, Option.map_some, Option.map_some]
      exact congrArg some (Node.shown_congr link.isDir link.isDir)
    · rw [edit.at_other hs hp h0]
  · have unnamed : ∀ k, S.child s k = none := fun k => Store.child_not_dir (fun w hw => by
      rw [link.dead sound] at hw
      cases hw) k
    exact FileTree.child_of_grown (link.grown sound) unnamed (link.ne_parent sound).symm
  · show (S.link p u i name s v b).freeMap.numClear = S.freeMap.numClear - (1 + sectorsNeeded L)
    have room := made.room
    rw [link.freeMap_eq sound]
    omega
  · rfl

theorem Unlinking.space (unlink : Unlinking S p u i name s v b) :
    b.numClear = S.freeMap.numClear + limits.refund v.bytes.length := by
  have sound := inv.sound
  have tidy := sound.toTidy
  have mine : ∀ x ∈ s :: v.hdr.datas, x ∈ v.owned s := by
    intro x mem
    rcases List.mem_cons.1 mem with rfl | mem
    · exact v.self_mem x
    · exact v.datas_subset s mem
  have nodup : (s :: v.hdr.datas).Nodup := by
    have owned := tidy.nodup unlink.file
    rw [Node.owned, FileHeader.owned] at owned
    exact owned.sublist ((List.sublist_append_right _ _).cons_cons s)
  have count := Bitmap.Released.count unlink.bits nodup (fun x mem => tidy.range unlink.file x (mine x mem)) fun x mem =>
    sound.marked unlink.file x (mine x mem)
  rw [count, List.length_cons, (tidy.shaped unlink.file).length_datas]
  show _ = _ + (1 + divRoundUp v.bytes.length sectorSize)
  rw [sectorSize]
  omega

omit inv in
/-- Only the descriptors of what is removed change. -/
theorem Descriptor.shown_removed (h : Descriptor) (number : (BitVec.ofNat 32 s).toNat = s) (dir : Bool) :
    ({ h with removed := h.removed || ((some (BitVec.ofNat 32 s, dir)).isSome &&
      (some (BitVec.ofNat 32 s, dir)).map Prod.fst == h.target.map Prod.fst) } : Descriptor).shown = h.shown.filter fun o => o.1 ≠ s := by
  unfold shown
  cases h.removed with
  | true => rfl
  | false =>
    cases h.target with
    | none => rfl
    | some t =>
      obtain ⟨sector, kind⟩ := t
      by_cases same : BitVec.ofNat 32 s = sector
      · subst same
        cases kind <;> simp [number, Option.filter]
      · have other : sector.toNat ≠ s := fun e => same (BitVec.eq_of_toNat_eq (number.trans e.symm))
        cases kind <;> simp [same, other, Option.filter]

/-- **Removing a file** is a cut in the tree. -/
theorem Unlinking.tree (unlink : Unlinking S p u i name s v b) (dir : Bool) :
    ({ m with disk := d', descriptors := m.afterRemoval (some (BitVec.ofNat 32 s, dir)) } : Machine).tree (S.unlink p u i s b) =
      (m.tree S).unlink p (toKey name) s (limits.refund v.bytes.length) := by
  have sound := inv.sound
  have edit := unlink.edited sound
  have number := sound.toTidy.toNat_ofNat unlink.file
  apply FileTree.ext
  · funext q
    show (if q = 0 then none else (S.unlink p u i s b q).map Node.shown) = Function.update (m.tree S).file s none q
    rcases eq_or_ne q s with rfl | hs
    · rw [if_neg edit.ne_zero, Unlinking.at_gone, Function.update_self]
      rfl
    rw [Function.update_of_ne hs]
    by_cases h0 : q = 0
    · rw [if_pos h0, h0]
      rfl
    rw [if_neg h0, m.file_tree h0]
    rcases eq_or_ne q p with rfl | hp
    · rw [edit.at_parent, unlink.parent, Option.map_some, Option.map_some]
      exact congrArg some (Node.shown_congr unlink.isDir unlink.isDir)
    · rw [edit.at_other hs hp h0]
  · exact FileTree.child_of_pruned (unlink.pruned sound inv.distinct)
  · show (S.unlink p u i s b).freeMap.numClear = S.freeMap.numClear + limits.refund v.bytes.length
    rw [unlink.freeMap_eq sound, unlink.space inv]
  · funext id
    show (m.afterRemoval _ id).bind Descriptor.shown = ((m.descriptors id).bind Descriptor.shown).filter fun o => o.1 ≠ s
    rw [Machine.afterRemoval]
    cases m.descriptors id with
    | none => rfl
    | some h => exact h.shown_removed number dir

end

/-- **Writing a file** changes its contents in the tree. -/
theorem Machine.tree_put (m : Machine) (hv : S s = some v) (hd : v.isDir = false) (h2 : 2 ≤ s) (bytes : List Byte) :
    ({ m with disk := d' } : Machine).tree (S.put s bytes) = (m.tree S).put s bytes := by
  apply FileTree.ext
  · funext q
    show (if q = 0 then none else (S.put s bytes q).map Node.shown) = Function.update (m.tree S).file s (some (.regular bytes)) q
    rcases eq_or_ne q s with rfl | hs
    · rw [if_neg (by omega), Store.put_self hv, Function.update_self, Option.map_some]
      exact congrArg some (Node.shown_regular hd)
    · rw [Function.update_of_ne hs, Store.put_other S hs]
      rfl
  · exact Store.child_put hv hd
  · show (S.put s bytes).freeMap.numClear = S.freeMap.numClear
    rw [Store.freeMap, Store.freeMap, Store.put_other S (by omega)]
  · rfl

/-- A descriptor that is set shows where it is. -/
theorem Machine.tree_setDescriptor (m : Machine) (S : Store) (id : Nat) (h : Option Descriptor) :
    (m.setDescriptor id h).tree S = (m.tree S).setOpened id (h.bind Descriptor.shown) := by
  apply FileTree.ext
  · rfl
  · rfl
  · rfl
  · funext j
    show (Function.update m.descriptors id h j).bind Descriptor.shown =
      Function.update (fun k => (m.descriptors k).bind Descriptor.shown) id (h.bind Descriptor.shown) j
    rcases eq_or_ne j id with rfl | other
    · rw [Function.update_self, Function.update_self]
    · rw [Function.update_of_ne other, Function.update_of_ne other]

end Nachos.Mp4
