import Nachos.Mp4.Refinement

/-!
# What the calls answer

Each proper call returns, with an answer and a change that the tree allows; by induction a run of the
file system is a run of the tree.
-/

namespace Nachos.Mp4
open Bytes Transition

/-- The invariant of the runs, with positions that are no overflow. -/
structure Tracked (m : Machine) (S : Store) : Prop extends Invariant m S where
  position : ∀ {id h}, m.descriptors id = some h → 0 ≤ h.file.seekPosition ∧ h.file.seekPosition < 2 ^ 31

/-- The call returns, and the tree takes a step with the same answer. -/
def Machine.Answers (m : Machine) (S : Store) (c : Call) : Prop :=
  ∃ a m' S', m.call c = .ok (a, m') ∧ Tracked m' S' ∧ FileTree.Step limits 1 (m.tree S) c.onTree a (m'.tree S')

variable {d d' : Disk} {fs : FileSystem} {S S' : Store} {m m' : Machine} {c : Call} {path : CString}
  {parent name : List Byte} {p i s : Nat} {u v : Node} {b : FreeMap} {L : Nat} {junk : Word} {f : OpenFile}

theorem targetName_eq (split : splitPath path = .ok (parent, name)) : targetName path = name := by
  rw [targetName, split]

/-! ## Transfers -/

/-- `WriteAt`, where it changes the file. -/
theorem writeAt_clipped (source : Nat → Byte) {numBytes : Int} (built : f.hdr.Built L) (fits : p + numBytes < 2 ^ 31) :
    ∃ d', f.writeAt d source numBytes p = .ok ((min numBytes.toNat (L - p) : Nat), d') ∧ AgreeOff f.hdr.datas d d' ∧
      content d' f.hdr L = Cursor.splice (content d f.hdr L) p ((tabulate numBytes.toNat source).take (L - p)) := by
  by_cases nothing : numBytes ≤ 0
  · have zero : numBytes.toNat = 0 := by omega
    refine ⟨d, ?_, .refl _ d, ?_⟩
    · rw [writeAt_none (.inl nothing), zero, Nat.zero_min]
      rfl
    · rw [zero, tabulate, List.range_zero, List.map_nil, List.take_nil, Cursor.splice_nil]
  · obtain ⟨n, rfl⟩ := Int.eq_ofNat_of_zero_le (by omega : 0 ≤ numBytes)
    obtain ⟨d', written, off, bytes⟩ := writeAt_content (d := d) source built (by omega : p + n < 2 ^ 31)
    have piece : (tabulate n source).take (L - p) = tabulate (min n (L - p)) source := by
      rw [tabulate, tabulate, ← List.map_take, List.take_range, Nat.min_comm]
    refine ⟨d', ?_, off, ?_⟩
    · rw [Int.toNat_natCast]
      exact written
    · rw [Int.toNat_natCast, piece]
      exact bytes

theorem readAt_clipped {numBytes : Int} (built : f.hdr.Built L) (fits : p + numBytes < 2 ^ 31) :
    f.readAt d numBytes p = .ok (((content d f.hdr L).drop p).take numBytes.toNat) := by
  by_cases nothing : numBytes ≤ 0
  · rw [readAt_none (.inl nothing), show numBytes.toNat = 0 by omega, List.take_zero]
  · obtain ⟨n, rfl⟩ := Int.eq_ofNat_of_zero_le (by omega : 0 ≤ numBytes)
    rw [Int.toNat_natCast]
    exact readAt_content built (by omega)

theorem Descriptor.shown_eq {h : Descriptor} {sector : Word} (kept : h.removed = false) (target : h.target = some (sector, false)) :
    h.shown = some (sector.toNat, h.file.seekPosition.toNat) := by
  rw [Descriptor.shown, kept, target]
  rfl

namespace Tracked

/-- The file behind a descriptor that can be used. -/
theorem file (tr : Tracked m S) {id : Nat} {h : Descriptor} (hh : m.descriptors id = some h) (hw : h.Writable) :
    ∃ sector v n, h.removed = false ∧ h.target = some (sector, false) ∧ S sector.toNat = some v ∧ v.isDir = false ∧
      2 ≤ sector.toNat ∧ h.file = ⟨v.hdr, (n : Nat)⟩ ∧ n < 2 ^ 31 := by
  obtain ⟨kept, sector, target⟩ := hw
  obtain ⟨h2, v, hv, hd, hf⟩ := tr.writable hh kept target
  obtain ⟨nonneg, small⟩ := tr.position hh
  obtain ⟨n, hn⟩ := Int.eq_ofNat_of_zero_le nonneg
  refine ⟨sector, v, n, kept, target, hv, hd, h2, ?_, by omega⟩
  rw [← hf, ← hn]

theorem opened_eq (S : Store) {id n : Nat} {h : Descriptor} {sector : Word} {hdr : FileHeader} (hh : m.descriptors id = some h)
    (kept : h.removed = false) (target : h.target = some (sector, false)) (file : h.file = ⟨hdr, (n : Nat)⟩) :
    (m.tree S).opened id = some (sector.toNat, n) := by
  show (m.descriptors id).bind Descriptor.shown = _
  rw [hh, Option.bind_some, Descriptor.shown_eq kept target, file]
  rfl

/-- Another position in the same file. -/
theorem moved (tr : Tracked m S) {id n : Nat} {h : Descriptor} {hdr : FileHeader} (hh : m.descriptors id = some h)
    (hf : hdr = h.file.hdr) (small : n < 2 ^ 31) :
    Tracked (m.setDescriptor id (some { h with file := ⟨hdr, n⟩ })) S where
  toInvariant := tr.toInvariant.moved hh hf
  position {id' h'} hh' := by
    change Function.update m.descriptors id (some { h with file := ⟨hdr, n⟩ }) id' = some h' at hh'
    rcases eq_or_ne id' id with rfl | other
    · rw [Function.update_self] at hh'
      cases hh'
      exact ⟨Int.natCast_nonneg n, by show (n : Int) < _; omega⟩
    · rw [Function.update_of_ne other] at hh'
      exact tr.position hh'

theorem of_disk (tr : Tracked m S) (inv : Invariant { m with disk := d' } S') : Tracked { m with disk := d' } S' :=
  ⟨inv, tr.position⟩

/-- **`Write`.** -/
theorem write (tr : Tracked m S) {id : Nat} (source : Nat → Byte) {numBytes : Int} (ok : Transferable m id numBytes) :
    m.Answers S (.write id source numBytes) := by
  cases hh : m.descriptors id with
  | none =>
    refine ⟨.wrote 0, m, S, ?_, tr, .wroteNothing ?_⟩
    · simp only [Machine.call, hh]
      rfl
    · exact congrArg (fun o => Option.bind o Descriptor.shown) hh
  | some h =>
    obtain ⟨hw, fits⟩ := ok h hh
    obtain ⟨sector, v, n, kept, target, hv, hd, h2, file, small⟩ := tr.file hh hw
    have laid := tr.sound.toLaid
    have built := laid.built hv
    have short := built.length_le
    have same : content m.disk v.hdr v.bytes.length = v.bytes := tr.mounted.rep.bytes hv
    rw [file] at fits
    obtain ⟨d', written, off, bytes⟩ := writeAt_clipped (d := m.disk) (f := ⟨v.hdr, (n : Nat)⟩) source built fits
    dsimp only at bytes
    rw [same] at bytes
    have len := length_content d' v.hdr v.bytes.length
    rw [bytes] at len
    have inv := tr.toInvariant.written hv hd h2 len (tr.mounted.rep.put laid hv off bytes)
    generalize hk : min numBytes.toNat (v.bytes.length - n) = k at written
    have bound : n + k < 2 ^ 31 := by omega
    have header : v.hdr = h.file.hdr := by rw [file]
    refine ⟨.wrote k, _, _, ?_, (tr.of_disk inv).moved hh header bound, ?_⟩
    · simp only [Machine.call, hh, OpenFile.write, file, written, ok_bind, pure, Except.pure]
      rw [wrap32_eq (by omega) (by omega), Int.natCast_add]
    · have opened := opened_eq S hh kept target file
      have regular : (m.tree S).file sector.toNat = some (.regular v.bytes) := by
        rw [m.file_tree (by omega), hv, Option.map_some, Node.shown_regular hd]
      have step : FileTree.Step limits 1 (m.tree S) (.write id (tabulate numBytes.toNat source)) _ _ := .wrote opened regular
      have after := Descriptor.shown_eq (h := { h with file := ⟨v.hdr, (n + k : Nat)⟩ }) kept target
      rw [length_tabulate, hk] at step
      rw [Machine.tree_setDescriptor, m.tree_put hv hd h2, Option.bind_some, after]
      exact step

/-- **`Read`.** -/
theorem read (tr : Tracked m S) {id : Nat} {numBytes : Int} (ok : Transferable m id numBytes) :
    m.Answers S (.read id numBytes) := by
  cases hh : m.descriptors id with
  | none =>
    refine ⟨.read [], m, S, ?_, tr, .readNothing ?_⟩
    · simp only [Machine.call, hh]
      rfl
    · exact congrArg (fun o => Option.bind o Descriptor.shown) hh
  | some h =>
    obtain ⟨hw, fits⟩ := ok h hh
    obtain ⟨sector, v, n, kept, target, hv, hd, h2, file, small⟩ := tr.file hh hw
    have built := tr.sound.toLaid.built hv
    have short := built.length_le
    rw [file] at fits
    have buffer := readAt_clipped (d := m.disk) (f := ⟨v.hdr, (n : Nat)⟩) built fits
    dsimp only at buffer
    rw [tr.mounted.rep.bytes hv] at buffer
    have length : ((v.bytes.drop n).take numBytes.toNat).length = min numBytes.toNat (v.bytes.length - n) := by
      rw [List.length_take, List.length_drop]
    have bound : n + min numBytes.toNat (v.bytes.length - n) < 2 ^ 31 := by omega
    have header : v.hdr = h.file.hdr := by rw [file]
    refine ⟨.read ((v.bytes.drop n).take numBytes.toNat), _, _, ?_, tr.moved hh header bound, ?_⟩
    · simp only [Machine.call, hh, OpenFile.read, file, buffer, ok_bind, pure, Except.pure]
      rw [length, wrap32_eq (by omega) (by omega), Int.natCast_add]
    · have opened := opened_eq S hh kept target file
      have regular : (m.tree S).file sector.toNat = some (.regular v.bytes) := by
        rw [m.file_tree (by omega), hv, Option.map_some, Node.shown_regular hd]
      have after := Descriptor.shown_eq
        (h := { h with file := ⟨v.hdr, (n + min numBytes.toNat (v.bytes.length - n) : Nat)⟩ }) kept target
      rw [Machine.tree_setDescriptor, Option.bind_some, after]
      exact .read opened regular

/-- **`Seek`.** -/
theorem seek (tr : Tracked m S) {id : Nat} {position : Int} (ok : 0 ≤ position ∧ position < 2 ^ 31) :
    m.Answers S (.seek id position) := by
  obtain ⟨n, rfl⟩ := Int.eq_ofNat_of_zero_le ok.1
  cases hh : m.descriptors id with
  | none =>
    refine ⟨.done true, m, S, ?_, tr, ?_⟩
    · simp only [Machine.call, hh]
      rfl
    · have step : FileTree.Step limits 1 (m.tree S) (.seek id n) (.done true) _ := .seek
      have nothing : (m.tree S).opened id = none := congrArg (fun o => Option.bind o Descriptor.shown) hh
      have same : (m.tree S).setOpened id none = m.tree S := by
        rw [FileTree.setOpened, ← nothing, Function.update_eq_self]
      rw [nothing, Option.map_none, same] at step
      exact step
  | some h =>
    refine ⟨.done true, _, S, ?_, tr.moved (n := n) hh rfl (by omega), ?_⟩
    · simp only [Machine.call, hh]
      rfl
    · have step : FileTree.Step limits 1 (m.tree S) (.seek id n) (.done true) _ := .seek
      have before : (m.tree S).opened id = h.shown := by
        show (m.descriptors id).bind Descriptor.shown = _
        rw [hh, Option.bind_some]
      have after : ({ h with file := ⟨h.file.hdr, n⟩ } : Descriptor).shown = h.shown.map fun o => (o.1, n) := by
        unfold Descriptor.shown
        cases h.removed with
        | true => rfl
        | false =>
          cases h.target with
          | none => rfl
          | some t =>
            obtain ⟨sector, dir⟩ := t
            cases dir <;> rfl
      rw [Machine.tree_setDescriptor, Option.bind_some, after, ← before]
      exact step

/-- A descriptor that names a regular file only by its path. -/
theorem setDescriptor (tr : Tracked m S) {id : Nat} {new : Option Descriptor}
    (inv : Invariant (m.setDescriptor id new) S) (start : ∀ h, new = some h → h.file.seekPosition = 0) :
    Tracked (m.setDescriptor id new) S where
  toInvariant := inv
  position {id' h'} hh' := by
    change Function.update m.descriptors id new id' = some h' at hh'
    rcases eq_or_ne id' id with rfl | other
    · rw [Function.update_self] at hh'
      rw [start h' hh']
      exact ⟨le_rfl, by decide⟩
    · rw [Function.update_of_ne other] at hh'
      exact tr.position hh'

/-- **`Close`.** -/
theorem close (tr : Tracked m S) (id : Nat) : m.Answers S (.close id) := by
  refine ⟨.done true, _, S, rfl, tr.setDescriptor (tr.toInvariant.setDescriptor fun h => by cases h) fun h e => (by cases e), ?_⟩
  rw [Machine.tree_setDescriptor]
  exact .close

/-! ## Creation -/

/-- A call that creates a file, as the tree sees it. -/
theorem creates (tr : Tracked m S) {dir : Bool} {answer : Exec (Bool × Disk)} (dirs : DirsAlong S 1 (tokens parent))
    (made : Creates S m.disk parent name dir L answer) :
    (answer = .ok (false, m.disk) ∧
      ∀ p, Tree.follow S.child 1 ((tokens parent).map toKey) = some p → ¬ (m.tree S).Fits limits p (toKey name) L) ∨
    ∃ d' S' p s, ∃ v : Node, answer = .ok (true, d') ∧ Tracked { m with disk := d' } S' ∧
      Tree.follow S.child 1 ((tokens parent).map toKey) = some p ∧ (m.tree S).Fits limits p (toKey name) L ∧
      (m.tree S).Unused s ∧ v.isDir = dir ∧ v.bytes.length = L ∧
      ({ m with disk := d' } : Machine).tree S' = (m.tree S).link p (toKey name) s v.shown (limits.cost L) := by
  have fits := tr.sound.fits_iff tr.distinct m parent name L
  have along : ∀ p u, Tree.follow S.child 1 ((tokens parent).map toKey) = some p → S p = some u → u.isDir = true :=
    fun p u hp hu => dirs _ p u List.prefix_rfl hp hu
  rcases made with ⟨no, call⟩ | ⟨can, d', p, u, i, s, v, b, made, call⟩
  · exact .inl ⟨call, fun p hp room => no (fits.1 ⟨p, hp, room⟩).1⟩
  · obtain ⟨q, hq, room⟩ := fits.2 ⟨can, along⟩
    obtain rfl : q = p := Option.some.inj (hq.symm.trans made.resolves)
    exact .inr ⟨d', _, q, s, v, call, tr.of_disk (tr.toInvariant.linked made), hq, room, made.link.unused tr.toInvariant,
      made.kind, made.length, made.tree tr.toInvariant⟩

/-- The walk to the parent of a path, as the disk and the store have it. -/
theorem along (tr : Tracked m S) (split : splitPath path = .ok (parent, name)) (dirs : DirParents m.disk path) :
    DirsAlong S 1 (tokens parent) :=
  (tr.mounted.rep.dirsAlong tr.sound.toTidy).2 (parentNames_eq split ▸ dirs)

/-- **`Create`.** -/
theorem create (tr : Tracked m S) (junk size : Word) (splits : Splits path) (dirs : DirParents m.disk path) :
    m.Answers S (.create junk path size) := by
  obtain ⟨⟨parent, name⟩, split⟩ := splits
  have made := tr.mounted.create tr.sound junk split (tr.along split dirs) size
  have onTree : (Call.create junk path size).onTree = .create ((tokens parent).map toKey) (toKey name) (allocLength size) := by
    rw [Call.onTree, parentNames_eq split, targetName_eq split]
  rcases tr.creates (tr.along split dirs) made with ⟨call, no⟩ | ⟨d', S', p, s, v, call, tr', hp, fits, unused, kind, len, tree⟩
  · refine ⟨.done false, m, S, ?_, tr, ?_⟩
    · rw [Machine.call, call]
      rfl
    · rw [onTree]
      exact .refused no
  · refine ⟨.done true, _, S', ?_, tr', ?_⟩
    · rw [Machine.call, call]
      rfl
    · rw [onTree, tree, Node.shown_regular kind]
      exact .created hp fits unused len

/-- **`CreateDirectory`.** -/
theorem createDirectory (tr : Tracked m S) (junk : Word) (splits : Splits path) (dirs : DirParents m.disk path) :
    m.Answers S (.createDirectory junk path) := by
  obtain ⟨⟨parent, name⟩, split⟩ := splits
  have made := tr.mounted.createDirectory tr.sound junk split (tr.along split dirs)
  have onTree : (Call.createDirectory junk path).onTree = .createDirectory ((tokens parent).map toKey) (toKey name) := by
    rw [Call.onTree, parentNames_eq split, targetName_eq split]
  rcases tr.creates (tr.along split dirs) made with ⟨call, no⟩ | ⟨d', S', p, s, v, call, tr', hp, fits, unused, kind, -, tree⟩
  · refine ⟨.done false, m, S, ?_, tr, ?_⟩
    · rw [Machine.call, call]
      rfl
    · rw [onTree]
      exact .refusedDirectory no
  · refine ⟨.done true, _, S', ?_, tr', ?_⟩
    · rw [Machine.call, call]
      rfl
    · rw [onTree, tree, Node.shown_dir kind]
      exact .createdDirectory hp fits unused

/-! ## Removal and opening -/

/-- **`Remove`.** -/
theorem remove (tr : Tracked m S) (junk : Word) (splits : Splits path) (dirs : DirParents m.disk path)
    (below : parentNames path ≠ []) (there : resolve m.disk (pathNames path) ≠ none) : m.Answers S (.remove junk path) := by
  obtain ⟨⟨parent, name⟩, split⟩ := splits
  have walked := tr.along split dirs
  have target := tr.mounted.rep.resolve tr.sound.toTidy (pathNames path)
  have onTree : (Call.remove junk path).onTree = .remove ((tokens parent).map toKey) (toKey name) := by
    rw [Call.onTree, parentNames_eq split, targetName_eq split]
  rw [parentNames_eq split] at below
  rw [pathNames_eq split] at target there
  rcases tr.mounted.removeTarget tr.sound junk walked name with ⟨hn, -⟩ | ⟨p, u, i, v, f, -⟩
  · rw [Store.file, Store.walk, hn] at target
    exact absurd target there
  rw [Store.file_eq f.walk f.file, Option.map_some] at target
  obtain ⟨d', b, unlink, rep, call⟩ := tr.mounted.remove_found tr.sound junk split walked below f
  let gone := some (BitVec.ofNat 32 (u.table.entry i).sector.toNat, v.isDir)
  have tr' : Tracked { m with disk := d', descriptors := m.afterRemoval gone } (S.unlink p u i (u.table.entry i).sector.toNat b) := by
    refine ⟨tr.toInvariant.unlinked unlink rep, fun {id h} hh => ?_⟩
    obtain ⟨h₀, hh₀, rfl⟩ := Option.map_eq_some_iff.1 hh
    exact tr.position (h := h₀) hh₀
  refine ⟨.done true, _, _, ?_, tr', ?_⟩
  · rw [Machine.call, call, pathNames_eq split, target]
    rfl
  · have two := unlink.two_le tr.sound
    have shown : (m.tree S).file (u.table.entry i).sector.toNat = some v.shown := by
      rw [m.file_tree (by omega), unlink.file, Option.map_some]
    have length : v.shown.length limits = v.bytes.length := by
      cases hd : v.isDir with
      | true =>
        rw [Node.shown_dir hd]
        exact (tr.sound.dirSize unlink.file hd).symm
      | false =>
        rw [Node.shown_regular hd]
        rfl
    rw [onTree, unlink.tree tr.toInvariant, ← length]
    exact .removed f.resolves f.child shown

/-- The descriptor of a file that was just opened. -/
theorem opened (tr : Tracked m S) (id : Nat) {file : Option OpenFile} (found : m.fs.findFile m.disk junk path = .ok file)
    (start : ∀ f, file = some f → f.seekPosition = 0) :
    Tracked (({ m with fs := { m.fs with fileDescriptor := file } } : Machine).setDescriptor id
      (file.map fun f => ⟨f, resolve m.disk (pathNames path), false⟩)) S := by
  have mounted := tr.mounted
  have before : Tracked { m with fs := { m.fs with fileDescriptor := file } } S :=
    ⟨tr.toInvariant.of_fs _ ⟨mounted.rep, mounted.mapHdr, mounted.dirHdr⟩, tr.position⟩
  apply before.setDescriptor (tr.toInvariant.openAs found)
  intro h e
  obtain ⟨f, rfl, rfl⟩ := Option.map_eq_some_iff.1 e
  exact start f rfl

/-- **`Open`.** -/
theorem openAs (tr : Tracked m S) (id : Nat) (junk : Word) (splits : Splits path) (dirs : DirParents m.disk path)
    (present : resolve m.disk (pathNames path) = none → parentNames path ≠ [] → resolve m.disk (parentNames path) = none) :
    m.Answers S (.openAs id junk path) := by
  obtain ⟨⟨parent, name⟩, split⟩ := splits
  have tidy := tr.sound.toTidy
  have walked := tr.along split dirs
  have rep := tr.mounted.rep
  have target := rep.resolve tidy (pathNames path)
  have onTree : (Call.openAs id junk path).onTree = .openAs id ((tokens parent).map toKey) (toKey name) := by
    rw [Call.onTree, parentNames_eq split, targetName_eq split]
  rw [parentNames_eq split, rep.resolve_eq_none tidy, rep.resolve_eq_none tidy] at present
  rw [pathNames_eq split] at present target
  have keys : (tokens parent).map toKey ++ [toKey name] = (tokens parent ++ [name]).map toKey := by rw [List.map_append, List.map_singleton]
  cases walk : S.walk (tokens parent ++ [name]) with
  | none =>
    have found : m.fs.findFile m.disk junk path = .ok none := by
      by_cases top : tokens parent = []
      · apply tr.mounted.findFile_root tr.sound split junk top
        rw [top] at walk
        exact walk
      · exact tr.mounted.findFile_parent tr.sound split junk walked (present walk top)
    refine ⟨.done false, _, S, ?_, tr.opened id found fun h e => (by cases e), ?_⟩
    · rw [Machine.call, open_of_findFile found]
      rfl
    · rw [onTree, Machine.tree_setDescriptor]
      refine .missing ?_
      rw [keys]
      exact walk
  | some s =>
    obtain ⟨v, file⟩ := Store.file_walk tidy walk
    have found := tr.mounted.findFile tr.sound junk split file
    obtain ⟨-, hv⟩ := Store.file_some file
    rw [file, Option.map_some] at target
    refine ⟨.done true, _, S, ?_, tr.opened id found fun f e => (by cases e; rfl), ?_⟩
    · rw [Machine.call, open_of_findFile found]
      rfl
    · have nonzero := tidy.walk_ne_zero walk
      have shown : (m.tree S).file s = some v.shown := by
        rw [m.file_tree nonzero, hv, Option.map_some]
      have opens : Descriptor.shown ⟨⟨v.hdr, 0⟩, resolve m.disk (pathNames path), false⟩ = v.shown.opens s := by
        rw [pathNames_eq split, target, Descriptor.shown, Option.bind_some, tidy.toNat_ofNat hv]
        cases hd : v.isDir with
        | true =>
          rw [Node.shown_dir hd]
          rfl
        | false =>
          rw [Node.shown_regular hd]
          rfl
      rw [onTree, Machine.tree_setDescriptor, Option.map_some, Option.bind_some, opens]
      refine .opened ?_ shown
      rw [keys]
      exact walk

/-- **Every proper call** returns with what the tree answers. -/
theorem answers (tr : Tracked m S) (ok : Proper m c) : m.Answers S c := by
  cases c with
  | create junk name initialSize => exact tr.create junk initialSize ok.1 ok.2
  | createDirectory junk name => exact tr.createDirectory junk ok.1 ok.2
  | remove junk name => exact tr.remove junk ok.1 ok.2.1 ok.2.2.1 ok.2.2.2
  | openAs id junk name => exact tr.openAs id junk ok.1 ok.2.1 ok.2.2
  | write id source numBytes => exact tr.write source ok
  | read id numBytes => exact tr.read ok
  | seek id position => exact tr.seek ok
  | close id => exact tr.close id

/-- A formatted disk. -/
theorem of_fresh (fresh : Fresh d fs S) : Tracked ⟨d, fs, fun _ => none⟩ S :=
  ⟨.of_fresh fresh, fun h => by cases h⟩

end Tracked

/-- The tree of a formatted disk. -/
theorem Fresh.tree (fresh : Fresh d fs S) :
    Machine.tree ⟨d, fs, fun _ => none⟩ S = FileTree.empty 1 S.freeMap.numClear := by
  apply FileTree.ext
  · funext q
    show (if q = 0 then none else (S q).map Node.shown) = Function.update (fun _ => none) 1 (some .directory) q
    rcases eq_or_ne q 1 with rfl | other
    · obtain ⟨u, hu, hd⟩ := fresh.sound.root
      rw [if_neg one_ne_zero, hu, Option.map_some, Node.shown_dir hd, Function.update_self]
    rw [Function.update_of_ne other]
    cases hq : S q with
    | none => split <;> rfl
    | some v =>
      obtain rfl : q = 0 := (fresh.only hq).resolve_right other
      rfl
  · funext q k
    show S.child q k = none
    by_contra named
    obtain ⟨w, hw⟩ := Option.ne_none_iff_exists'.1 named
    obtain ⟨i, e, he, -⟩ := Store.child_some hw
    exact fresh.noEntry q i e he
  · rfl
  · rfl

/-- A file of the tree as the disk shows it. -/
def viewOf : FileTree.File Byte → View
  | .directory => .directory directoryFileSize
  | .regular contents => .regular contents.length contents

/-- Every path shows on the disk what it leads to in the tree. -/
def Machine.Shows (m : Machine) (T : FileTree Nat Key Byte) : Prop :=
  ∀ names, view m.disk names = (T.look 1 (names.map toKey)).map fun f => .ok (viewOf f)

theorem Tracked.shows (tr : Tracked m S) : m.Shows (m.tree S) := by
  intro names
  have tidy := tr.sound.toTidy
  rw [tr.mounted.rep.view tidy names, FileTree.look]
  show _ = ((S.walk names).bind (m.tree S).file).map _
  cases walk : S.walk names with
  | none =>
    rw [Store.file, walk]
    rfl
  | some s =>
    obtain ⟨v, file⟩ := Store.file_walk tidy walk
    obtain ⟨-, hv⟩ := Store.file_some file
    rw [file, Option.bind_some, m.file_tree (tidy.walk_ne_zero walk), hv, Option.map_some, Option.map_some, Option.map_some]
    cases hd : v.isDir with
    | true =>
      rw [Node.shown_dir hd, Node.view, if_pos hd, tidy.dirSize hv hd]
      rfl
    | false =>
      rw [Node.shown_regular hd, Node.view, hd]
      rfl

/-- **The file system is a tree of files.** In every run of proper calls from a formatted disk the calls
answer as the tree does, every path shows what it leads to in the tree, and the next proper call returns. -/
theorem fileSystem_refines {m₀ : Machine} (init : system.init m₀) : ∃ free, 500000 ≤ free ∧
    ∀ log m, Trace Machine.Calls Proper m₀ log m → ∃ T, Trace (FileTree.Step limits 1) (fun _ _ => True) (FileTree.empty 1 free)
      (log.map (Prod.map Call.onTree id)) T ∧ m.Shows T ∧ ∀ c, Proper m c → ∃ a m', m.call c = .ok (a, m') := by
  obtain ⟨⟨raw, formatted⟩, closed⟩ := init
  obtain ⟨d, fs, S, e, fresh⟩ := format_spec raw
  obtain ⟨disk, mounted, descriptors⟩ := m₀
  rw [e] at formatted
  cases formatted
  obtain rfl : descriptors = fun _ => none := funext closed
  refine ⟨_, fresh.room, fun log m run => ?_⟩
  obtain ⟨T, run', S', tr, rfl⟩ := run.refine (fun _ _ => True) (fun m T => ∃ S, Tracked m S ∧ m.tree S = T)
    Call.onTree ⟨S, .of_fresh fresh, fresh.tree⟩
    fun m c a m' T => by
      rintro ⟨S, tr, rfl⟩ ok call
      obtain ⟨a', m'', S', call', tr', step⟩ := tr.answers ok
      cases Except.ok.inj (call.symm.trans call')
      exact ⟨trivial, _, step, S', tr', rfl⟩
  refine ⟨_, run', tr.shows, fun c ok => ?_⟩
  obtain ⟨a, m', -, call, -⟩ := tr.answers ok
  exact ⟨a, m', call⟩

/-- A file of five bytes is made on a formatted disk. -/
theorem fileSystem_refines_letter : ∃ m₀ m₁ free T, system.init m₀ ∧
    Trace Machine.Calls Proper m₀ [(.create 0 (pathString [.single 102 (by decide)]) 5, .done true)] m₁ ∧
    Trace (FileTree.Step limits 1) (fun _ _ => True) (FileTree.empty 1 free)
      [(Call.onTree (.create 0 (pathString [.single 102 (by decide)]) 5), .done true)] T ∧ m₁.Shows T := by
  obtain ⟨d, fs, S, formatted, fresh⟩ := format_spec fun _ => .tabulate fun _ => 0
  have init : system.init ⟨d, fs, fun _ => none⟩ := ⟨⟨_, formatted⟩, fun _ => rfl⟩
  obtain ⟨d₁, S₁, s, v, made, -⟩ := fresh.made (.single 102 (by decide)) 5 (by rw [sectorsNeeded_eq]; decide)
  obtain ⟨parent, split, -⟩ := splitPath_snoc (p := []) (c := .single 102 (by decide)) (fits_of_length (by simp))
  have call : Machine.Calls ⟨d, fs, fun _ => none⟩ (.create 0 (pathString [.single 102 (by decide)]) 5) (.done true)
      ⟨d₁, fs, fun _ => none⟩ := by
    rw [Machine.Calls, Machine.call, made]
    rfl
  have run : Trace Machine.Calls Proper ⟨d, fs, fun _ => none⟩ [(.create 0 (pathString [.single 102 (by decide)]) 5, .done true)]
      ⟨d₁, fs, fun _ => none⟩ := Trace.nil.snoc ⟨⟨_, split⟩, fresh.dirParents _⟩ call
  obtain ⟨free, -, refines⟩ := fileSystem_refines init
  obtain ⟨T, run', shows', -⟩ := refines _ _ run
  exact ⟨_, _, free, T, init, run, run', shows'⟩

end Nachos.Mp4
