import Nachos.Mp4.Opening
import Nachos.Mp4.Overflow

/-!
# What user programs can change

`OpenAFile`, `Read`, `Write` and `Close` work on the one open file of the file system.
`OpenAFile` opens directories as it opens regular files, and `Write` does not look at what is
open: as long as it goes through regular files, the names, the headers and the map stay.
-/

namespace Nachos.Mp4
open Bytes Transition

/-- The calls; `junk` is what `OpenDir` finds in its uninitialised local. -/
inductive UserCall where
  | openAFile (junk : Word) (filename : CString)
  | write (buffer : Nat → Byte) (size id : Int)
  | read (size id : Int)
  | close (id : Int)

/-- One call. -/
def UserCall.run (d : Disk) (fs : FileSystem) : UserCall → Exec (Disk × FileSystem)
  | .openAFile junk filename => do
    let (_, fs) ← fs.openAFile d junk filename
    pure (d, fs)
  | .write buffer size id => do
    let (_, d, fs) ← fs.write d buffer size id
    pure (d, fs)
  | .read size id => do
    let (_, fs) ← fs.read d size id
    pure (d, fs)
  | .close _ => pure (d, fs.close.2)

/-- The runs of user calls from a disk and a file system on. -/
def userCalls (d : Disk) (fs : FileSystem) : Transition.System (Disk × FileSystem) UserCall where
  init s := s = (d, fs)
  step s c s' := c.run s.1 s.2 = .ok s'

/-- The header of a regular file of the disk. -/
def IsRegularHeader (d : Disk) (hdr : FileHeader) : Prop :=
  ∃ names sector, resolve d names = some (sector, false) ∧ FileHeader.fetchFrom d sector = .ok hdr

/-- A `Write` that has bytes to transfer goes to a regular file. -/
def WritesRegular (s : Disk × FileSystem) : UserCall → Prop
  | .write _ size _ => ∀ f, s.2.fileDescriptor = some f →
      size ≤ 0 ∨ f.seekPosition ≥ f.hdr.fileLength ∨ IsRegularHeader s.1 f.hdr
  | .openAFile .. | .read .. | .close .. => True

/-- Names, kinds, headers and the map are the same, and what differs is the data of regular files. -/
structure SameNamespace (d d' : Disk) : Prop where
  paths : ∀ names, resolve d' names = resolve d names
  headers : ∀ {names sector dir}, resolve d names = some (sector, dir) → FileHeader.fetchFrom d' sector = FileHeader.fetchFrom d sector
  map : diskMap d' = diskMap d
  others : ∀ x, d' x ≠ d x → ∃ hdr, IsRegularHeader d hdr ∧ x ∈ hdr.datas

namespace SameNamespace

theorem refl (d : Disk) : SameNamespace d d := ⟨fun _ => rfl, fun _ => rfl, rfl, fun _ differs => absurd rfl differs⟩

theorem trans {d d' d'' : Disk} (first : SameNamespace d d') (second : SameNamespace d' d'') : SameNamespace d d'' where
  paths names := (second.paths names).trans (first.paths names)
  headers {names sector dir} h := by
    have h' : resolve d' names = some (sector, dir) := (first.paths names).trans h
    rw [second.headers h', first.headers h]
  map := second.map.trans first.map
  others x differs := by
    by_cases same : d'' x = d' x
    · rw [same] at differs
      exact first.others x differs
    · obtain ⟨hdr, ⟨names, sector, resolved, fetched⟩, mem⟩ := second.others x same
      rw [first.paths] at resolved
      rw [first.headers resolved] at fetched
      exact ⟨hdr, ⟨names, sector, resolved, fetched⟩, mem⟩

end SameNamespace

variable {d d' : Disk} {fs : FileSystem} {S : Store} {s : Nat} {v : Node} {bytes : List Byte} {m : Machine}

/-- The paths of a store do not depend on the bytes of its regular files. -/
theorem Store.file_put (bytes : List Byte) (h : S s = some v) (regular : v.isDir = false) (names : List (List Byte)) :
    ((S.put s bytes).file names).map (fun f => (f.1, f.2.hdr, f.2.isDir)) = (S.file names).map fun f => (f.1, f.2.hdr, f.2.isDir) := by
  have walk : (S.put s bytes).walk names = S.walk names := by rw [walk, walk, child_put h regular]
  unfold file
  rw [walk]
  cases S.walk names with
  | none => rfl
  | some c =>
    rcases eq_or_ne c s with rfl | other
    · rw [Option.bind_some, Option.bind_some, put_self h, h]
      rfl
    · rw [Option.bind_some, Option.bind_some, put_other S other]

/-- The header of a regular file of the store. -/
theorem Rep.isRegularHeader (rep : Rep d S) (tidy : Tidy S) {names : List (List Byte)} (file : S.file names = some (s, v))
    (regular : v.isDir = false) : IsRegularHeader d v.hdr := by
  obtain ⟨-, hv⟩ := Store.file_some file
  refine ⟨names, BitVec.ofNat 32 s, ?_, ?_⟩
  · rw [rep.resolve tidy, file, Option.map_some, regular]
  · apply rep.fetchHeader tidy.toLaid
    rw [tidy.toNat_ofNat hv]
    exact hv

/-- **Writing the data of a regular file** keeps the name space. -/
theorem Rep.sameNamespace (rep : Rep d S) (sound : Sound S) {names : List (List Byte)} (file : S.file names = some (s, v))
    (regular : v.isDir = false) (off : AgreeOff v.hdr.datas d d') (rep' : Rep d' (S.put s bytes)) (sound' : Sound (S.put s bytes)) :
    SameNamespace d d' := by
  have tidy := sound.toTidy
  obtain ⟨-, hv⟩ := Store.file_some file
  have same := Store.file_put bytes hv regular
  have inMap : s ≠ 0 := by have := tidy.two_le file regular; omega
  constructor
  · intro names
    have kinds := congrArg (Option.map fun f => (BitVec.ofNat 32 f.1, f.2.2)) (same names)
    rw [Option.map_map, Option.map_map] at kinds
    rw [rep'.resolve sound'.toTidy, rep.resolve tidy]
    exact kinds
  · intro names sector dir h
    obtain ⟨w, there, -⟩ := rep.resolve_some tidy h
    have header := same names
    rw [there, Option.map_some] at header
    obtain ⟨⟨c, w'⟩, there', e⟩ := Option.map_eq_some_iff.1 header
    obtain ⟨rfl, e⟩ := Prod.mk.inj e
    rw [rep.fetchHeader tidy.toLaid (Store.file_some there).2, rep'.fetchHeader sound'.toLaid (Store.file_some there').2,
      (Prod.mk.inj e).1]
  · have map : (S.put s bytes).freeMap = S.freeMap := by
      rw [Store.freeMap, Store.freeMap, Store.put_other S inMap.symm]
    rw [rep'.diskMap sound'.toTidy, rep.diskMap tidy, map]
  · intro x differs
    have mem : x ∈ v.hdr.datas := by
      by_contra outside
      exact differs (off x outside)
    exact ⟨v.hdr, rep.isRegularHeader tidy file regular, mem⟩

/-- What `FileSystem::Write` can do to the disk. -/
theorem FileSystem.write_ok {buffer : Nat → Byte} {size id r : Int} {fs' : FileSystem} (written : fs.write d buffer size id = .ok (r, d', fs')) :
    d' = d ∨ ∃ f r', fs.fileDescriptor = some f ∧ f.writeAt d buffer size f.seekPosition = .ok (r', d') := by
  unfold FileSystem.write at written
  split at written
  · cases written
    exact .inl rfl
  cases opened : fs.fileDescriptor with
  | none =>
    rw [opened] at written
    cases written
    exact .inl rfl
  | some f =>
    rw [opened] at written
    obtain ⟨⟨r', d₁, f'⟩, call, written⟩ := bind_ok written
    cases written
    obtain ⟨⟨r', d₁⟩, transferred, call⟩ := bind_ok call
    cases call
    exact .inr ⟨f, _, rfl, transferred⟩

/-- **One call** that writes to regular files only keeps the name space. -/
theorem UserCall.kept {c : UserCall} {s' : Disk × FileSystem} (rep : Rep d S) (sound : Sound S) (ok : WritesRegular (d, fs) c)
    (run : c.run d fs = .ok s') : ∃ S', Sound S' ∧ Rep s'.1 S' ∧ SameNamespace d s'.1 := by
  cases c with
  | openAFile junk filename =>
    obtain ⟨⟨r, fs'⟩, -, run⟩ := bind_ok run
    cases run
    exact ⟨S, sound, rep, .refl d⟩
  | read size id =>
    obtain ⟨⟨r, fs'⟩, -, run⟩ := bind_ok run
    cases run
    exact ⟨S, sound, rep, .refl d⟩
  | close id =>
    cases run
    exact ⟨S, sound, rep, .refl d⟩
  | write buffer size id =>
    obtain ⟨⟨r, d', fs'⟩, written, run⟩ := bind_ok run
    cases run
    rcases FileSystem.write_ok written with rfl | ⟨f, r', opened, transferred⟩
    · exact ⟨S, sound, rep, .refl _⟩
    rcases ok f opened with nothing | nothing | ⟨names, sector, resolved, fetched⟩
    · rw [writeAt_none (.inl nothing) buffer] at transferred
      cases transferred
      exact ⟨S, sound, rep, .refl _⟩
    · rw [writeAt_none (.inr nothing) buffer] at transferred
      cases transferred
      exact ⟨S, sound, rep, .refl _⟩
    · obtain ⟨v, file, regular⟩ := rep.resolve_some sound.toTidy resolved
      obtain ⟨-, hv⟩ := Store.file_some file
      rw [rep.fetchHeader sound.toLaid hv] at fetched
      have hdr : v.hdr = f.hdr := Except.ok.inj fetched
      have off := writeAt_off (hdr ▸ sound.shaped hv) transferred
      rw [← hdr] at off
      have inMap : sector.toNat ≠ 0 := by have := sound.two_le file regular; omega
      have rep' := rep.put sound.toLaid hv off rfl
      have sound' := sound.put hv regular inMap (length_content d' v.hdr v.bytes.length)
      exact ⟨_, sound', rep', rep.sameNamespace sound file regular off rep' sound'⟩

/-- **User calls keep the name space**, in every run whose writes go to regular files. -/
theorem namespace_kept (reach : Reach system Allowed m) {s : Disk × FileSystem}
    (run : Reach (userCalls m.disk m.fs) WritesRegular s) : SameNamespace m.disk s.1 := by
  obtain ⟨S, inv⟩ := Invariant.of_reach reach
  have kept : ∃ S', Sound S' ∧ Rep s.1 S' ∧ SameNamespace m.disk s.1 := by
    apply run.invariant fun s => ∃ S', Sound S' ∧ Rep s.1 S' ∧ SameNamespace m.disk s.1
    · intro s start
      obtain rfl : s = (m.disk, m.fs) := start
      exact ⟨S, inv.sound, inv.mounted.rep, .refl m.disk⟩
    · rintro s c s' ⟨S₁, sound, rep, same⟩ ok run
      obtain ⟨S₂, sound', rep', same'⟩ := UserCall.kept rep sound ok run
      exact ⟨S₂, sound', rep', same.trans same'⟩
  obtain ⟨-, -, -, same⟩ := kept
  exact same

/-- A live file is laid out as `Allocate` does it. -/
theorem Laid.built (laid : Laid S) (h : S s = some v) : v.hdr.Built v.bytes.length where
  shaped := laid.shaped h
  nodup := laid.datas_nodup h
  range x mem := laid.range h x (v.datas_subset s mem)

/-- `OpenAFile` of a file in the root directory. -/
theorem Mounted.openAFile_top (mounted : Mounted d fs S) (sound : Sound S) (junk : Word) {a : FileName}
    (file : S.file [a.bytes] = some (s, v)) : fs.openAFile d junk (pathString [a]) =
      .ok (1, { fs with fileDescriptor := some ⟨v.hdr, 0⟩ }) := by
  obtain ⟨parent, split, toks⟩ := splitPath_snoc (p := []) (c := a) (fits_of_length (by simp))
  exact openAFile_of_findFile (mounted.findFile sound junk split (by rw [toks]; exact file))

/-- A file made in the root directory of a formatted disk. -/
theorem Fresh.made (fresh : Fresh d fs S) (a : FileName) (size : Word) (small : 1 + sectorsNeeded (allocLength size) ≤ 500000) :
    ∃ d₁ S₁ s v, fs.create d 0 (pathString [a]) size = .ok (true, d₁) ∧ Invariant ⟨d₁, fs, fun _ => none⟩ S₁ ∧
      S₁.file [a.bytes] = some (s, v) ∧ v.isDir = false ∧ v.bytes.length = allocLength size := by
  obtain ⟨parent, d₁, u, i, s, v, b, top, made, call⟩ := fresh.create 0 a size small
  have here := ((made.link.grown fresh.sound).paths fresh.sound.rooted (made.link.ne_one fresh.sound) (P := []) rfl).2.1
  exact ⟨d₁, _, s, v, call, (Invariant.of_fresh fresh).linked made, Store.file_eq here (made.link.at_new fresh.sound), made.kind,
    made.length⟩

/-- Three bytes written to a file of five. -/
theorem namespace_kept_letters : ∃ m fs₁ d' fs₂, Reach system Allowed m ∧
    m.fs.openAFile m.disk 0 (pathString [.single 102 (by decide)]) = .ok (1, fs₁) ∧
    fs₁.write m.disk (fun _ => 97) 3 1 = .ok (3, d', fs₂) ∧ SameNamespace m.disk d' := by
  obtain ⟨d, fs, S, formatted, fresh⟩ := format_spec fun _ => .tabulate fun _ => 0
  have init : system.init ⟨d, fs, fun _ => none⟩ := ⟨⟨_, formatted⟩, fun _ => rfl⟩
  obtain ⟨d₁, S₁, s, v, call, inv, file, regular, length⟩ := fresh.made (.single 102 (by decide)) 5 (by rw [sectorsNeeded_eq]; decide)
  have ok : Allowed ⟨d, fs, fun _ => none⟩ (.create 0 (pathString [.single 102 (by decide)]) 5) := fresh.dirParents _
  have reach : Reach system Allowed ⟨d₁, fs, fun _ => none⟩ := .step (.init init) ok (Machine.run_create (m := ⟨d, fs, fun _ => none⟩) call)
  have opened := inv.mounted.openAFile_top inv.sound 0 file
  have built : v.hdr.Built 5 := by
    have := inv.sound.toLaid.built (Store.file_some file).2
    rwa [length] at this
  obtain ⟨d', written, -, -⟩ := writeAt_content (d := d₁) (f := ⟨v.hdr, (0 : Nat)⟩) (n := 3) (p := 0) (fun _ => 97) built (by decide)
  have wrote : FileSystem.write d₁ { fs with fileDescriptor := some ⟨v.hdr, (0 : Nat)⟩ } (fun _ => 97) 3 1 = _ :=
    FileSystem.write_of_writeAt rfl (by decide) written (by decide)
  have run₁ : UserCall.run d₁ fs (.openAFile 0 (pathString [.single 102 (by decide)])) = .ok (d₁, { fs with fileDescriptor := some ⟨v.hdr, 0⟩ }) := by
    rw [UserCall.run, opened]
    rfl
  have run₂ : UserCall.run d₁ { fs with fileDescriptor := some ⟨v.hdr, 0⟩ } (.write (fun _ => 97) 3 1) =
      .ok (d', { fs with fileDescriptor := some ⟨v.hdr, (3 : Nat)⟩ }) := by
    rw [UserCall.run]
    exact (congrArg (· >>= _) wrote)
  have ok₂ : WritesRegular (d₁, { fs with fileDescriptor := some ⟨v.hdr, 0⟩ }) (.write (fun _ => 97) 3 1) := by
    intro f here
    cases here
    exact .inr (.inr (inv.mounted.rep.isRegularHeader inv.sound.toTidy file regular))
  exact ⟨⟨d₁, fs, fun _ => none⟩, _, d', _, reach, opened, wrote,
    namespace_kept reach (Reach.step (Reach.step (a := .openAFile _ _) (.init rfl) trivial run₁) ok₂ run₂)⟩

/-! ## A directory that is written to -/

section
variable (hv : S s = some v)
include hv

/-- The directories of a store after one table is written over with an empty one. -/
theorem Store.entry_emptied {q i : Nat} {e : DirectoryEntry} (entry : (S.put s (Directory.new numDirEntries).toBytes).Entry q i e) :
    S.Entry q i e := by
  obtain ⟨w, hw, hd, hi, he, used⟩ := entry
  rcases eq_or_ne q s with rfl | other
  · rw [put_self hv] at hw
    cases hw
    rw [Node.table, Directory.ofBytes_toBytes, Directory.entry_new] at he
    rw [← he] at used
    exact absurd rfl used
  · rw [put_other S other] at hw
    exact ⟨w, hw, hd, hi, he, used⟩

/-- Emptying a directory loses the files it named, but leaves a tidy store. -/
theorem Tidy.emptied (tidy : Tidy S) (isDir : v.isDir = true) : Tidy (S.put s (Directory.new numDirEntries).toBytes) := by
  have size : (Directory.new numDirEntries).toBytes.length = v.bytes.length := by
    rw [Directory.length_toBytes, tidy.dirSize hv isDir, directoryFileSize]
  -- every file keeps its kind and its length
  have keeps : ∀ {q w}, S q = some w → ∃ w', S.put s (Directory.new numDirEntries).toBytes q = some w' ∧ w'.isDir = w.isDir ∧
      w'.bytes.length = w.bytes.length := by
    intro q w hw
    rcases eq_or_ne q s with rfl | other
    · rw [hv] at hw
      cases hw
      exact ⟨_, Store.put_self hv _, rfl, size⟩
    · exact ⟨w, (Store.put_other S other _).trans hw, rfl, rfl⟩
  refine ⟨tidy.toLaid.put hv size, ?_, ?_, ?_, ?_, ?_⟩
  · obtain ⟨w, hw, hd, len⟩ := tidy.map
    obtain ⟨w', hw', hd', len'⟩ := keeps hw
    exact ⟨w', hw', hd'.trans hd, len'.trans len⟩
  · obtain ⟨w, hw, hd⟩ := tidy.root
    obtain ⟨w', hw', hd', -⟩ := keeps hw
    exact ⟨w', hw', hd'.trans hd⟩
  · intro q w hw hd
    rcases eq_or_ne q s with rfl | other
    · rw [Store.put_self hv] at hw
      cases hw
      exact size.trans (tidy.dirSize hv isDir)
    · rw [Store.put_other S other] at hw
      exact tidy.dirSize hw hd
  · intro q i e entry
    obtain ⟨two, w, hw, kind⟩ := tidy.named (Store.entry_emptied hv entry)
    obtain ⟨w', hw', hd', -⟩ := keeps hw
    exact ⟨two, w', hw', by rw [hd']; exact kind⟩
  · intro q i e q' i' e' entry entry' sector
    exact tidy.unique (Store.entry_emptied hv entry) (Store.entry_emptied hv entry') sector

end

/-- The directory that a nested file is in. -/
theorem Nested.directory {a c : FileName} {size : Word} {parent : List Byte} (nested : Nested S a c size parent s v)
    (tidy : Tidy S) : ∃ p u, S.file [a.bytes] = some (p, u) ∧ u.isDir = true := by
  have there := nested.walk
  have down := Tree.follow_snoc S.child 1 [toKey a.bytes] (toKey c.bytes)
  rw [Store.walk] at there
  rw [List.singleton_append, show [toKey a.bytes, toKey c.bytes] = [a.bytes, c.bytes].map toKey from rfl, there] at down
  obtain ⟨p, here, child⟩ := Option.bind_eq_some_iff.1 down.symm
  obtain ⟨u, file⟩ : ∃ u, S.file [a.bytes] = some (p, u) := Store.file_walk tidy here
  refine ⟨p, u, file, ?_⟩
  by_contra regular
  obtain ⟨-, hu⟩ := Store.file_some file
  rw [Store.child_not_dir fun w hw => by rw [hu] at hw; cases hw; simpa using regular] at child
  cases child

/-- No path leads through an empty directory. -/
theorem Tidy.walk_emptied {p : Nat} {u : Node} {x y : List Byte} (tidy : Tidy S) (file : S.file [x] = some (p, u))
    (isDir : u.isDir = true) : (S.put p (Directory.new numDirEntries).toBytes).walk [x, y] = none := by
  obtain ⟨here, hu⟩ := Store.file_some file
  have named : S.child 1 (toKey x) = some p := (Tree.follow_snoc S.child 1 [] (toKey x)).symm.trans here
  have below : (1 : Nat) ≠ p := by
    have := (tidy.child_live named).1
    omega
  have root : (S.put p (Directory.new numDirEntries).toBytes).child 1 (toKey x) = some p := by
    rw [Store.child, Store.put_other S below]
    exact named
  have down := Tree.follow_snoc (S.put p (Directory.new numDirEntries).toBytes).child 1 [toKey x] (toKey y)
  rw [Tree.follow, root] at down
  have isDir' : ({ u with bytes := (Directory.new numDirEntries).toBytes } : Node).isDir = true := isDir
  have empty : (S.put p (Directory.new numDirEntries).toBytes).child p (toKey y) = none := by
    rw [Store.child_eq (Store.put_self hu _) isDir', Node.table, Directory.ofBytes_toBytes, Directory.lookup_new]
    rfl
  exact down.trans empty

/-- **A directory can be opened and written to**: the file in it is lost. -/
theorem Nested.emptied {a c : FileName} {size : Word} {parent : List Byte} (nested : Nested S a c size parent s v)
    (mounted : Mounted d fs S) (sound : Sound S) : ∃ d' fs₁ fs₂, fs.openAFile d 0 (pathString [a]) = .ok (1, fs₁) ∧
      fs₁.write d (fun i => (Directory.new numDirEntries).toBytes.getD i 0) 1280 1 = .ok (1280, d', fs₂) ∧
      resolve d (names [a, c]) ≠ none ∧ resolve d' (names [a, c]) = none := by
  have tidy := sound.toTidy
  obtain ⟨p, u, file, isDir⟩ := nested.directory tidy
  obtain ⟨-, hu⟩ := Store.file_some file
  have len : (Directory.new numDirEntries).toBytes.length = u.bytes.length := by
    rw [Directory.length_toBytes, tidy.dirSize hu isDir, directoryFileSize]
  have readable : Readable (OpenFile.mk u.hdr (0 : Nat)).hdr (Directory.new numDirEntries).toBytes.length := by
    rw [len]
    exact tidy.readable hu
  obtain ⟨d', written, off, bytes⟩ := writeAt_all (d := d) readable (tidy.datas_nodup hu)
  rw [len] at bytes
  have rep' := mounted.rep.put tidy.toLaid hu off bytes
  rw [show (Directory.new numDirEntries).toBytes.length = 1280 from Directory.length_toBytes _] at written
  refine ⟨d', _, _, mounted.openAFile_top sound 0 file, FileSystem.write_of_writeAt (p := 0) rfl (by decide) written (by decide), ?_, ?_⟩
  · rw [Ne, mounted.rep.resolve_eq_none tidy, show names [a, c] = [a.bytes, c.bytes] from rfl, nested.walk]
    exact Option.some_ne_none s
  · rw [rep'.resolve_eq_none (Tidy.emptied hu tidy isDir)]
    exact tidy.walk_emptied file isDir

/-- A user program writes the bytes of an empty directory to a directory. -/
theorem namespace_changed : ∃ m d' fs₁ fs₂, Reach system Allowed m ∧
    m.fs.openAFile m.disk 0 (pathString [.single 100 (by decide)]) = .ok (1, fs₁) ∧
    fs₁.write m.disk (fun i => (Directory.new numDirEntries).toBytes.getD i 0) 1280 1 = .ok (1280, d', fs₂) ∧
    resolve m.disk (names [.single 100 (by decide), .single 102 (by decide)]) ≠ none ∧
    resolve d' (names [.single 100 (by decide), .single 102 (by decide)]) = none ∧ ¬ SameNamespace m.disk d' := by
  obtain ⟨d, fs, S, formatted, fresh⟩ := format_spec fun _ => .tabulate fun _ => 0
  have init : system.init ⟨d, fs, fun _ => none⟩ := ⟨⟨_, formatted⟩, fun _ => rfl⟩
  obtain ⟨d₁, d₂, S₂, parent, s, v, call₁, call₂, ok₂, inv, -, nested⟩ :=
    fresh.nested (.single 100 (by decide)) (.single 102 (by decide)) 200 (by decide)
  have ok₁ : Allowed ⟨d, fs, fun _ => none⟩ (.createDirectory 0 (pathString [.single 100 (by decide)])) := fresh.dirParents _
  have run₁ := Machine.run_createDirectory (m := ⟨d, fs, fun _ => none⟩) call₁
  have run₂ := Machine.run_create (m := ⟨d₁, fs, fun _ => none⟩) call₂
  obtain ⟨d', fs₁, fs₂, opened, written, found, lost⟩ := nested.emptied inv.mounted inv.sound
  refine ⟨⟨d₂, fs, fun _ => none⟩, d', fs₁, fs₂, .step (.step (.init init) ok₁ run₁) ok₂ run₂, opened, written, found, lost,
    fun same => ?_⟩
  rw [same.paths] at lost
  exact found lost

end Nachos.Mp4
