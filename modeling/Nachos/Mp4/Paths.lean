import Nachos.Mp4.Runs

/-!
# What creation and removal do to paths

A creation that fails leaves the disk as it was. In the runs of an allowed client a
creation that succeeds adds one path, as long as no component before the last is a
regular file, and a removal below a subdirectory takes away one path with the
paths below it. `OpenDir` goes through a regular file as if it were a directory, and
`Remove` reports success always and writes the root's table through an uninitialised local.
-/

namespace Nachos.Mp4
open Bytes Transition

/-- The components as `resolve` takes them. -/
def names (p : List FileName) : List (List Byte) := p.map (·.bytes)

/-- The path leads to the same header and shows the same file. -/
def SamePath (d d' : Disk) (q : List FileName) : Prop :=
  resolve d' (names q) = resolve d (names q) ∧ view d' (names q) = view d (names q)

theorem SamePath.trans {d d' d'' : Disk} {q : List FileName} (h : SamePath d d' q) (h' : SamePath d' d'' q) : SamePath d d'' q :=
  ⟨h'.1.trans h.1, h'.2.trans h.2⟩

variable {d d' : Disk} {fs : FileSystem} {S S' : Store} {m : Machine} {p i s : Nat} {u v : Node} {name parent : List Byte}
  {b : FreeMap}

/-! ## Failed creations -/

/-- Names of up to nine characters are kept apart by directories. -/
theorem toKey_names {p q : List FileName} : (names p).map toKey <+: (names q).map toKey ↔ p <+: q := by
  have inj : Function.Injective fun c : FileName => toKey c.bytes := fun a b h => toKey_inj h
  simp only [names, List.map_map]
  exact List.prefix_map_iff_of_injective inj

theorem names_inj {p q : List FileName} (h : (names p).map toKey = (names q).map toKey) : p = q := by
  have sub : p <+: q := toKey_names.1 (h ▸ List.prefix_rfl)
  exact sub.eq_of_length (by simpa [names] using congrArg List.length h)

/-- Two disks show the same at a path that leads to the same file of their stores. -/
theorem SamePath.of_rep (rep : Rep d S) (tidy : Tidy S) (rep' : Rep d' S') (tidy' : Tidy S') {q : List FileName}
    (walk : S'.walk (names q) = S.walk (names q))
    (file : ∀ c w, S.walk (names q) = some c → S c = some w → ∃ w', S' c = some w' ∧ w'.isDir = w.isDir ∧ w'.view = w.view) :
    SamePath d d' q := by
  rw [SamePath, rep.resolve tidy, rep'.resolve tidy', rep.view tidy, rep'.view tidy']
  cases hc : S.walk (names q) with
  | none =>
    rw [Store.file, Store.file, walk, hc]
    exact ⟨rfl, rfl⟩
  | some c =>
    obtain ⟨w, hf⟩ := Store.file_walk tidy hc
    obtain ⟨-, hw⟩ := Store.file_some hf
    obtain ⟨w', hw', kind, shown⟩ := file c w hc hw
    rw [hf, Store.file_eq (walk.trans hc) hw']
    simp [kind, shown]

/-- No walk leads to the map. -/
theorem Tidy.walk_ne_zero (tidy : Tidy S) {ns : List (List Byte)} {c : Nat} (h : S.walk ns = some c) : c ≠ 0 := by
  induction ns using List.reverseRecOn with
  | nil =>
    cases h
    exact one_ne_zero
  | append_singleton ns a _ =>
    rw [Store.walk, List.map_append, List.map_singleton, Tree.follow_snoc] at h
    obtain ⟨q, -, hc⟩ := Option.bind_eq_some_iff.1 h
    have := (tidy.child_live hc).1
    omega

/-- A directory with another table shows the same. -/
theorem Node.view_table (u : Node) (hd : u.isDir = true) (size : u.bytes.length = directoryFileSize) (t : Dir) :
    ({ u with bytes := t.toBytes } : Node).view = u.view := by
  rw [Node.view, Node.view, if_pos hd, if_pos hd, Directory.length_toBytes, size]
  rfl

/-- The files other than `s` and the map look as before: a directory's table is no part of its view. -/
theorem Edited.same_view {S' : Store} {t : Dir} (edit : Edited S S' p u t s b) (tidy : Tidy S) {c : Nat} {w : Node}
    (hs : c ≠ s) (h0 : c ≠ 0) (h : S c = some w) : ∃ w', S' c = some w' ∧ w'.isDir = w.isDir ∧ w'.view = w.view := by
  rcases eq_or_ne c p with rfl | hp
  · rw [edit.parent] at h
    cases h
    exact ⟨_, edit.at_parent, rfl, u.view_table edit.isDir (tidy.dirSize edit.parent edit.isDir) _⟩
  · exact ⟨w, (edit.at_other hs hp h0).trans h, rfl, rfl⟩

/-! ## Creation -/

/-- What a creation of the file `c` below `p` that succeeds should do. -/
structure CreatesPath (d d' : Disk) (p : List FileName) (c : FileName) (made : Word → Bool → Prop) : Prop where
  parent : ∃ sector, resolve d (names p) = some (sector, true)
  fresh : resolve d (names (p ++ [c])) = none
  new : ∃ sector dir, resolve d' (names (p ++ [c])) = some (sector, dir) ∧ made sector dir
  others : ∀ q, q ≠ p ++ [c] → SamePath d d' q

/-- A regular file of a length. -/
def IsRegular (d : Disk) (length : Int) (sector : Word) (dir : Bool) : Prop :=
  dir = false ∧ ∃ contents, viewAt d sector dir = .ok (.regular length contents)

/-- A directory with no entry in use. -/
def IsEmptyDirectory (d : Disk) (sector : Word) (dir : Bool) : Prop :=
  dir = true ∧ ∃ t, tableAt d sector = .ok t ∧ ∀ i < numDirEntries, (t.entry i).inUse = 0

theorem Created.createsPath {p : List FileName} {c : FileName} {dir : Bool} {L q : Nat}
    (made : Created S parent c.bytes dir L d' q u i s v b) (rep : Rep d S) (sound : Sound S)
    (toks : tokens parent = names p) {kind : Word → Bool → Prop}
    (new : ∀ sector : Word, sector.toNat = s → kind sector v.isDir) : CreatesPath d d' p c kind := by
  have tidy := sound.toTidy
  have link := made.link
  have sound' := link.sound_link sound
  have walk : S.walk (names p) = some q := by rw [Store.walk, ← toks]; exact made.resolves
  obtain ⟨before, after, others⟩ := (link.grown sound).paths sound.rooted (link.ne_one sound) walk
  have last : (names (p ++ [c])).map toKey = (names p).map toKey ++ [toKey c.bytes] := by simp [names]
  rw [← last] at before after others
  constructor
  · exact ⟨_, by rw [rep.resolve tidy, Store.file_eq walk link.parent, Option.map_some, link.isDir]⟩
  · rw [rep.resolve tidy, Store.file, Store.walk, before]
    rfl
  · refine ⟨BitVec.ofNat 32 s, v.isDir, ?_, new _ (sound'.toNat_ofNat (link.at_new sound))⟩
    rw [made.rep.resolve sound'.toTidy, Store.file_eq after (link.at_new sound), Option.map_some]
  · intro r hr
    exact .of_rep rep tidy made.rep sound'.toTidy (others _ fun e => hr (names_inj e)) fun x w hx hw =>
      (link.edited sound).same_view tidy (link.ne_live sound hw) (tidy.walk_ne_zero hx) hw

/-- **A creation that succeeds adds its path** and nothing else, when its parent's
components are no regular files and `SplitPath` copies the whole path. -/
theorem create_paths (reach : Reach system Allowed m) (p : List FileName) (c : FileName)
    (fits : (pathString (p ++ [c])).bytes.length < 300)
    (dirs : ∀ q sector, q <+: p → resolve m.disk (names q) ≠ some (sector, false)) (junk : Word) :
    (∀ (initialSize : Word) d', 0 ≤ initialSize.toInt →
      m.fs.create m.disk junk (pathString (p ++ [c])) initialSize = .ok (true, d') →
      CreatesPath m.disk d' p c (IsRegular d' initialSize.toInt)) ∧
    ∀ d', m.fs.createDirectory m.disk junk (pathString (p ++ [c])) = .ok (true, d') →
      CreatesPath m.disk d' p c (IsEmptyDirectory d') := by
  obtain ⟨S, inv⟩ := Invariant.of_reach reach
  have tidy := inv.sound.toTidy
  have rep := inv.mounted.rep
  have along : DirsAlong S 1 (names p) := by
    apply (rep.dirsAlong tidy).2
    intro q sector hq
    obtain ⟨r, hr, rfl⟩ := List.prefix_map_iff.1 hq
    exact dirs r sector hr
  constructor
  · intro size d' nonneg call
    obtain ⟨parent, split, toks⟩ := splitPath_snoc fits
    rcases inv.mounted.create inv.sound junk split (by rw [toks]; exact along) size with
      ⟨-, e⟩ | ⟨-, d₁, q, u, i, s, v, b, made, e⟩
    · rw [e] at call
      cases call
    rw [e] at call
    cases call
    have sound' := made.link.sound_link inv.sound
    refine made.createsPath rep inv.sound toks fun sector hs => ⟨made.kind, v.bytes, ?_⟩
    have hv : S.link q u i c.bytes s v b sector.toNat = some v := by
      rw [hs]
      exact made.link.at_new inv.sound
    rw [made.rep.viewAt sound'.toTidy hv, Node.view, made.kind, if_neg (by simp), made.length, allocLength_of_nonneg nonneg,
      toInt_of_nonneg nonneg]
  · intro d' call
    obtain ⟨parent, split, toks⟩ := splitPath_snoc fits
    rcases inv.mounted.createDirectory inv.sound junk split (by rw [toks]; exact along) with
      ⟨-, e⟩ | ⟨-, d₁, q, u, i, s, v, b, made, e⟩
    · rw [e] at call
      cases call
    rw [e] at call
    cases call
    have sound' := made.link.sound_link inv.sound
    refine made.createsPath rep inv.sound toks fun sector hs => ⟨made.kind, v.table, ?_, fun j hj => ?_⟩
    · have hv : S.link q u i c.bytes s v b sector.toNat = some v := by
        rw [hs]
        exact made.link.at_new inv.sound
      exact made.rep.tableAt sound'.toTidy hv made.kind
    · rw [Node.table, made.link.empty made.kind, Directory.ofBytes_toBytes, Directory.entry_new]
      rfl

theorem create_paths_fresh : ∃ m d', system.init m ∧
    m.fs.create m.disk 0 (pathString ([] ++ [.single 102 (by decide)])) 3713 = .ok (true, d') ∧
    CreatesPath m.disk d' [] (.single 102 (by decide)) (IsRegular d' (3713 : Word).toInt) := by
  obtain ⟨d, fs, S, formatted, fresh⟩ := format_spec fun _ => .tabulate fun _ => 0
  have init : system.init ⟨d, fs, fun _ => none⟩ := ⟨⟨_, formatted⟩, fun _ => rfl⟩
  obtain ⟨parent, d', u, i, s, v, b, -, -, call⟩ := fresh.create 0 (.single 102 (by decide)) 3713 (by decide)
  refine ⟨⟨d, fs, fun _ => none⟩, d', init, call, (create_paths (.init init) [] _ (fits_of_length (by simp)) ?_ 0).1 3713 d' (by decide) call⟩
  intro q sector hq h
  rw [List.prefix_nil.1 hq] at h
  cases h

/-- Fetching a table from an empty file leaves it as it was. -/
theorem Tidy.fetch_empty (tidy : Tidy S) (hv : S s = some v) (empty : v.bytes = []) (t : Dir) :
    t.fetchFrom d ⟨v.hdr, 0⟩ = .ok t := by
  have short : Readable (OpenFile.mk v.hdr 0).hdr 0 := by
    have := tidy.readable hv
    rwa [empty] at this
  exact Directory.fetchFrom_empty short (by decide) t

section
variable (mounted : Mounted d fs S) (sound : Sound S) (junk : Word) {a : List Byte} (one : tokens parent = [a])
  (file : S.file [a] = some (s, v)) (empty : v.bytes = [])
include mounted sound one file empty

/-- `OpenDir` enters an empty regular file and keeps the table it had before. -/
theorem Mounted.openDir_through : fs.openDir d junk parent = .ok (some ⟨v.hdr, 0⟩) := by
  have tidy := sound.toTidy
  obtain ⟨hs, hv⟩ := Store.file_some file
  obtain ⟨r, hr, hrd, hf⟩ := mounted.root tidy
  rcases tidy.find hr hrd a with ⟨hc, -⟩ | ⟨i, e, w, -, -, -, found, ne, hc, hw, -⟩
  · rw [Store.walk, List.map_singleton, Tree.follow, hc] at hs
    cases hs
  rw [Store.walk, List.map_singleton, Tree.follow, hc] at hs
  cases hs
  have opened := mounted.rep.openFile tidy.toLaid hv
  rw [FileSystem.openDir, Rep.fetchTable tidy mounted.rep hr hrd hf, ok_bind, one, FileSystem.walk, found]
  simp only [if_neg ne, opened, ok_bind, tidy.fetch_empty hv empty, FileSystem.walk]
  simp only [pure, Except.pure, ok_bind, opened]

theorem Mounted.parentTable_through {u : Node} (hu : S 1 = some u) : fs.parentTable d junk parent = .ok (some u.table) := by
  have tidy := sound.toTidy
  obtain ⟨r, hr, hrd, hf⟩ := mounted.root tidy
  rw [hu] at hr
  cases hr
  rw [FileSystem.parentTable, Rep.fetchTable tidy mounted.rep hu hrd hf, ok_bind, if_pos (by rw [one]; simp),
    mounted.openDir_through sound junk one file empty, ok_bind]
  simp only [tidy.fetch_empty (Store.file_some file).2 empty, ok_bind]
  rfl

/-- **`Create` below an empty regular file** reports success and links nothing: the name is
looked up and entered in the root's table, which is written to the empty file. -/
theorem Mounted.create_through {path : CString} (split : splitPath path = .ok (parent, name)) {u : Node} (hu : S 1 = some u)
    (fresh : u.table.findIndex name = none) (size : Word) (room : Room S u (allocLength size)) :
    ∃ d', fs.create d junk path size = .ok (true, d') := by
  have tidy := sound.toTidy
  rcases reserve_spec (S := S) fresh size false with ⟨-, i, s', hdr, m, -, -, res, reserved⟩ | ⟨no, -⟩
  · obtain ⟨d₁, h₁, old, rep₁⟩ := res.writeHeader sound mounted.rep false
    have mounted₁ : Mounted d₁ fs S := mounted.of_rep old fun _ h => ⟨_, h, rfl⟩
    obtain ⟨v₀, h₀, size₀, hf₀⟩ := mounted.map tidy
    obtain ⟨d₂, h₂, -⟩ := rep₁.writeMap (res.laid sound false (length_content d₁ hdr _)) (v := v₀)
      (by rw [Store.insert_other _ (res.ne_live sound h₀), h₀]) size₀ hf₀ m
    have shaped : (OpenFile.mk v.hdr 0).hdr.Shaped 0 := by
      have := tidy.shaped (Store.file_some file).2
      rwa [empty] at this
    have hw : fs.writeTable d₁ junk parent (linkedTable u i name s' false) = .ok d₁ := by
      rw [FileSystem.writeTable, if_pos (by rw [one]; simp), FileSystem.writeParent,
        mounted₁.openDir_through sound junk one file empty, ok_bind]
      exact Directory.writeBack_empty shaped _
    have missing : u.table.find name = -1 := by rw [Directory.find, fresh]
    refine ⟨d₂, ?_⟩
    unfold FileSystem.create
    simp only [split, ok_bind, mounted.parentTable_through sound junk one file empty hu]
    rw [if_neg (not_not.2 missing), mounted.fetchMap tidy, ok_bind]
    simp only [reserved, ok_bind, h₁, hw, h₂]
    rfl
  · exact absurd room no

end

/-- A file below an empty regular file of the root directory: the call succeeds though
the parent is no directory. -/
theorem Fresh.create_through (fresh : Fresh d fs S) {a c : FileName} (ne : c ≠ a) : ∃ d₁ d' sector,
    fs.create d 0 (pathString [a]) 0 = .ok (true, d₁) ∧ fs.create d₁ 0 (pathString ([a] ++ [c])) 0 = .ok (true, d') ∧
      resolve d₁ (names [a]) = some (sector, false) := by
  obtain ⟨parent, d₁, u, i, s, v, b, top, made, call⟩ := fresh.create 0 a 0 (by decide)
  have inv := (Invariant.of_fresh fresh).linked made
  have link := made.link
  obtain ⟨unused, missing⟩ := fresh.unused link.parent link.isDir
  have here := ((link.grown fresh.sound).paths fresh.sound.rooted (link.ne_one fresh.sound) (P := []) rfl).2.1
  have file : (S.link 1 u i a.bytes s v b).file [a.bytes] = some (s, v) := Store.file_eq here (link.at_new fresh.sound)
  have empty : v.bytes = [] := List.eq_nil_of_length_eq_zero made.length
  obtain ⟨parent', split, toks⟩ := splitPath_snoc (p := [a]) (c := c) (fits_of_length (by simp))
  -- the root's table has neither the name nor all entries in use
  have fresh' : (linkedTable u i a.bytes s v.isDir).findIndex c.bytes = none := by
    rw [← Directory.lookup_none, link.lookup_parent, if_neg, Directory.lookup_none, missing]
    rw [c.key_eq, a.key_eq]
    exact fun e => ne (FileName.ext e)
  have free : ∃ j < numDirEntries, ((linkedTable u i a.bytes s v.isDir).entry j).inUse = 0 := by
    rcases eq_or_ne i 0 with rfl | hi
    · refine ⟨1, by decide, ?_⟩
      rw [linkedTable, Directory.entry_setEntry _ link.slot, if_neg (by decide)]
      exact unused 1 (by decide)
    · refine ⟨0, by decide, ?_⟩
      rw [linkedTable, Directory.entry_setEntry _ link.slot, if_neg (Ne.symm hi)]
      exact unused 0 (by decide)
  have room := made.room
  have large := fresh.room
  rw [show allocLength 0 = 0 from rfl, show sectorsNeeded 0 = 0 from rfl] at room
  obtain ⟨d', call'⟩ := inv.mounted.create_through inv.sound 0 toks file empty split (link.at_parent fresh.sound)
    (by rw [Node.table_toBytes]; exact fresh') 0 ⟨by rw [Node.table_toBytes]; exact free, by
      rw [link.freeMap_eq fresh.sound, show sectorsNeeded (allocLength 0) = 0 from rfl]
      omega⟩
  refine ⟨d₁, d', BitVec.ofNat 32 s, call, call', ?_⟩
  have resolved := inv.mounted.rep.resolve inv.sound.toTidy [a.bytes]
  rw [file, Option.map_some, made.kind] at resolved
  exact resolved

theorem create_through_file : ∃ m₀ m₁ d', system.init m₀ ∧ m₀.run (.create 0 (pathString [.single 102 (by decide)]) 0) = .ok m₁ ∧
    m₁.fs.create m₁.disk 0 (pathString ([.single 102 (by decide)] ++ [.single 103 (by decide)])) 0 = .ok (true, d') ∧
    ¬ CreatesPath m₁.disk d' [.single 102 (by decide)] (.single 103 (by decide)) (IsRegular d' (0 : Word).toInt) := by
  obtain ⟨d, fs, S, formatted, fresh⟩ := format_spec fun _ => .tabulate fun _ => 0
  obtain ⟨d₁, d', sector, call, call', file⟩ := fresh.create_through (a := .single 102 (by decide)) (c := .single 103 (by decide))
    (fun e => absurd (congrArg FileName.bytes e) (by decide))
  refine ⟨⟨d, fs, fun _ => none⟩, ⟨d₁, fs, fun _ => none⟩, d', ⟨⟨_, formatted⟩, fun _ => rfl⟩, Machine.run_create call, call', ?_⟩
  rintro ⟨⟨sector', parent⟩, -⟩
  cases file.symm.trans parent

/-! ## Removal -/

/-- What `Remove` should do. -/
def RemovesPath (m : Machine) (junk : Word) (p : List FileName) : Prop :=
  (∀ r, resolve m.disk (names p) = some r → ∃ d', m.fs.remove m.disk junk (pathString p) = .ok (true, d') ∧
    (∀ q, p <+: q → resolve d' (names q) = none) ∧ ∀ q, ¬ p <+: q → SamePath m.disk d' q) ∧
  (resolve m.disk (names p) = none → m.fs.remove m.disk junk (pathString p) = .ok (false, m.disk))

/-- `Remove` never reports failure. -/
theorem remove_true {junk : Word} {path : CString} {r : Bool} (h : fs.remove d junk path = .ok (r, d')) : r = true := by
  obtain ⟨_, -, h⟩ := bind_ok h
  obtain ⟨t, -, h⟩ := bind_ok h
  cases t with
  | none =>
    cases h
    rfl
  | some t =>
    obtain ⟨_, -, h⟩ := bind_ok h
    obtain ⟨_, -, h⟩ := bind_ok h
    obtain ⟨_, -, h⟩ := bind_ok h
    obtain ⟨_, -, h⟩ := bind_ok h
    obtain ⟨_, -, h⟩ := bind_ok h
    obtain ⟨_, -, h⟩ := bind_ok h
    cases h
    rfl

/-- `OpenDir` of the root directory opens what its uninitialised local says. -/
theorem openDir_top {f : Option OpenFile} (top : tokens parent = []) (h : fs.openDir d (-1) parent = .ok f) : False := by
  obtain ⟨t, -, h⟩ := bind_ok h
  rw [top, FileSystem.walk] at h
  obtain ⟨w, walked, h⟩ := bind_ok h
  cases walked
  obtain ⟨f, opened, -⟩ := bind_ok h
  obtain ⟨hdr, fetched, -⟩ := bind_ok opened
  obtain ⟨v, read, -⟩ := bind_ok fetched
  have := (readSector_ok read).1
  rw [diskSectors_eq] at this
  exact absurd this (by decide)

/-- `Remove` of an entry of the root directory can end in an `ASSERT`. -/
theorem remove_top {path : CString} {t : Dir × Word} {r : Bool} (split : splitPath path = .ok (parent, name))
    (top : tokens parent = []) (target : fs.removeTarget d (-1) parent name = .ok (some t)) :
    fs.remove d (-1) path ≠ .ok (r, d') := by
  intro h
  unfold FileSystem.remove at h
  simp only [split, ok_bind, target] at h
  obtain ⟨_, -, h⟩ := bind_ok h
  obtain ⟨_, -, h⟩ := bind_ok h
  obtain ⟨_, -, h⟩ := bind_ok h
  obtain ⟨_, -, h⟩ := bind_ok h
  obtain ⟨_, -, h⟩ := bind_ok h
  obtain ⟨_, written, -⟩ := bind_ok h
  obtain ⟨_, opened, -⟩ := bind_ok written
  exact openDir_top top opened

/-- **`Remove` below a subdirectory** takes away its path and those below it. -/
theorem Mounted.removesPath {p : List FileName} {c : FileName} (mounted : Mounted d fs S) (sound : Sound S)
    (distinct : S.Distinct) (junk : Word) (below : p ≠ []) (fits : (pathString (p ++ [c])).bytes.length < 300)
    (file : S.file (names (p ++ [c])) = some (s, v)) : ∃ d', fs.remove d junk (pathString (p ++ [c])) = .ok (true, d') ∧
      (∀ q, p ++ [c] <+: q → resolve d' (names q) = none) ∧ ∀ q, ¬ p ++ [c] <+: q → SamePath d d' q := by
  have tidy := sound.toTidy
  obtain ⟨parent, split, toks⟩ := splitPath_snoc fits
  have last : names (p ++ [c]) = tokens parent ++ [c.bytes] := by rw [toks]; simp [names]
  have keys : (names (p ++ [c])).map toKey = (tokens parent).map toKey ++ [toKey c.bytes] := by rw [last]; simp
  obtain ⟨here, -⟩ := Store.file_some file
  rw [last] at file
  obtain ⟨q, u, i, f, -⟩ := mounted.found sound junk file
  obtain ⟨d', b, unlink, rep', call⟩ := mounted.remove_found sound junk split (.of_file file)
    (by rw [toks]; simpa using below) f
  have sound' := unlink.sound_unlink sound
  obtain ⟨gone, others⟩ := (unlink.pruned sound distinct).paths sound.rooted f.resolves
  refine ⟨d', call, fun r hr => ?_, fun r hr => ?_⟩
  · rw [rep'.resolve sound'.toTidy, Store.file, Store.walk, gone _ (by rw [← keys]; exact toKey_names.2 hr)]
    rfl
  · have outside : ¬ (tokens parent).map toKey ++ [toKey c.bytes] <+: (names r).map toKey := by
      rw [← keys]
      exact fun h => hr (toKey_names.1 h)
    refine .of_rep mounted.rep tidy rep' sound'.toTidy (others _ outside) fun x w hx hw => ?_
    refine (unlink.edited sound).same_view tidy ?_ (tidy.walk_ne_zero hx) hw
    rintro rfl
    have same : (tokens parent).map toKey ++ [toKey c.bytes] = (names r).map toKey := by
      rw [← keys, sound.rooted.path_unique here hx]
    exact outside (same ▸ List.prefix_rfl)

/-- **`Remove` does what it should exactly on the paths of two or more components that
lead to a file**, whatever `OpenDir` finds in its uninitialised local. -/
theorem remove_paths (reach : Reach system Allowed m) (p : List FileName) (ne : p ≠ []) :
    (∀ junk, RemovesPath m junk p) ↔
      resolve m.disk (names p) ≠ none ∧ 2 ≤ p.length ∧ (pathString p).bytes.length < 300 := by
  obtain ⟨S, inv⟩ := Invariant.of_reach reach
  have rep := inv.mounted.rep
  have tidy := inv.sound.toTidy
  obtain ⟨p, c, rfl⟩ := (List.eq_nil_or_concat p).resolve_left ne
  rw [List.concat_eq_append]
  constructor
  · intro removes
    have found : resolve m.disk (names (p ++ [c])) ≠ none := by
      intro absent
      exact absurd (remove_true ((removes 0).2 absent)) (by decide)
    obtain ⟨r, hr⟩ := Option.ne_none_iff_exists'.1 found
    obtain ⟨d', call, -⟩ := (removes (-1)).1 r hr
    obtain ⟨_, ok, -⟩ := bind_ok call
    have fits := fits_of_ok ok
    refine ⟨found, ?_, fits⟩
    -- in the root directory the local may hold -1
    by_contra short
    have top : p = [] := List.eq_nil_of_length_eq_zero (by rw [List.length_append, List.length_singleton] at short; omega)
    subst top
    obtain ⟨parent, split, toks⟩ := splitPath_snoc (p := []) (c := c) fits
    rw [rep.resolve tidy] at hr
    obtain ⟨⟨s, v⟩, hf, -⟩ := Option.map_eq_some_iff.1 hr
    obtain ⟨_, u, i, -, target⟩ := inv.mounted.found inv.sound (-1) (by rw [toks]; exact hf)
    exact remove_top split toks target call
  · rintro ⟨found, deep, fits⟩ junk
    refine ⟨fun r hr => ?_, fun absent => absurd absent found⟩
    rw [rep.resolve tidy] at hr
    obtain ⟨⟨s, v⟩, hf, -⟩ := Option.map_eq_some_iff.1 hr
    apply inv.mounted.removesPath inv.sound inv.distinct junk _ fits hf
    rintro rfl
    exact absurd deep (by simp)

theorem remove_paths_nested : ∃ m₀ m₁ m₂, system.init m₀ ∧
    m₀.run (.createDirectory 0 (pathString [.single 100 (by decide)])) = .ok m₁ ∧
    m₁.run (.create 0 (pathString [.single 100 (by decide), .single 102 (by decide)]) 200) = .ok m₂ ∧
    ∀ junk, RemovesPath m₂ junk [.single 100 (by decide), .single 102 (by decide)] := by
  obtain ⟨d, fs, S, formatted, fresh⟩ := format_spec fun _ => .tabulate fun _ => 0
  have init : system.init ⟨d, fs, fun _ => none⟩ := ⟨⟨_, formatted⟩, fun _ => rfl⟩
  obtain ⟨d₁, d₂, S₂, parent, s, v, call₁, call₂, ok₂, inv, -, nested⟩ :=
    fresh.nested (.single 100 (by decide)) (.single 102 (by decide)) 200 (by decide)
  have ok₁ : Allowed ⟨d, fs, fun _ => none⟩ (.createDirectory 0 (pathString [.single 100 (by decide)])) := fresh.dirParents _
  have run₁ := Machine.run_createDirectory (m := ⟨d, fs, fun _ => none⟩) call₁
  have run₂ := Machine.run_create (m := ⟨d₁, fs, fun _ => none⟩) call₂
  have reach₁ : Reach system Allowed ⟨d₁, fs, fun _ => none⟩ := .step (.init init) ok₁ run₁
  have file : S₂.file (names [.single 100 (by decide), .single 102 (by decide)]) = some (s, v) :=
    Store.file_eq nested.walk nested.file
  refine ⟨_, _, _, init, run₁, run₂, (remove_paths (.step reach₁ ok₂ run₂) _ (by simp)).2 ⟨?_, by simp, fits_of_length (by simp)⟩⟩
  rw [inv.mounted.rep.resolve inv.sound.toTidy, file]
  simp

/-- Removing a path that leads nowhere reports success. -/
theorem remove_missing : ∃ m, system.init m ∧ resolve m.disk (names [.single 120 (by decide)]) = none ∧
    m.fs.remove m.disk 0 (pathString [.single 120 (by decide)]) = .ok (true, m.disk) ∧
    ¬ RemovesPath m 0 [.single 120 (by decide)] := by
  obtain ⟨d, fs, S, formatted, fresh⟩ := format_spec fun _ => .tabulate fun _ => 0
  have tidy := fresh.sound.toTidy
  obtain ⟨parent, split, toks⟩ := splitPath_snoc (p := []) (c := .single 120 (by decide)) (fits_of_length (by simp))
  obtain ⟨u, hu, hd⟩ := tidy.root
  have absent : S.walk [[120]] = none := by
    rw [Store.walk, List.map_singleton, Tree.follow, Store.child_eq hu hd, Directory.lookup, (fresh.unused hu hd).2]
    rfl
  have missing : resolve d (names [.single 120 (by decide)]) = none := by
    rw [fresh.mounted.rep.resolve tidy, Store.file, show names [.single 120 (by decide)] = [[120]] from rfl, absent]
    rfl
  have call : fs.remove d 0 (pathString [.single 120 (by decide)]) = .ok (true, d) :=
    fresh.mounted.remove_absent fresh.sound 0 split (fresh.dirsAlong _) (by rw [toks]; exact absent)
  refine ⟨⟨d, fs, fun _ => none⟩, ⟨⟨_, formatted⟩, fun _ => rfl⟩, missing, call, fun removes => ?_⟩
  cases call.symm.trans (removes.2 missing)

end Nachos.Mp4
