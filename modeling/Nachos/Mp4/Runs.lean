import Nachos.Base.Transition
import Nachos.Mp4.Formatting
import Nachos.Mp4.Lookup

/-!
# Runs of the file system

A machine is a disk, the mounted file system and the open files. Its runs start from
`FileSystem(TRUE)` and make calls in any order; a call that does not return ends the run, and so does
one with a path of 300 bytes or more, of which `SplitPath` does not copy the end.
`Allowed` is a client that keeps to what the code can take: it walks through no
regular file, removes nothing from the root directory and writes through descriptors of
regular files that are still there. `Invariant` holds in its runs.
-/

namespace Nachos.Mp4
open Bytes Transition

/-- An open file, with what its path named and whether that was removed since. -/
structure Descriptor where
  file : OpenFile
  target : Option (Word × Bool)
  removed : Bool

/-- A descriptor of a regular file that was not removed. -/
def Descriptor.Writable (h : Descriptor) : Prop := h.removed = false ∧ ∃ sector, h.target = some (sector, false)

structure Machine where
  disk : Disk
  fs : FileSystem
  descriptors : Nat → Option Descriptor

/-- The calls; `junk` is what `OpenDir` finds in its uninitialised local. -/
inductive Call where
  | create (junk : Word) (name : CString) (initialSize : Word)
  | createDirectory (junk : Word) (name : CString)
  | remove (junk : Word) (name : CString)
  | openAs (id : Nat) (junk : Word) (name : CString)
  | write (id : Nat) (source : Nat → Byte) (numBytes : Int)
  | read (id : Nat) (numBytes : Int)
  | seek (id : Nat) (position : Int)
  | close (id : Nat)

/-- The components of a path, the last as `SplitPath` gives it. -/
def pathNames (name : CString) : List (List Byte) :=
  match splitPath name with
  | .ok (parent, target) => tokens parent ++ [target]
  | .error _ => []

/-- The components before the last. -/
def parentNames (name : CString) : List (List Byte) :=
  match splitPath name with
  | .ok (parent, _) => tokens parent
  | .error _ => []

namespace Machine

/-- The descriptors once what a path named is gone. -/
def afterRemoval (m : Machine) (gone : Option (Word × Bool)) (id : Nat) : Option Descriptor :=
  (m.descriptors id).map fun h =>
    { h with removed := h.removed || (gone.isSome && gone.map Prod.fst == h.target.map Prod.fst) }

def setDescriptor (m : Machine) (id : Nat) (h : Option Descriptor) : Machine :=
  { m with descriptors := Function.update m.descriptors id h }

/-- One call. -/
def run (m : Machine) : Call → Exec Machine
  | .create junk name initialSize => do
    let (_, d) ← m.fs.create m.disk junk name initialSize
    pure { m with disk := d }
  | .createDirectory junk name => do
    let (_, d) ← m.fs.createDirectory m.disk junk name
    pure { m with disk := d }
  | .remove junk name => do
    let (_, d) ← m.fs.remove m.disk junk name
    pure { m with disk := d, descriptors := m.afterRemoval (resolve m.disk (pathNames name)) }
  | .openAs id junk name => do
    let (file, fs) ← m.fs.open m.disk junk name
    let h := file.map fun f => Descriptor.mk f (resolve m.disk (pathNames name)) false
    pure ({ m with fs := fs }.setDescriptor id h)
  | .write id source numBytes =>
    match m.descriptors id with
    | none => pure m
    | some h => do
      let (_, d, file) ← h.file.write m.disk source numBytes
      pure ({ m with disk := d }.setDescriptor id (some { h with file := file }))
  | .read id numBytes =>
    match m.descriptors id with
    | none => pure m
    | some h => do
      let (_, file) ← h.file.read m.disk numBytes
      pure (m.setDescriptor id (some { h with file := file }))
  | .seek id position =>
    match m.descriptors id with
    | none => pure m
    | some h => pure (m.setDescriptor id (some { h with file := h.file.seek position }))
  | .close id => pure (m.setDescriptor id none)

end Machine

/-- The runs of the file system. -/
def system : Transition.System Machine Call where
  init m := (∃ raw, FileSystem.format raw = .ok (m.disk, m.fs)) ∧ ∀ id, m.descriptors id = none
  step m c m' := m.run c = .ok m'

/-- No component before the last names a regular file. -/
def DirParents (d : Disk) (name : CString) : Prop :=
  ∀ q sector, q <+: parentNames name → resolve d q ≠ some (sector, false)

/-- The calls of a client that stays within what the code can take. -/
def Allowed (m : Machine) : Call → Prop
  | .create _ name _ => DirParents m.disk name
  | .createDirectory _ name => DirParents m.disk name
  | .remove _ name => DirParents m.disk name ∧ (parentNames name = [] → resolve m.disk (pathNames name) = none)
  | .write id _ _ => ∀ h, m.descriptors id = some h → h.Writable
  | .openAs .. | .read .. | .seek .. | .close .. => True

/-- What holds in the runs of an allowed client, with the files of the disk. -/
structure Invariant (m : Machine) (S : Store) : Prop where
  sound : Sound S
  mounted : Mounted m.disk m.fs S
  distinct : S.Distinct
  writable : ∀ {id h sector}, m.descriptors id = some h → h.removed = false → h.target = some (sector, false) →
    2 ≤ sector.toNat ∧ ∃ v, S sector.toNat = some v ∧ v.isDir = false ∧ h.file.hdr = v.hdr

/-- What an allowed call can do to the files. -/
inductive Change (S : Store) : Call → Store → Prop where
  | same {c : Call} : Change S c S
  | linked {c : Call} {path : CString} {parent name : List Byte} {dir : Bool} {L p i s : Nat} {u v : Node} {d' : Disk}
      {m : FreeMap} : splitPath path = .ok (parent, name) → Created S parent name dir L d' p u i s v m →
      Change S c (S.link p u i name s v m)
  | unlinked {junk : Word} {path : CString} {parent name : List Byte} {p i s : Nat} {u v : Node} {m : FreeMap} :
      splitPath path = .ok (parent, name) → Found S parent name p u i s v → Unlinking S p u i name s v m →
      Change S (.remove junk path) (S.unlink p u i s m)
  | written {c : Call} {s : Nat} {v : Node} {bytes : List Byte} : S s = some v → v.isDir = false → 2 ≤ s →
      bytes.length = v.bytes.length → Change S c (S.put s bytes)

variable {d : Disk} {fs : FileSystem} {S S' : Store} {m m' : Machine} {c : Call} {path : CString}
  {parent name : List Byte} {v : Node} {s : Nat}

theorem pathNames_eq (split : splitPath path = .ok (parent, name)) : pathNames path = tokens parent ++ [name] := by
  rw [pathNames, split]

theorem Machine.afterRemoval_none (m : Machine) : m.afterRemoval none = m.descriptors := by
  funext id
  rw [afterRemoval]
  cases m.descriptors id <;> simp

/-- `Open` returns only where the path splits. -/
theorem splitPath_of_findFile {junk : Word} {file : Option OpenFile} (h : fs.findFile d junk path = .ok file) :
    ∃ r, splitPath path = .ok r := by
  obtain ⟨t, -, h⟩ := bind_ok h
  obtain ⟨r, split, -⟩ := bind_ok h
  exact ⟨r, split⟩

theorem Found.walk {p i : Nat} {u : Node} (f : Found S parent name p u i s v) : S.walk (tokens parent ++ [name]) = some s := by
  rw [Store.walk, List.map_append, List.map_singleton, Tree.follow_snoc, f.resolves]
  exact f.child

theorem parentNames_eq (split : splitPath path = .ok (parent, name)) : parentNames path = tokens parent := by
  rw [parentNames, split]

namespace Machine
variable {junk size : Word} {r : Bool} {d' : Disk}

theorem run_create (call : m.fs.create m.disk junk path size = .ok (r, d')) :
    m.run (.create junk path size) = .ok { m with disk := d' } := by
  rw [run, call]
  rfl

theorem run_createDirectory (call : m.fs.createDirectory m.disk junk path = .ok (r, d')) :
    m.run (.createDirectory junk path) = .ok { m with disk := d' } := by
  rw [run, call]
  rfl

theorem run_remove (call : m.fs.remove m.disk junk path = .ok (r, d')) : m.run (.remove junk path) =
    .ok { m with disk := d', descriptors := m.afterRemoval (resolve m.disk (pathNames path)) } := by
  rw [run, call]
  rfl

end Machine

/-- The walk to a parent meets no regular file exactly when the disk's paths say so. -/
theorem Rep.dirsAlong (rep : Rep d S) (tidy : Tidy S) {names : List (List Byte)} :
    DirsAlong S 1 names ↔ ∀ q sector, q <+: names → Mp4.resolve d q ≠ some (sector, false) := by
  constructor
  · intro dirs q sector hq h
    obtain ⟨v, file, regular⟩ := rep.resolve_some tidy h
    obtain ⟨hc, hv⟩ := Store.file_some file
    rw [dirs q _ v hq hc hv] at regular
    cases regular
  · intro none' q c v hq hc hv
    cases hd : v.isDir with
    | true => rfl
    | false =>
      refine absurd ?_ (none' q (BitVec.ofNat 32 c) hq)
      rw [rep.resolve tidy, Store.file_eq hc hv, Option.map_some, hd]

/-- A path that leads to a file passes through directories. -/
theorem DirsAlong.of_file {names : List (List Byte)} (h : S.file (names ++ [name]) = some (s, v)) :
    DirsAlong S 1 names := by
  rintro q c w ⟨r, rfl⟩ hc hw
  obtain ⟨hs, -⟩ := Store.file_some h
  rw [Store.walk, List.append_assoc, List.map_append, Tree.follow_append, hc, Option.bind_some] at hs
  -- the next component has to be a child
  cases hd : w.isDir with
  | true => rfl
  | false =>
    have leaf : ∀ k, S.child c k = none := Store.child_not_dir fun w' h' => by
      rw [hw] at h'
      cases h'
      exact hd
    cases r with
    | nil =>
      rw [List.nil_append, List.map_singleton, Tree.follow, leaf] at hs
      cases hs
    | cons a r =>
      rw [List.cons_append, List.map_cons, Tree.follow, leaf] at hs
      cases hs

/-- The walk to a directory meets directories only. -/
theorem DirsAlong.of_dir {ns : List (List Byte)} (h : S.file ns = some (s, v)) (hd : v.isDir = true) : DirsAlong S 1 ns := by
  intro q c w hq hc hw
  obtain ⟨hs, hv⟩ := Store.file_some h
  induction ns using List.reverseRecOn with
  | nil =>
    rw [List.prefix_nil.1 hq] at hc
    cases hs.symm.trans hc
    cases hv.symm.trans hw
    exact hd
  | append_singleton ns a _ =>
    rcases List.prefix_concat_iff.1 hq with rfl | hq
    · cases hs.symm.trans hc
      cases hv.symm.trans hw
      exact hd
    · exact DirsAlong.of_file h q c w hq hc hw

/-- The entry of a path that names a file, as `Remove` finds it. -/
theorem Mounted.found (mounted : Mounted d fs S) (sound : Sound S) (junk : Word)
    (h : S.file (tokens parent ++ [name]) = some (s, v)) : ∃ p u i, Found S parent name p u i s v ∧
      fs.removeTarget d junk parent name = .ok (some (u.table, (u.table.entry i).sector)) := by
  obtain ⟨hs, hv⟩ := Store.file_some h
  rcases mounted.removeTarget sound junk (.of_file h) name with ⟨none', -⟩ | ⟨p, u, i, v', f, target⟩
  · rw [Store.walk, none'] at hs
    cases hs
  · have same := f.walk
    rw [hs] at same
    cases same
    have file := f.file
    rw [hv] at file
    cases file
    exact ⟨p, u, i, f, target⟩

/-- **`Open`** of a path that names a file. -/
theorem Mounted.findFile (mounted : Mounted d fs S) (sound : Sound S) (junk : Word)
    (split : splitPath path = .ok (parent, name)) (h : S.file (tokens parent ++ [name]) = some (s, v)) :
    fs.findFile d junk path = .ok (some ⟨v.hdr, 0⟩) := by
  have tidy := sound.toTidy
  have dirs := DirsAlong.of_file h
  obtain ⟨hs, hv⟩ := Store.file_some h
  rw [Store.walk, List.map_append, List.map_singleton, Tree.follow_snoc] at hs
  obtain ⟨p, hp, hc⟩ := Option.bind_eq_some_iff.1 hs
  -- the entry `Find` meets in the parent
  have found : ∀ {u : Node}, S p = some u → u.isDir = true →
      (u.table.find name).toNat = s ∧ 0 ≤ (u.table.find name).toInt := by
    intro u hu hd
    rcases tidy.find hu hd name with ⟨hc', -⟩ | ⟨i, e, w, he, -, -, hf, -, hc', -⟩
    · rw [hc] at hc'
      cases hc'
    · rw [hc] at hc'
      rw [hf]
      have lt := tidy.entry_lt he
      have := diskSectors_eq
      exact ⟨(Option.some.inj hc').symm, by rw [toInt_eq_toNat (by omega)]; omega⟩
  obtain ⟨r, hr, hrd, hf⟩ := mounted.root tidy
  rw [FileSystem.findFile, Rep.fetchTable tidy mounted.rep hr hrd hf, ok_bind]
  simp only [split, ok_bind]
  by_cases hne : tokens parent = []
  · rw [if_pos hne]
    rw [hne] at hp
    cases hp
    obtain ⟨hn, h0⟩ := found hr hrd
    rw [if_pos h0, mounted.rep.openFile tidy.toLaid (by rw [hn]; exact hv)]
    rfl
  · rw [if_neg hne]
    rcases mounted.openDir tidy hne dirs junk with ⟨h₁, -⟩ | ⟨q, u, h₁, hu, hud, h₂⟩
    · rw [hp] at h₁
      cases h₁
    · rw [hp] at h₁
      cases h₁
      obtain ⟨hn, -⟩ := found hu hud
      have table := Rep.fetchTable tidy mounted.rep hu hud (f := ⟨u.hdr, 0⟩) rfl r.table
      simp only [h₂, ok_bind, table, mounted.rep.openFile tidy.toLaid (s := u.table.find name) (by rw [hn]; exact hv)]
      rfl

namespace Invariant

/-- Changing the disk alone. -/
theorem of_disk (inv : Invariant m S) (sound : Sound S') {d' : Disk} (mounted : Mounted d' m.fs S') (distinct : S'.Distinct)
    (keeps : ∀ {t w}, 2 ≤ t → S t = some w → w.isDir = false → ∃ w', S' t = some w' ∧ w'.isDir = false ∧ w'.hdr = w.hdr) :
    Invariant { m with disk := d' } S' where
  sound := sound
  mounted := mounted
  distinct := distinct
  writable hh hr ht := by
    obtain ⟨h2, v, hv, hd, hf⟩ := inv.writable hh hr ht
    obtain ⟨v', hv', hd', e⟩ := keeps h2 hv hd
    exact ⟨h2, v', hv', hd', hf.trans e.symm⟩

theorem linked (inv : Invariant m S) {dir : Bool} {L p i s : Nat} {u v : Node} {d' : Disk} {b : FreeMap}
    (made : Created S parent name dir L d' p u i s v b) :
    Invariant { m with disk := d' } (S.link p u i name s v b) := by
  have link := made.link
  refine inv.of_disk (link.sound_link inv.sound) (link.mounted inv.sound inv.mounted made.rep)
    (link.distinct inv.sound inv.distinct) fun {t w} h2 hw hd => ⟨w, ?_, hd, rfl⟩
  exact ((link.edited inv.sound).file_iff (link.ne_live inv.sound hw) (by omega) hd).2 hw

/-- The file names of an `Unlinking` are gone from the descriptors that had it open. -/
theorem unlinked (inv : Invariant m S) {p i s : Nat} {u v : Node} {d' : Disk} {b : FreeMap} {dir : Bool}
    (unlink : Unlinking S p u i name s v b) (rep : Rep d' (S.unlink p u i s b)) :
    Invariant { m with disk := d', descriptors := m.afterRemoval (some (BitVec.ofNat 32 s, dir)) }
      (S.unlink p u i s b) where
  sound := unlink.sound_unlink inv.sound
  mounted := unlink.mounted inv.sound inv.mounted rep
  distinct := unlink.distinct inv.sound inv.distinct
  writable {id h sector} hh hr ht := by
    obtain ⟨h₀, hh₀, rfl⟩ := Option.map_eq_some_iff.1 hh
    obtain ⟨hr₀, gone⟩ := Bool.or_eq_false_iff.1 hr
    obtain ⟨h2, w, hw, hd, hf⟩ := inv.writable hh₀ hr₀ ht
    have hs : sector.toNat ≠ s := by
      rintro rfl
      rw [show h₀.target = some (sector, false) from ht] at gone
      simp at gone
    exact ⟨h2, w, ((unlink.edited inv.sound).file_iff hs (by omega) hd).2 hw, hd, hf⟩

theorem written (inv : Invariant m S) {s : Nat} {v : Node} {d' : Disk} {bytes : List Byte} (hv : S s = some v)
    (hd : v.isDir = false) (h2 : 2 ≤ s) (len : bytes.length = v.bytes.length) (rep : Rep d' (S.put s bytes)) :
    Invariant { m with disk := d' } (S.put s bytes) := by
  refine inv.of_disk (inv.sound.put hv hd (by omega) len) ?_ ?_ fun {t w} _ hw hwd => ?_
  · refine inv.mounted.of_rep rep fun {q w} hq hw => ⟨w, ?_, rfl⟩
    rw [Store.put_other _ (by omega), hw]
  · intro q w hw hwd
    exact inv.distinct ((Store.put_dirs hv hd q w hwd).1 hw) hwd
  · rcases eq_or_ne t s with rfl | hs
    · rw [hv] at hw
      cases hw
      exact ⟨_, Store.put_self hv _, hwd, rfl⟩
    · exact ⟨w, (Store.put_other _ hs _).trans hw, hwd, rfl⟩

theorem of_fs (inv : Invariant m S) (fs : FileSystem) (mounted : Mounted m.disk fs S) : Invariant { m with fs := fs } S :=
  ⟨inv.sound, mounted, inv.distinct, inv.writable⟩

/-- A descriptor set to one that names what it should. -/
theorem setDescriptor (inv : Invariant m S) {id : Nat} {new : Option Descriptor}
    (named : ∀ {h sector}, new = some h → h.removed = false → h.target = some (sector, false) →
      2 ≤ sector.toNat ∧ ∃ v, S sector.toNat = some v ∧ v.isDir = false ∧ h.file.hdr = v.hdr) :
    Invariant (m.setDescriptor id new) S where
  sound := inv.sound
  mounted := inv.mounted
  distinct := inv.distinct
  writable {id' h sector} hh hr ht := by
    unfold Machine.setDescriptor at hh
    dsimp only at hh
    rcases eq_or_ne id' id with rfl | hne
    · rw [Function.update_self] at hh
      exact named hh hr ht
    · rw [Function.update_of_ne hne] at hh
      exact inv.writable hh hr ht

/-- A descriptor that keeps its header and what it names. -/
theorem moved (inv : Invariant m S) {id : Nat} {h : Descriptor} {file : OpenFile} (hh : m.descriptors id = some h)
    (hf : file.hdr = h.file.hdr) : Invariant (m.setDescriptor id (some { h with file := file })) S := by
  apply inv.setDescriptor
  intro h' sector e hr ht
  cases e
  obtain ⟨h2, v, hv, hd, e⟩ := inv.writable hh hr ht
  exact ⟨h2, v, hv, hd, hf.trans e⟩

/-- **`OpenFile::Write`** through a descriptor of a regular file. -/
theorem write (inv : Invariant m S) {id : Nat} {h : Descriptor} (hh : m.descriptors id = some h) (hw : h.Writable)
    {source : Nat → Byte} {numBytes r : Int} {d' : Disk} {file : OpenFile}
    (run : h.file.write m.disk source numBytes = .ok (r, d', file)) :
    ∃ s v bytes, S s = some v ∧ v.isDir = false ∧ 2 ≤ s ∧ bytes.length = v.bytes.length ∧ Rep d' (S.put s bytes) ∧
      file.hdr = h.file.hdr := by
  obtain ⟨hr, sector, ht⟩ := hw
  obtain ⟨h2, v, hv, hd, hf⟩ := inv.writable hh hr ht
  unfold OpenFile.write at run
  obtain ⟨⟨r', d₁⟩, hwr, run⟩ := bind_ok run
  cases run
  have laid := inv.sound.toLaid
  have off := writeAt_off (hf ▸ laid.shaped hv) hwr
  rw [hf] at off
  exact ⟨_, v, _, hv, hd, h2, length_content _ _ _, inv.mounted.rep.put laid hv off rfl, rfl⟩

/-- What a descriptor opened by a path names. -/
theorem named (inv : Invariant m S) (junk : Word) (split : splitPath path = .ok (parent, name)) {f : OpenFile} {sector : Word}
    (found : m.fs.findFile m.disk junk path = .ok (some f)) (target : resolve m.disk (pathNames path) = some (sector, false)) :
    2 ≤ sector.toNat ∧ ∃ v, S sector.toNat = some v ∧ v.isDir = false ∧ f.hdr = v.hdr := by
  have tidy := inv.sound.toTidy
  rw [pathNames_eq split] at target
  obtain ⟨v, file, regular⟩ := inv.mounted.rep.resolve_some tidy target
  rw [inv.mounted.findFile inv.sound junk split file] at found
  cases found
  exact ⟨tidy.two_le file regular, v, (Store.file_some file).2, regular, rfl⟩

/-- A call that creates a file, whatever it answers. -/
theorem created (inv : Invariant m S) (split : splitPath path = .ok (parent, name)) {dir : Bool} {L : Nat}
    {answer : Exec (Bool × Disk)} (creates : Creates S m.disk parent name dir L answer) {r : Bool} {d' : Disk}
    (call : answer = .ok (r, d')) : ∃ S', Invariant { m with disk := d' } S' ∧ Change S c S' := by
  rcases creates with ⟨-, e⟩ | ⟨-, d₁, p, u, i, s, v, b, made, e⟩
  · rw [e] at call
    cases call
    exact ⟨S, inv, .same⟩
  · rw [e] at call
    cases call
    exact ⟨_, inv.linked made, .linked split made⟩

/-- **`Remove`** of a path below the root directory, or of one that names nothing. -/
theorem remove (inv : Invariant m S) {junk : Word} (split : splitPath path = .ok (parent, name))
    (dirs : DirsAlong S 1 (tokens parent)) (top : tokens parent = [] → resolve m.disk (pathNames path) = none) {r : Bool}
    {d' : Disk} (call : m.fs.remove m.disk junk path = .ok (r, d')) :
    ∃ S', Invariant { m with disk := d', descriptors := m.afterRemoval (resolve m.disk (pathNames path)) } S' ∧
      Change S (.remove junk path) S' := by
  have target := inv.mounted.rep.resolve inv.sound.toTidy (pathNames path)
  rw [pathNames_eq split] at target top ⊢
  rcases inv.mounted.removeTarget inv.sound junk dirs name with ⟨hn, -⟩ | ⟨p, u, i, v, f, -⟩
  · rw [inv.mounted.remove_absent inv.sound junk split dirs hn] at call
    cases call
    rw [Store.file, Store.walk, hn, Option.bind_none, Option.map_none] at target
    rw [target, m.afterRemoval_none]
    exact ⟨S, inv, .same⟩
  · rw [Store.file_eq f.walk f.file, Option.map_some] at target
    have below : tokens parent ≠ [] := by
      intro e
      have := top e
      rw [target] at this
      cases this
    obtain ⟨d₁, b, unlink, rep, e⟩ := inv.mounted.remove_found inv.sound junk split dirs below f
    rw [e] at call
    cases call
    rw [target]
    exact ⟨_, inv.unlinked unlink rep, .unlinked split f unlink⟩

/-- **`Open`**: the descriptor holds what the path names. -/
theorem openAs (inv : Invariant m S) {id : Nat} {junk : Word} {file : Option OpenFile}
    (found : m.fs.findFile m.disk junk path = .ok file) :
    Invariant (({ m with fs := { m.fs with fileDescriptor := file } } : Machine).setDescriptor id
      (file.map fun f => ⟨f, resolve m.disk (pathNames path), false⟩)) S := by
  obtain ⟨⟨parent, name⟩, split⟩ := splitPath_of_findFile found
  have inv' := inv.of_fs { m.fs with fileDescriptor := file } ⟨inv.mounted.rep, inv.mounted.mapHdr, inv.mounted.dirHdr⟩
  apply inv'.setDescriptor
  intro h sector hh _ ht
  obtain ⟨f, rfl, rfl⟩ := Option.map_eq_some_iff.1 hh
  exact inv.named junk split found ht

/-- **One allowed call** keeps the invariant and changes the files in one of four ways. -/
theorem step (inv : Invariant m S) (ok : Allowed m c) (run : m.run c = .ok m') :
    ∃ S', Invariant m' S' ∧ Change S c S' := by
  have along : ∀ {path parent name}, splitPath path = .ok (parent, name) → DirParents m.disk path →
      DirsAlong S 1 (tokens parent) := fun split dirs =>
    (inv.mounted.rep.dirsAlong inv.sound.toTidy).2 (parentNames_eq split ▸ dirs)
  cases c with
  | create junk path size =>
    obtain ⟨⟨r, d'⟩, call, run⟩ := bind_ok run
    cases run
    have ⟨⟨parent, name⟩, split, _⟩ := bind_ok call
    exact inv.created split (inv.mounted.create inv.sound junk split (along split ok) size) call
  | createDirectory junk path =>
    obtain ⟨⟨r, d'⟩, call, run⟩ := bind_ok run
    cases run
    have ⟨⟨parent, name⟩, split, _⟩ := bind_ok call
    exact inv.created split (inv.mounted.createDirectory inv.sound junk split (along split ok)) call
  | remove junk path =>
    obtain ⟨⟨r, d'⟩, call, run⟩ := bind_ok run
    cases run
    have ⟨⟨parent, name⟩, split, _⟩ := bind_ok call
    exact inv.remove split (along split ok.1) (fun top => ok.2 ((parentNames_eq split).trans top)) call
  | openAs id junk path =>
    obtain ⟨⟨file, fs'⟩, call, run⟩ := bind_ok run
    cases run
    obtain ⟨file', found, call⟩ := bind_ok call
    cases call
    exact ⟨S, inv.openAs found, .same⟩
  | write id source numBytes =>
    unfold Machine.run at run
    cases hh : m.descriptors id with
    | none =>
      simp only [hh] at run
      cases run
      exact ⟨S, inv, .same⟩
    | some h =>
      simp only [hh] at run
      obtain ⟨⟨r, d', file⟩, call, run⟩ := bind_ok run
      cases run
      obtain ⟨s, v, bytes, hv, hd, h2, len, rep, hf⟩ := inv.write hh (ok h hh) call
      exact ⟨_, (inv.written hv hd h2 len rep).moved hh hf, .written hv hd h2 len⟩
  | read id numBytes =>
    unfold Machine.run at run
    cases hh : m.descriptors id with
    | none =>
      simp only [hh] at run
      cases run
      exact ⟨S, inv, .same⟩
    | some h =>
      simp only [hh] at run
      obtain ⟨⟨r, file⟩, call, run⟩ := bind_ok run
      cases run
      obtain ⟨bytes, -, call⟩ := bind_ok call
      cases call
      exact ⟨S, inv.moved hh rfl, .same⟩
  | seek id position =>
    unfold Machine.run at run
    cases hh : m.descriptors id with
    | none =>
      simp only [hh] at run
      cases run
      exact ⟨S, inv, .same⟩
    | some h =>
      simp only [hh] at run
      cases run
      exact ⟨S, inv.moved hh rfl, .same⟩
  | close id =>
    cases run
    exact ⟨S, inv.setDescriptor (fun h => by cases h), .same⟩

/-- A formatted disk. -/
theorem of_fresh {fs : FileSystem} (fresh : Fresh d fs S) : Invariant ⟨d, fs, fun _ => none⟩ S :=
  ⟨fresh.sound, fresh.mounted, fresh.distinct, fun h => by cases h⟩

/-- **The invariant holds in every run of an allowed client.** -/
theorem of_reach (h : Reach system Allowed m) : ∃ S, Invariant m S := by
  apply h.invariant fun m => ∃ S, Invariant m S
  · intro m init
    obtain ⟨⟨raw, formatted⟩, closed⟩ := init
    obtain ⟨d, fs, S, e, fresh⟩ := format_spec raw
    rw [e] at formatted
    cases formatted
    exact ⟨S, fresh.sound, fresh.mounted, fresh.distinct, fun hh => by rw [closed] at hh; cases hh⟩
  · rintro m c m' ⟨S, inv⟩ ok run
    obtain ⟨S', inv', -⟩ := inv.step ok run
    exact ⟨S', inv'⟩

end Invariant

/-! ## Calls on a formatted disk -/

theorem Fresh.dirParents (fresh : Fresh d fs S) (name : CString) : DirParents d name :=
  (fresh.mounted.rep.dirsAlong fresh.sound.toTidy).1 (fresh.dirsAlong _)

section
variable (fresh : Fresh d fs S) (junk : Word) (a : FileName)
include fresh

theorem Fresh.create (size : Word) (small : 1 + sectorsNeeded (allocLength size) ≤ 500000) :
    ∃ parent d' u i s v b, tokens parent = [] ∧ Created S parent a.bytes false (allocLength size) d' 1 u i s v b ∧
      fs.create d junk (pathString [a]) size = .ok (true, d') := by
  obtain ⟨parent, split, toks⟩ := splitPath_snoc (p := []) (c := a) (fits_of_length (by simp))
  rcases fresh.mounted.create fresh.sound junk split (fresh.dirsAlong _) size with
    ⟨no, -⟩ | ⟨-, d', p, u, i, s, v, b, made, call⟩
  · exact absurd (fresh.canCreate toks a.bytes small) no
  · have hp := made.resolves
    rw [toks] at hp
    cases hp
    exact ⟨parent, d', u, i, s, v, b, toks, made, call⟩

theorem Fresh.createDirectory :
    ∃ parent d' u i s v b, tokens parent = [] ∧ Created S parent a.bytes true directoryFileSize d' 1 u i s v b ∧
      fs.createDirectory d junk (pathString [a]) = .ok (true, d') := by
  obtain ⟨parent, split, toks⟩ := splitPath_snoc (p := []) (c := a) (fits_of_length (by simp))
  rcases fresh.mounted.createDirectory fresh.sound junk split (fresh.dirsAlong _) with
    ⟨no, -⟩ | ⟨-, d', p, u, i, s, v, b, made, call⟩
  · exact absurd (fresh.canCreate toks a.bytes (by rw [sectorsNeeded_eq]; decide)) no
  · have hp := made.resolves
    rw [toks] at hp
    cases hp
    exact ⟨parent, d', u, i, s, v, b, toks, made, call⟩

end

/-- The path of a file in a directory that was just made in the root directory. -/
theorem Created.below {L p i : Nat} {u : Node} {d' : Disk} {b : FreeMap} (sound : Sound S) {a c : FileName}
    (made : Created S parent a.bytes true L d' p u i s v b) (top : tokens parent = []) : ∃ parent',
      splitPath (pathString [a, c]) = .ok (parent', c.bytes) ∧ tokens parent' = [a.bytes] ∧
      DirsAlong (S.link p u i a.bytes s v b) 1 (tokens parent') ∧ ∀ next L', 1 + sectorsNeeded L' ≤ b.numClear →
        CanCreate (S.link p u i a.bytes s v b) parent' next L' := by
  obtain ⟨parent', split, toks⟩ := splitPath_snoc (p := [a]) (c := c) (fits_of_length (by simp))
  have hp := made.resolves
  rw [top] at hp
  have here := ((made.link.grown sound).paths sound.rooted (made.link.ne_one sound) hp).2.1
  refine ⟨parent', split, toks, ?_, fun next L' room => ?_⟩
  · intro q e w hq he hw
    rw [toks] at hq
    rcases List.prefix_cons_iff.1 hq with rfl | ⟨r, rfl, hr⟩
    · cases he
      obtain ⟨w', hw', hd⟩ := (made.link.sound_link sound).root
      rw [hw] at hw'
      cases hw'
      exact hd
    · rw [List.prefix_nil.1 hr] at he
      have e' : some e = some s := he.symm.trans here
      cases e'
      rw [made.link.at_new sound] at hw
      cases hw
      exact made.kind
  · apply made.link.canCreate sound (P := []) hp made.kind _ next room
    rw [toks]
    rfl

/-- The stores that come of one by linking files whose names have no slash. -/
inductive Linked (S : Store) : Store → Prop where
  | same : Linked S S
  | link {S' : Store} {p i s : Nat} {u v : Node} {name : List Byte} {b : FreeMap} : Linked S S' → Sound S' → slash ∉ name →
      Linking S' p u i name s v b → Linked S (S'.link p u i name s v b)

/-- What is known after a directory and a file in it were made. -/
structure Nested (S : Store) (a c : FileName) (size : Word) (parent : List Byte) (s : Nat) (v : Node) : Prop where
  split : splitPath (pathString [a, c]) = .ok (parent, c.bytes)
  tokens : tokens parent = [a.bytes]
  walk : S.walk [a.bytes, c.bytes] = some s
  file : S s = some v
  regular : v.isDir = false
  length : v.bytes.length = allocLength size
  dirs : ∀ {q w}, S q = some w → w.isDir = true → q = 1 ∨ S.walk [a.bytes] = some q

theorem Nested.named {a c : FileName} {size : Word} (nested : Nested S a c size parent s v) :
    S.file (Mp4.tokens parent ++ [c.bytes]) = some (s, v) := by
  rw [nested.tokens]
  exact Store.file_eq nested.walk nested.file

/-- **A directory and a file in it** can be made on a formatted disk. -/
theorem Fresh.nested (fresh : Fresh d fs S) (a c : FileName) (size : Word)
    (small : 12 + sectorsNeeded (allocLength size) ≤ 500000) : ∃ d₁ d₂ S₂ parent s v,
      fs.createDirectory d 0 (pathString [a]) = .ok (true, d₁) ∧ fs.create d₁ 0 (pathString [a, c]) size = .ok (true, d₂) ∧
      Allowed ⟨d₁, fs, fun _ => none⟩ (.create 0 (pathString [a, c]) size) ∧ Invariant ⟨d₂, fs, fun _ => none⟩ S₂ ∧
      Linked S S₂ ∧ Nested S₂ a c size parent s v := by
  obtain ⟨parent, d₁, u, i, s, v, b, top, made, call₁⟩ := fresh.createDirectory 0 a
  have inv₁ := (Invariant.of_fresh fresh).linked made
  obtain ⟨parent', split, toks, dirs, can⟩ := made.below fresh.sound (c := c) top
  have room := made.room
  have large := fresh.room
  rw [show sectorsNeeded directoryFileSize = 10 from rfl] at room
  rcases inv₁.mounted.create inv₁.sound 0 split dirs size with ⟨no, -⟩ | ⟨-, d₂, p, u₂, i₂, s₂, v₂, b₂, made₂, call₂⟩
  · exact absurd (can _ _ (by omega)) no
  have grown := made₂.link.grown inv₁.sound
  have here := (grown.paths inv₁.sound.rooted (made₂.link.ne_one inv₁.sound) made₂.resolves).2.1
  rw [toks] at here
  have above : (S.link 1 u i a.bytes s v b).walk [a.bytes] = some s := by
    have at_root := made.resolves
    rw [top] at at_root
    cases at_root
    exact ((made.link.grown fresh.sound).paths fresh.sound.rooted (made.link.ne_one fresh.sound) (P := []) rfl).2.1
  refine ⟨d₁, d₂, _, parent', s₂, v₂, call₁, call₂, ?_, inv₁.linked made₂,
    (Linked.same.link fresh.sound a.noSlash made.link).link inv₁.sound c.noSlash made₂.link, split, toks, here,
    made₂.link.at_new inv₁.sound, made₂.kind, made₂.length, fun {q w} hw isDir => ?_⟩
  · apply (inv₁.mounted.rep.dirsAlong inv₁.sound.toTidy).1
    rw [parentNames_eq split]
    exact dirs
  · -- the root and the new directory
    obtain ⟨-, rfl⟩ | ⟨-, w₁, h₁, -, kind, -⟩ := made₂.link.files inv₁.sound hw
    · rw [made₂.kind] at isDir
      cases isDir
    obtain ⟨rfl, -⟩ | ⟨-, w₀, h₀, -, kind', -⟩ := made.link.files fresh.sound h₁
    · exact .inr (grown.keeps (made₂.link.ne_one inv₁.sound) above)
    · obtain rfl | rfl := fresh.only h₀
      · exact absurd rfl (fresh.sound.toTidy.dir_ne_zero h₀ (kind'.trans (kind.trans isDir)))
      · exact .inl rfl

end Nachos.Mp4
