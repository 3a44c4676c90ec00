import Nachos.Mp4.Paths

/-!
# Opening a path

`Open` tests what `Find` returns in the root directory, and `OpenDir` what it returns on the
way; below a subdirectory `Open` opens the sector that `Find` returns whatever it is. A name
that is missing there fails the `ASSERT` of the disk.
-/

namespace Nachos.Mp4
open Bytes Transition

/-- `FileSystem::OpenAFile`. -/
def FileSystem.openAFile (d : Disk) (fs : FileSystem) (junk : Word) (filename : CString) : Exec (Int × FileSystem) := do
  let (openfile, fs) ← fs.open d junk filename
  match openfile with
  | none => pure (0, fs)
  | some _ => pure (1, fs)

variable {d : Disk} {fs : FileSystem} {S : Store} {m : Machine} {path : CString} {parent name : List Byte} {junk : Word}
  {file : Option OpenFile}

/-- `Open` and `OpenAFile` return, and say by `NULL` and 0 that the path does not resolve. -/
def OpensCleanly (m : Machine) (path : CString) : Prop :=
  ∀ junk, ∃ file r, m.fs.open m.disk junk path = .ok (file, { m.fs with fileDescriptor := file }) ∧
    m.fs.openAFile m.disk junk path = .ok (r, { m.fs with fileDescriptor := file }) ∧
    (file = none ↔ resolve m.disk (tokens path.bytes) = none) ∧ (r = 0 ↔ resolve m.disk (tokens path.bytes) = none)

theorem open_of_findFile (found : fs.findFile d junk path = .ok file) :
    fs.open d junk path = .ok (file, { fs with fileDescriptor := file }) := by
  rw [FileSystem.open, found]
  rfl

theorem openAFile_of_findFile (found : fs.findFile d junk path = .ok file) :
    fs.openAFile d junk path = .ok (if file = none then 0 else 1, { fs with fileDescriptor := file }) := by
  rw [FileSystem.openAFile, open_of_findFile found, ok_bind]
  cases file with
  | none => rfl
  | some f => rfl

theorem openAFile_of_fault {fault : Fault} (fails : fs.findFile d junk path = .error fault) :
    fs.openAFile d junk path = .error fault := by
  rw [FileSystem.openAFile, FileSystem.open, fails]
  rfl

/-- Opening the sector -1 fails the `ASSERT` of `ReadRequest`. -/
theorem openFile_missing (d : Disk) : openFile d (-1) = .error .assertion := by
  rw [openFile, FileHeader.fetchFrom, FileHeader.fetchDepth]
  rfl

section
variable (mounted : Mounted d fs S) (sound : Sound S) (split : splitPath path = .ok (parent, name)) (junk : Word)
include mounted sound split

/-- `Open` where the parent does not resolve. -/
theorem Mounted.findFile_parent (dirs : DirsAlong S 1 (tokens parent)) (missing : S.walk (tokens parent) = none) :
    fs.findFile d junk path = .ok none := by
  have tidy := sound.toTidy
  obtain ⟨r, hr, hrd, hf⟩ := mounted.root tidy
  have below : tokens parent ≠ [] := by
    intro top
    rw [top] at missing
    cases missing
  rcases mounted.openDir tidy below dirs junk with ⟨-, none'⟩ | ⟨q, u, found, -⟩
  · rw [FileSystem.findFile, Rep.fetchTable tidy mounted.rep hr hrd hf, ok_bind]
    simp only [split, ok_bind]
    rw [if_neg below, none']
    rfl
  · rw [Store.walk, found] at missing
    cases missing

/-- `Open` of a name that the root directory does not have. -/
theorem Mounted.findFile_root (top : tokens parent = []) (missing : S.walk [name] = none) :
    fs.findFile d junk path = .ok none := by
  have tidy := sound.toTidy
  obtain ⟨r, hr, hrd, hf⟩ := mounted.root tidy
  rw [FileSystem.findFile, Rep.fetchTable tidy mounted.rep hr hrd hf, ok_bind]
  simp only [split, ok_bind]
  rw [if_pos top]
  rcases tidy.find hr hrd name with ⟨-, absent, -⟩ | ⟨i, e, w, -, -, -, -, -, found, -⟩
  · rw [absent]
    rfl
  · rw [Store.walk, List.map_singleton, Tree.follow, found] at missing
    cases missing

/-- **`Open` of a name that a subdirectory does not have** does not return. -/
theorem Mounted.findFile_missing (dirs : DirsAlong S 1 (tokens parent)) (below : tokens parent ≠ []) {p : Nat}
    (found : S.walk (tokens parent) = some p) (missing : S.walk (tokens parent ++ [name]) = none) :
    fs.findFile d junk path = .error .assertion := by
  have tidy := sound.toTidy
  obtain ⟨r, hr, hrd, hf⟩ := mounted.root tidy
  rw [Store.walk] at found
  rw [Store.walk, List.map_append, List.map_singleton, Tree.follow_snoc, found, Option.bind_some] at missing
  rw [FileSystem.findFile, Rep.fetchTable tidy mounted.rep hr hrd hf, ok_bind]
  simp only [split, ok_bind]
  rw [if_neg below]
  rcases mounted.openDir tidy below dirs junk with ⟨none', -⟩ | ⟨q, u, here, hu, hud, opened⟩
  · rw [found] at none'
    cases none'
  · rw [found] at here
    cases here
    have table := Rep.fetchTable tidy mounted.rep hu hud (f := ⟨u.hdr, 0⟩) rfl r.table
    rcases tidy.find hu hud name with ⟨-, absent, -⟩ | ⟨i, e, w, -, -, -, -, -, named, -⟩
    · simp only [opened, ok_bind, table, absent, openFile_missing]
      rfl
    · rw [missing] at named
      cases named

end

/-- The paths of the disk that lead nowhere. -/
theorem Rep.resolve_eq_none (rep : Rep d S) (tidy : Tidy S) {ns : List (List Byte)} :
    Mp4.resolve d ns = none ↔ S.walk ns = none := by
  rw [rep.resolve tidy, Option.map_eq_none_iff]
  constructor
  · intro none'
    cases walked : S.walk ns with
    | none => rfl
    | some c =>
      obtain ⟨v, file⟩ := Store.file_walk tidy walked
      rw [none'] at file
      cases file
  · intro none'
    rw [Store.file, none']
    rfl

theorem Store.walk_append_none {ns : List (List Byte)} (missing : S.walk ns = none) (more : List (List Byte)) :
    S.walk (ns ++ more) = none := by
  rw [Store.walk] at missing ⊢
  rw [List.map_append, Tree.follow_append, missing]
  rfl

/-- What `Open` returns settles whether the path is opened cleanly. -/
theorem OpensCleanly.of_findFile (found : ∀ junk, m.fs.findFile m.disk junk path = .ok file)
    (same : file = none ↔ resolve m.disk (tokens path.bytes) = none) : OpensCleanly m path := by
  intro junk
  refine ⟨file, _, open_of_findFile (found junk), openAFile_of_findFile (found junk), same, ?_⟩
  rw [← same]
  split
  · exact iff_of_true rfl ‹_›
  · exact iff_of_false one_ne_zero ‹_›

theorem OpensCleanly.findFile (cleanly : OpensCleanly m path) (junk : Word) :
    ∃ file, m.fs.findFile m.disk junk path = .ok file ∧ (file = none ↔ resolve m.disk (tokens path.bytes) = none) := by
  obtain ⟨file, r, opened, -, same, -⟩ := cleanly junk
  obtain ⟨file', found, e⟩ := bind_ok opened
  cases e
  exact ⟨file, found, same⟩

/-- **An absolute path is opened cleanly exactly when** it fits the buffer and resolves, or its
parent does not resolve, or its parent is the root directory. -/
theorem opensCleanly_iff (reach : Reach system Allowed m) (absolute : path.Absolute) (dirs : DirParents m.disk path) :
    OpensCleanly m path ↔ path.bytes.length < 300 ∧ (resolve m.disk (pathNames path) ≠ none ∨
      resolve m.disk (parentNames path) = none ∨ parentNames path = [] ∧ tokens path.bytes ≠ []) := by
  obtain ⟨S, inv⟩ := Invariant.of_reach reach
  have rep := inv.mounted.rep
  have tidy := inv.sound.toTidy
  have along {parent name : List Byte} (split : splitPath path = .ok (parent, name)) : DirsAlong S 1 (tokens parent) :=
    (rep.dirsAlong tidy).2 (parentNames_eq split ▸ dirs)
  constructor
  · intro cleanly
    obtain ⟨file, found, same⟩ := cleanly.findFile 0
    obtain ⟨⟨parent, name⟩, split⟩ := splitPath_of_findFile found
    refine ⟨fits_of_ok split, ?_⟩
    rw [pathNames_eq split, parentNames_eq split]
    by_contra outside
    push Not at outside
    obtain ⟨missing, parentFound, slash⟩ := outside
    rw [rep.resolve_eq_none tidy] at missing
    rw [Ne, rep.resolve_eq_none tidy] at parentFound
    obtain ⟨p, here⟩ := Option.ne_none_iff_exists'.1 parentFound
    by_cases top : tokens parent = []
    · rw [top, List.nil_append] at missing
      rw [inv.mounted.findFile_root inv.sound split 0 top missing] at found
      cases found
      have none' := same.1 rfl
      rw [slash top] at none'
      cases none'
    · rw [inv.mounted.findFile_missing inv.sound split 0 (along split) top here missing] at found
      cases found
  · rintro ⟨fits, cases⟩
    obtain ⟨parent, name, split⟩ := absolute.splitPath fits
    rw [pathNames_eq split, parentNames_eq split] at cases
    have parts := tokens_split split
    by_cases missing : S.walk (tokens parent ++ [name]) = none
    · rcases cases with found | none' | ⟨top, named⟩
      · exact absurd ((rep.resolve_eq_none tidy).2 missing) found
      · rw [rep.resolve_eq_none tidy] at none'
        refine .of_findFile (fun junk => inv.mounted.findFile_parent inv.sound split junk (along split) none') (iff_of_true rfl ?_)
        rw [rep.resolve_eq_none tidy, parts]
        exact Store.walk_append_none none' _
      · have word : name ≠ [] := by
          rintro rfl
          exact named (by rw [parts, top]; rfl)
        rw [top, List.nil_append] at missing
        refine .of_findFile (fun junk => inv.mounted.findFile_root inv.sound split junk top missing) (iff_of_true rfl ?_)
        rw [rep.resolve_eq_none tidy, parts, top, if_neg word]
        exact missing
    · obtain ⟨s, walked⟩ := Option.ne_none_iff_exists'.1 missing
      obtain ⟨v, named⟩ := Store.file_walk tidy walked
      refine .of_findFile (fun junk => inv.mounted.findFile inv.sound junk split named) (iff_of_false (Option.some_ne_none _) ?_)
      rw [rep.resolve_eq_none tidy, parts]
      intro none'
      split at none'
      · rw [List.append_nil] at none'
        exact missing (Store.walk_append_none none' _)
      · exact missing none'

/-- A directory just made in the root directory is there and has no entry. -/
theorem Created.empty {L p i s : Nat} {u v : Node} {d' : Disk} {b : FreeMap} (sound : Sound S) {a : List Byte}
    (made : Created S parent a true L d' p u i s v b) (top : tokens parent = []) (c : List Byte) :
    (S.link p u i a s v b).walk [a] = some s ∧ (S.link p u i a s v b).walk [a, c] = none := by
  have grown := made.link.grown sound
  have hp := made.resolves
  rw [top] at hp
  have here : Tree.follow (S.link p u i a s v b).child 1 [toKey a] = some s :=
    (grown.paths sound.rooted (made.link.ne_one sound) hp).2.1
  refine ⟨here, ?_⟩
  have down := Tree.follow_snoc (S.link p u i a s v b).child 1 [toKey a] (toKey c)
  rw [here, Option.bind_some, grown.leaf] at down
  exact down

theorem opensCleanly_iff_fresh : ∃ m, system.init m ∧ OpensCleanly m (pathString [.single 120 (by decide)]) := by
  obtain ⟨d, fs, S, formatted, fresh⟩ := format_spec fun _ => .tabulate fun _ => 0
  have init : system.init ⟨d, fs, fun _ => none⟩ := ⟨⟨_, formatted⟩, fun _ => rfl⟩
  have absolute : (pathString [.single 120 (by decide)]).Absolute := rfl
  refine ⟨_, init, (opensCleanly_iff (.init init) absolute (fresh.dirParents _)).2 ⟨fits_of_length (by simp), .inr (.inr ⟨rfl, ?_⟩)⟩⟩
  decide

/-- The name of a file that a subdirectory does not have: `OpenAFile` does not return. -/
theorem open_missing_nested : ∃ m₀ m₁, system.init m₀ ∧
    m₀.run (.createDirectory 0 (pathString [.single 100 (by decide)])) = .ok m₁ ∧
    resolve m₁.disk (tokens (pathString [.single 100 (by decide), .single 120 (by decide)]).bytes) = none ∧
    m₁.fs.openAFile m₁.disk 0 (pathString [.single 100 (by decide), .single 120 (by decide)]) = .error .assertion ∧
    ¬ OpensCleanly m₁ (pathString [.single 100 (by decide), .single 120 (by decide)]) := by
  obtain ⟨d, fs, S, formatted, fresh⟩ := format_spec fun _ => .tabulate fun _ => 0
  have init : system.init ⟨d, fs, fun _ => none⟩ := ⟨⟨_, formatted⟩, fun _ => rfl⟩
  obtain ⟨parent, d₁, u, i, s, v, b, top, made, call⟩ := fresh.createDirectory 0 (.single 100 (by decide))
  have inv := (Invariant.of_fresh fresh).linked made
  have tidy := inv.sound.toTidy
  obtain ⟨parent', split, toks, dirs, -⟩ := made.below fresh.sound (c := .single 120 (by decide)) top
  obtain ⟨here, missing⟩ := made.empty fresh.sound top [120]
  have parts := tokens_split split
  rw [toks] at parts
  have absent : resolve d₁ (tokens (pathString [.single 100 (by decide), .single 120 (by decide)]).bytes) = none := by
    rw [parts]
    exact (inv.mounted.rep.resolve_eq_none tidy).2 missing
  have fails := inv.mounted.findFile_missing inv.sound split 0 dirs (by rw [toks]; exact List.cons_ne_nil _ _)
    (by rw [toks]; exact here) (by rw [toks]; exact missing)
  refine ⟨_, _, init, Machine.run_createDirectory (m := ⟨d, fs, fun _ => none⟩) call, absent, openAFile_of_fault fails, fun cleanly => ?_⟩
  obtain ⟨file, found, -⟩ := cleanly.findFile 0
  rw [fails] at found
  cases found

end Nachos.Mp4
