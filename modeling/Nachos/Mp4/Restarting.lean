import Nachos.Mp4.Answers

/-!
# Stopping and starting again

When Nachos ends, what it had in memory is gone: the headers of the free map and of the root directory and
the open files. `FileSystem(FALSE)` fetches the two headers from the disk; that is all a file system
needs, so that the files outlive any number of sessions.
-/

namespace Nachos.Mp4
open Bytes Transition

variable {d : Disk} {fs : FileSystem} {S : Store} {m m' : Machine} {e : Option Call} {a : FileTree.Answer Byte}

/-- Nachos ends and is started again without `-f`. -/
def Machine.restart (m : Machine) : Exec Machine := do
  let fs ← FileSystem.mount m.disk
  pure ⟨m.disk, fs, fun _ => none⟩

/-- A call of a session, or `none` for its end. -/
def Machine.event (m : Machine) : Option Call → Exec (FileTree.Answer Byte × Machine)
  | some c => m.call c
  | none => do
    let m ← m.restart
    pure (.done true, m)

def Machine.Events (m : Machine) (e : Option Call) (a : FileTree.Answer Byte) (m' : Machine) : Prop := m.event e = .ok (a, m')

/-- The calls of a session are proper ones; it may end at any time. -/
def ProperEvent (m : Machine) (e : Option Call) : Prop := ∀ c, e = some c → Proper m c

/-- The headers on the disk are those in memory. -/
theorem Mounted.mount (mounted : Mounted d fs S) (sound : Sound S) : ∃ fs', FileSystem.mount d = .ok fs' ∧ Mounted d fs' S := by
  have laid := sound.toLaid
  obtain ⟨u, hu, -⟩ := mounted.mapHdr
  obtain ⟨v, hv, -⟩ := mounted.dirHdr
  have freeMapFile := mounted.rep.openFile laid (s := freeMapSector) hu
  have directoryFile := mounted.rep.openFile laid (s := directorySector) hv
  refine ⟨⟨⟨u.hdr, 0⟩, ⟨v.hdr, 0⟩, none⟩, ?_, mounted.rep, ⟨u, hu, rfl⟩, v, hv, rfl⟩
  rw [FileSystem.mount, freeMapFile, ok_bind, directoryFile, ok_bind]
  rfl

/-- **A restart** closes the descriptors and changes no file. -/
theorem Tracked.restart (tr : Tracked m S) : ∃ m', m.restart = .ok m' ∧ Tracked m' S ∧
    m'.tree S = { m.tree S with opened := fun _ => none } := by
  obtain ⟨fs, mount, mounted⟩ := tr.mounted.mount tr.sound
  refine ⟨⟨m.disk, fs, fun _ => none⟩, ?_, ⟨⟨tr.sound, mounted, tr.distinct, fun h => by cases h⟩, fun h => by cases h⟩, rfl⟩
  rw [Machine.restart, mount]
  rfl

/-- Every proper event returns with what the tree answers. -/
theorem Tracked.event (tr : Tracked m S) (ok : ProperEvent m e) : ∃ a m' S', m.event e = .ok (a, m') ∧ Tracked m' S' ∧
    FileTree.SessionStep limits 1 (m.tree S) (e.map Call.onTree) a (m'.tree S') := by
  cases e with
  | some c =>
    obtain ⟨a, m', S', call, tr', step⟩ := tr.answers (ok c rfl)
    exact ⟨a, m', S', call, tr', .call step⟩
  | none =>
    obtain ⟨m', restart, tr', tree⟩ := tr.restart
    refine ⟨.done true, m', S, ?_, tr', ?_⟩
    · rw [Machine.event, restart]
      rfl
    · rw [tree]
      exact .ended

/-- **The files outlive the sessions.** However often Nachos is stopped and started again between proper
calls, it can be started, the calls answer as those of one tree do whose descriptors alone are lost, and
every path shows what it leads to in that tree. -/
theorem fileSystem_persists {m₀ : Machine} (init : system.init m₀) : ∃ free, 500000 ≤ free ∧
    ∀ log m, Trace Machine.Events ProperEvent m₀ log m →
      ∃ T, Trace (FileTree.SessionStep limits 1) (fun _ _ => True) (FileTree.empty 1 free)
        (log.map (Prod.map (Option.map Call.onTree) id)) T ∧ m.Shows T ∧
        (∃ m', m.restart = .ok m' ∧ m'.Shows T) ∧ ∀ c, Proper m c → ∃ a m', m.call c = .ok (a, m') := by
  obtain ⟨⟨raw, formatted⟩, closed⟩ := init
  obtain ⟨d, fs, S, e, fresh⟩ := format_spec raw
  obtain ⟨disk, mounted, descriptors⟩ := m₀
  rw [e] at formatted
  cases formatted
  obtain rfl : descriptors = fun _ => none := funext closed
  refine ⟨_, fresh.room, fun log m run => ?_⟩
  obtain ⟨T, run', S', tr, rfl⟩ := run.refine (fun _ _ => True) (fun m T => ∃ S, Tracked m S ∧ m.tree S = T)
    (Option.map Call.onTree) ⟨S, .of_fresh fresh, fresh.tree⟩
    fun m c a m' T => by
      rintro ⟨S, tr, rfl⟩ ok event
      obtain ⟨a', m'', S', event', tr', step⟩ := tr.event ok
      cases Except.ok.inj (event.symm.trans event')
      exact ⟨trivial, _, step, S', tr', rfl⟩
  obtain ⟨m', restart, tr', tree⟩ := tr.restart
  have shows' : m'.Shows (m.tree S') := by
    have shown := tr'.shows
    rw [tree] at shown
    exact shown
  refine ⟨_, run', tr.shows, ⟨m', restart, shows'⟩, fun c ok => ?_⟩
  obtain ⟨a, m'', -, call, -⟩ := tr.answers ok
  exact ⟨a, m'', call⟩

/-- A file that was made in the first session is there in the second. -/
theorem fileSystem_persists_letter : ∃ m₀ m₁ free T, system.init m₀ ∧
    Trace Machine.Events ProperEvent m₀
      [(some (.create 0 (pathString [.single 102 (by decide)]) 5), .done true), (none, .done true)] m₁ ∧
    Trace (FileTree.SessionStep limits 1) (fun _ _ => True) (FileTree.empty 1 free)
      [(some (Call.onTree (.create 0 (pathString [.single 102 (by decide)]) 5)), .done true), (none, .done true)] T ∧
    m₁.Shows T := by
  obtain ⟨d, fs, S, formatted, fresh⟩ := format_spec fun _ => .tabulate fun _ => 0
  have init : system.init ⟨d, fs, fun _ => none⟩ := ⟨⟨_, formatted⟩, fun _ => rfl⟩
  obtain ⟨d₁, S₁, s, v, made, inv₁, -⟩ := fresh.made (.single 102 (by decide)) 5 (by rw [sectorsNeeded_eq]; decide)
  obtain ⟨parent, split, -⟩ := splitPath_snoc (p := []) (c := .single 102 (by decide)) (fits_of_length (by simp))
  have call : Machine.Events ⟨d, fs, fun _ => none⟩ (some (.create 0 (pathString [.single 102 (by decide)]) 5)) (.done true)
      ⟨d₁, fs, fun _ => none⟩ := by
    rw [Machine.Events, Machine.event, Machine.call, made]
    rfl
  obtain ⟨fs', mount, -⟩ := inv₁.mounted.mount inv₁.sound
  have restart : Machine.Events ⟨d₁, fs, fun _ => none⟩ none (.done true) ⟨d₁, fs', fun _ => none⟩ := by
    rw [Machine.Events, Machine.event, Machine.restart, mount]
    rfl
  have proper : ProperEvent ⟨d, fs, fun _ => none⟩ (some (.create 0 (pathString [.single 102 (by decide)]) 5)) := by
    intro c e
    cases e
    exact ⟨⟨_, split⟩, fresh.dirParents _⟩
  have ended : ProperEvent ⟨d₁, fs, fun _ => none⟩ none := by
    intro c e
    cases e
  have run := (Trace.nil.snoc proper call).snoc ended restart
  obtain ⟨free, -, persists⟩ := fileSystem_persists init
  obtain ⟨T, run', shows', -⟩ := persists _ _ run
  exact ⟨_, _, free, T, init, run, run', shows'⟩

end Nachos.Mp4
