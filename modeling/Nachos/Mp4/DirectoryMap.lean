import Nachos.Base.Transition
import Nachos.Mp4.ByteFile
import Nachos.Mp4.Entries

/-!
# A directory is a finite map

Runs of `Add`, `Remove`, `Find`, `WriteBack` and `FetchFrom` on one table and one file that
is long enough for it. The log has the successful calls of `Add` and `Remove` in effect, the
last one first; `FetchFrom` goes back to the log of the last `WriteBack`. In every run the
table shows what the log says.
-/

namespace Nachos.Mp4
open Bytes Transition

namespace Directory

/-- A call that changed the table. -/
inductive Effect where
  | added (name : List Byte) (sector : Word) (dir : Bool)
  | removed (name : List Byte)

/-- The last `Add` of a name with the prefix of `name`, unless it was removed since. -/
def latest : List Effect → List Byte → Option (Word × Bool)
  | [], _ => none
  | .added other sector dir :: log, name => if key name = key other then some (sector, dir) else latest log name
  | .removed other :: log, name => if key name = key other then none else latest log name

/-- The calls on a directory. -/
inductive Op where
  | add (name : List Byte) (sector : Word) (dir : Bool)
  | remove (name : List Byte)
  | find (name : List Byte)
  | writeBack
  | fetchFrom

/-- A table, the disk, the log and the log of the last `WriteBack`. -/
structure History (n : Nat) where
  table : Directory n
  disk : Disk
  log : List Effect
  saved : Option (List Effect)

variable {n L : Nat} {file : OpenFile} {t t' : Directory n} {log : List Effect} {s s' : History n} {name : List Byte}
  {sector : Word} {dir : Bool} {e : DirectoryEntry} {op : Op}

/-- One call. -/
def History.run (file : OpenFile) (s : History n) : Op → Exec (History n)
  | .add name sector dir =>
    match s.table.add name sector dir with
    | some t => pure { s with table := t, log := .added name sector dir :: s.log }
    | none => pure s
  | .remove name =>
    match s.table.remove name with
    | some t => pure { s with table := t, log := .removed name :: s.log }
    | none => pure s
  | .find _ => pure s
  | .writeBack => do
    let d ← s.table.writeBack s.disk file
    pure { s with disk := d, saved := some s.log }
  | .fetchFrom => do
    let t ← s.table.fetchFrom s.disk file
    pure { s with table := t, log := s.saved.getD [] }

/-- The runs from the empty directory, on any disk. -/
def histories (n : Nat) (file : OpenFile) : System (History n) Op where
  init s := s.table = new n ∧ s.log = [] ∧ s.saved = none
  step s op s' := s.run file op = .ok s'

/-- A table is fetched only once it was written back. -/
def WrittenFirst (s : History n) (op : Op) : Prop := op = .fetchFrom → s.saved ≠ none

/-- The table shows what the log says, and nothing is left of what was there before. -/
structure Reads (t : Directory n) (log : List Effect) : Prop where
  clean : t.Clean
  distinct : t.Distinct
  lookup : ∀ name, (t.lookup name).map (fun e => (e.sector, e.dir != 0)) = latest log name

theorem reads_new (n : Nat) : Reads (new n) [] :=
  ⟨clean_new n, distinct_new, fun name => by rw [lookup_new]; rfl⟩

theorem Reads.add (reads : Reads t log) (call : t.add name sector dir = some t') : Reads t' (.added name sector dir :: log) := by
  obtain ⟨i, hi, fresh, free, rfl⟩ := add_some call
  refine ⟨reads.clean.add call, reads.distinct.added hi fresh sector dir, fun k => ?_⟩
  rw [lookup_added hi free fresh, latest]
  split
  · cases dir <;> rfl
  · exact reads.lookup k

theorem Reads.remove (reads : Reads t log) (call : t.remove name = some t') : Reads t' (.removed name :: log) := by
  have clean := reads.clean.remove call
  obtain ⟨i, hi, found, rfl⟩ := remove_some call
  refine ⟨clean, reads.distinct.removed hi, fun k => ?_⟩
  rw [lookup_removed reads.distinct found, latest]
  split
  · rfl
  · exact reads.lookup k

/-! ## The table in the file -/

/-- The first bytes of the file are the table. -/
def Holds (d : Disk) (file : OpenFile) (L : Nat) (t : Directory n) : Prop := (content d file.hdr L).take (20 * n) = t.toBytes

section
variable (built : file.hdr.Built L) (long : 20 * n ≤ L)
include built long

/-- `WriteBack` to a file that is long enough. -/
theorem writeBack_holds (d : Disk) (t : Directory n) : ∃ d', t.writeBack d file = .ok d' ∧ Holds d' file L t := by
  have := built.length_le
  obtain ⟨d', written, -, bytes⟩ := writeAt_content (d := d) (fun i => t.toBytes.getD i 0) (n := 20 * n) (p := 0) built (by omega)
  refine ⟨d', ?_, ?_⟩
  · rw [writeBack, ← Nat.cast_zero (R := Int), written]
    rfl
  · have all : tabulate (min (20 * n) (L - 0)) (fun i => t.toBytes.getD i 0) = t.toBytes := by
      rw [Nat.min_eq_left (by omega), ← length_toBytes t, tabulate_getD]
    rw [Holds, bytes, all, Cursor.splice, List.take_zero, List.nil_append, List.take_left' (length_toBytes t)]

/-- `FetchFrom` a file that holds a table. -/
theorem fetchFrom_holds {d : Disk} (holds : Holds d file L t') (t : Directory n) : t.fetchFrom d file = .ok t' := by
  have := built.length_le
  rw [fetchFrom, ← Nat.cast_zero (R := Int), readAt_content built (by omega), List.drop_zero, holds, ok_bind,
    overwrite_all (by simp), ofBytes_toBytes]
  rfl

end

/-! ## Runs -/

/-- The invariant: the table shows its log, and the file a table that shows the saved one. -/
structure Kept (file : OpenFile) (L : Nat) (s : History n) : Prop where
  reads : Reads s.table s.log
  stored : ∀ log, s.saved = some log → ∃ t : Directory n, Reads t log ∧ Holds s.disk file L t

section
variable (built : file.hdr.Built L) (long : 20 * n ≤ L)
include built long

/-- **One call** returns and keeps the invariant. -/
theorem Kept.step (kept : Kept file L s) (ok : WrittenFirst s op) : ∃ s', s.run file op = .ok s' ∧ Kept file L s' := by
  cases op with
  | add name sector dir =>
    rw [History.run]
    cases call : s.table.add name sector dir with
    | none => exact ⟨s, rfl, kept⟩
    | some t => exact ⟨_, rfl, kept.reads.add call, kept.stored⟩
  | remove name =>
    rw [History.run]
    cases call : s.table.remove name with
    | none => exact ⟨s, rfl, kept⟩
    | some t => exact ⟨_, rfl, kept.reads.remove call, kept.stored⟩
  | find name => exact ⟨s, rfl, kept⟩
  | writeBack =>
    obtain ⟨d, written, holds⟩ := writeBack_holds built long s.disk s.table
    refine ⟨{ s with disk := d, saved := some s.log }, ?_, kept.reads, fun log saved => ?_⟩
    · rw [History.run, written]
      rfl
    · cases saved
      exact ⟨s.table, kept.reads, holds⟩
  | fetchFrom =>
    obtain ⟨log, saved⟩ := Option.ne_none_iff_exists'.1 (ok rfl)
    obtain ⟨t, reads, holds⟩ := kept.stored log saved
    refine ⟨{ s with table := t, log := log }, ?_, reads, kept.stored⟩
    rw [History.run, fetchFrom_holds built long holds, saved]
    rfl

theorem Kept.of_reach (reach : Reach (histories n file) WrittenFirst s) : Kept file L s := by
  apply reach.invariant (Kept file L)
  · rintro s ⟨table, log, saved⟩
    refine ⟨?_, fun l some => ?_⟩
    · rw [table, log]
      exact reads_new n
    · rw [saved] at some
      cases some
  · intro s op s' kept ok run
    obtain ⟨s₁, run₁, kept₁⟩ := kept.step built long ok
    obtain rfl : s₁ = s' := Except.ok.inj (run₁.symm.trans run)
    exact kept₁

end

/-! ## What the calls answer -/

theorem length_entries : t.entries.length = n ↔ ∀ i < n, (t.entry i).inUse ≠ 0 := by
  rw [entries, List.length_map]
  constructor
  · intro full i hi
    have all := List.length_filter_eq_length_iff.1 (full.trans (List.length_range).symm)
    simpa using all i (List.mem_range.2 hi)
  · intro used
    rw [List.filter_eq_self.2 fun i mem => ?_, List.length_range]
    simpa using used i (List.mem_range.1 mem)

/-- The table is the finite map of the log. -/
structure IsMap (s : History n) : Prop where
  /-- At most one entry in use for each prefix. -/
  one : s.table.Distinct
  find : ∀ name, s.table.find name = ((latest s.log name).map Prod.fst).getD (-1)
  add : ∀ name sector dir, s.table.add name sector dir = none ↔ latest s.log name ≠ none ∨ s.table.entries.length = n
  remove : ∀ name, s.table.remove name ≠ none ↔ latest s.log name ≠ none
  /-- A successful `Add` fills one entry, whatever was in it. -/
  added : ∀ name sector dir t, s.table.add name sector dir = some t → ∃ i < n, (s.table.entry i).inUse = 0 ∧
    (t.entry i).inUse = 1 ∧ (t.entry i).fileName = key name ∧ (t.entry i).sector = sector ∧
    ((t.entry i).dir = if dir then 1 else 0) ∧ ∀ j ≠ i, t.entry j = s.table.entry j
  /-- A successful `Remove` frees one entry. -/
  removed : ∀ name t, s.table.remove name = some t → ∃ i < n, (s.table.entry i).inUse ≠ 0 ∧
    key (s.table.entry i).name.toList = key name ∧ (t.entry i).inUse = 0 ∧ ∀ j ≠ i, t.entry j = s.table.entry j
  /-- What an entry in use shows is what it was added with. -/
  shows : ∀ name sector dir, latest s.log name = some (sector, dir) ↔
    ∃ e ∈ s.table.entries, e.fileName = key name ∧ e.sector = sector ∧ e.dir = if dir then 1 else 0

theorem Reads.present (reads : Reads t log) : latest log name ≠ none ↔ t.findIndex name ≠ none := by
  rw [← reads.lookup, ne_eq, Option.map_eq_none_iff, lookup_none]

theorem remove_eq_none : t.remove name = none ↔ t.findIndex name = none := by
  unfold remove
  cases t.findIndex name <;> simp

theorem Reads.shows (reads : Reads t log) : latest log name = some (sector, dir) ↔
    ∃ e ∈ t.entries, e.fileName = key name ∧ e.sector = sector ∧ e.dir = if dir then 1 else 0 := by
  have flag {e : DirectoryEntry} (clean : e.Clean) : (e.dir != 0) = dir ↔ e.dir = if dir then 1 else 0 := by
    rcases clean.dir with zero | one
    · rw [zero]
      cases dir <;> decide
    · rw [one]
      cases dir <;> decide
  rw [← reads.lookup, Option.map_eq_some_iff]
  constructor
  · rintro ⟨e, found, same⟩
    obtain ⟨sector', dir'⟩ := Prod.mk.inj same
    obtain ⟨i, hi, -, rfl, used, key'⟩ := lookup_some found
    have clean := reads.clean i hi
    exact ⟨_, mem_entries.2 ⟨i, hi, rfl, used⟩, clean.fileName_eq.trans key', sector', (flag clean).1 dir'⟩
  · rintro ⟨e, mem, name', sector', dir'⟩
    obtain ⟨i, hi, here, -⟩ := mem_entries.1 mem
    have clean := here ▸ reads.clean i hi
    refine ⟨e, reads.distinct.lookup mem (name'.symm.trans clean.fileName_eq), ?_⟩
    rw [sector', (flag clean).2 dir']

theorem Reads.isMap (reads : Reads s.table s.log) : IsMap s where
  one := reads.distinct
  find name := by
    rw [find, ← reads.lookup name, Directory.lookup]
    cases s.table.findIndex name <;> rfl
  add name sector dir := by rw [add_none, reads.present, length_entries]
  remove name := by rw [ne_eq, remove_eq_none, reads.present]
  added name sector dir t call := by
    obtain ⟨i, hi, -, free, rfl⟩ := add_some call
    have at_i := entry_setEntry s.table hi (Directory.added (s.table.entry i) name sector dir)
    refine ⟨i, hi, free, ?_⟩
    simp only [at_i, if_true]
    exact ⟨rfl, fileName_added (reads.clean i hi) name sector dir, rfl, rfl, fun j ne => if_neg ne⟩
  removed name t call := by
    obtain ⟨i, hi, found, rfl⟩ := remove_some call
    obtain ⟨-, used, same⟩ := findIndex_some found
    have at_i := entry_setEntry s.table hi (Directory.removed (s.table.entry i))
    refine ⟨i, hi, used, same, ?_⟩
    simp only [at_i, if_true]
    exact ⟨rfl, fun j ne => if_neg ne⟩
  shows name sector dir := reads.shows

/-- **A directory is a finite map** in every run, through a file that is long enough, and every
call returns. -/
theorem directory_map (built : file.hdr.Built L) (long : 20 * n ≤ L) (reach : Reach (histories n file) WrittenFirst s) :
    IsMap s ∧ ∀ op, WrittenFirst s op → ∃ s', s.run file op = .ok s' := by
  have kept := Kept.of_reach built long reach
  refine ⟨kept.reads.isMap, fun op ok => ?_⟩
  obtain ⟨s', run, -⟩ := kept.step built long ok
  exact ⟨s', run⟩

theorem directory_map_added : ∃ (file : OpenFile) (s : History 2), Reach (histories 2 file) WrittenFirst s ∧
    s.log = [.added [97] 5 true] ∧ IsMap s := by
  obtain ⟨h, b', success, -⟩ := (FileHeader.allocate_spec (n := 40) (by decide) (Bitmap.empty 40) 40).1
    (by rw [Bitmap.numClear_empty]; decide)
  have built : h.Built 40 := FileHeader.built_of_allocate (n := 40) (by decide) success
  have start : (histories 2 ⟨h, 0⟩).init ⟨new 2, fun _ => .tabulate fun _ => 0, [], none⟩ := ⟨rfl, rfl, rfl⟩
  have reads := reads_new 2
  cases call : (new 2).add [97] 5 true with
  | none =>
    rcases add_none.1 call with present | full
    · exact absurd (findIndex_none.2 fun i _ used => absurd (by rw [entry_new]; rfl) used) present
    · exact absurd (by rw [entry_new]; rfl) (full 0 (by decide))
  | some t =>
    have next : (histories 2 ⟨h, 0⟩).step ⟨new 2, fun _ => .tabulate fun _ => 0, [], none⟩ (.add [97] 5 true)
        ⟨t, fun _ => .tabulate fun _ => 0, [.added [97] 5 true], none⟩ := by
      change History.run _ _ _ = _
      rw [History.run, call]
      rfl
    have reach : Reach (histories 2 ⟨h, 0⟩) WrittenFirst _ := (Reach.init start).step (fun h => by cases h) next
    exact ⟨_, _, reach, rfl, (directory_map (L := 40) built le_rfl reach).1⟩

end Directory

end Nachos.Mp4
