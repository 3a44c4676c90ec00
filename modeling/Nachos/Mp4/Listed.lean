import Nachos.Mp4.Listing
import Nachos.Mp4.Opening

/-!
# What listings show

In the runs of an allowed client the tables are clean, so that `List` shows the entries of
the directory its path leads to when the path ends with a slash, and those of the parent
when it does not. `recursiveList` shows the tree below the directory once and in order, as
long as every directory below has a name and the rebuilt paths fit.
-/

namespace Nachos.Mp4
open Bytes Transition Forest

variable {d : Disk} {fs : FileSystem} {S S' : Store} {m m' : Machine} {c : Call} {path : CString} {parent name : List Byte}
  {p : Nat} {u : Node} {e x : DirectoryEntry} {route route' : List DirectoryEntry}

/-! ## Routes -/

theorem Directory.Distinct.entries_nodup {n : Nat} {t : Directory n} (distinct : t.Distinct) : t.entries.Nodup := by
  apply List.Nodup.map_on _ (List.nodup_range.filter _)
  intro i hi j hj same
  rw [List.mem_filter, List.mem_range, bne_iff_ne] at hi hj
  exact distinct i hi.1 j hj.1 hi.2 hj.2 (by rw [same])

theorem entriesBelow_of_file (file : e.dir = 0) : entriesBelow d e = [] := if_pos file

/-- Nothing is below a regular file. -/
theorem isDir_of_route {a : DirectoryEntry} (way : IsRoute (entriesBelow d) (entriesBelow d e) (a :: route)) : e.dir ≠ 0 := by
  intro file
  have mem := way.1
  rw [entriesBelow_of_file file] at mem
  cases mem

namespace Listable
variable (ok : Listable d fs S)
include ok

/-- A route from a directory is a path from it. -/
theorem follow (file : S p = some u) (isDir : u.isDir = true) (way : IsRoute (entriesBelow d) u.table.entries (route ++ [x])) :
    Tree.follow S.child p ((route ++ [x]).map fun e => toKey e.fileName) = some x.sector.toNat ∧ ∃ q i, S.Entry q i x := by
  induction route generalizing p u with
  | nil =>
    obtain ⟨mem, -⟩ := way
    obtain ⟨i, entry⟩ := entry file isDir mem
    refine ⟨?_, p, i, entry⟩
    rw [List.nil_append, List.map_singleton, Tree.follow, ok.child file isDir mem]
    rfl
  | cons e route ih =>
    obtain ⟨mem, way⟩ := way
    obtain ⟨i, entry⟩ := entry file isDir mem
    have dir : e.dir ≠ 0 := by
      cases route with
      | nil => exact isDir_of_route (show IsRoute (entriesBelow d) (entriesBelow d e) [x] from way)
      | cons a route => exact isDir_of_route way
    obtain ⟨v, file', isDir', below⟩ := ok.below entry dir
    rw [below] at way
    obtain ⟨walk, last⟩ := ih file' isDir' way
    refine ⟨?_, last⟩
    rw [List.cons_append, List.map_cons, Tree.follow, ok.child file isDir mem, Option.bind_some, walk]

/-- The names of a route determine it. -/
theorem route_inj (file : S p = some u) (isDir : u.isDir = true) (way : IsRoute (entriesBelow d) u.table.entries route)
    (way' : IsRoute (entriesBelow d) u.table.entries route')
    (same : (route.map fun e => toKey e.fileName) = route'.map fun e => toKey e.fileName) : route = route' := by
  induction route generalizing p u route' with
  | nil => exact (List.map_eq_nil_iff.1 same.symm).symm
  | cons e route ih =>
    cases route' with
    | nil => cases same
    | cons e' route' =>
      obtain ⟨name, names⟩ := List.cons.inj same
      obtain ⟨mem, way⟩ := way
      obtain ⟨mem', way'⟩ := way'
      have here := ok.lookup file isDir mem
      have keys : toKey e.fileName = toKey e'.fileName := name
      rw [keys, ok.lookup file isDir mem'] at here
      cases here
      congr 1
      cases route with
      | nil => exact (List.map_eq_nil_iff.1 names.symm).symm
      | cons a route =>
        obtain ⟨i, entry⟩ := entry file isDir mem
        obtain ⟨v, file', isDir', below⟩ := ok.below entry (isDir_of_route way)
        rw [below] at way way'
        exact ih file' isDir' way way' names

/-- **The tree below a directory is a simple forest.** -/
theorem simple (at' : S.At path p u) : Simple (entriesBelow d) u.table.entries where
  route route route' x way way' := by
    have rooted := ok.sound.toTidy.rooted
    have walk := at'.walk
    rw [Store.walk] at walk
    have path {r : List DirectoryEntry} (way : IsRoute (entriesBelow d) u.table.entries (r ++ [x])) :
        Tree.follow S.child 1 ((tokens path.bytes).map toKey ++ (r ++ [x]).map fun e => toKey e.fileName) =
          some x.sector.toNat := by
      rw [Tree.follow_append, walk, Option.bind_some, (ok.follow at'.file at'.isDir way).1]
    have same := List.append_cancel_left (rooted.path_unique (path way) (path way'))
    exact (List.append_inj' (ok.route_inj at'.file at'.isDir way way' same) rfl).1
  distinct := (ok.distinct at'.file at'.isDir).entries_nodup
  siblings route a way := by
    by_cases dir : a.dir = 0
    · rw [entriesBelow_of_file dir]
      exact List.nodup_nil
    · obtain ⟨-, q, i, entry⟩ := ok.follow at'.file at'.isDir way
      obtain ⟨v, file, isDir, below⟩ := ok.below entry dir
      rw [below]
      exact (ok.distinct file isDir).entries_nodup

end Listable

/-! ## Plain stores in runs -/

theorem Directory.plain_new (n : Nat) : (Directory.new n).Plain := by
  refine ⟨clean_new n, fun e mem => ?_⟩
  rw [entries_new] at mem
  cases mem

theorem Directory.Plain.set {n i : Nat} {t : Directory n} (plain : t.Plain) (hi : i < n) (clean : e.Clean)
    (name : e.inUse ≠ 0 → slash ∉ e.fileName) : (t.setEntry i e).Plain := by
  refine ⟨plain.1.set hi clean, fun x mem => ?_⟩
  obtain ⟨j, hj, here, used⟩ := mem_entries.1 mem
  rw [entry_setEntry t hi] at here
  split at here
  · rw [← here] at used ⊢
    exact name used
  · exact plain.2 x (mem_entries.2 ⟨j, hj, here, used⟩)

theorem slash_not_mem_key (h : slash ∉ name) : slash ∉ key name := by
  intro mem
  exact h ((List.take_sublist _ _).subset ((List.takeWhile_sublist _).subset mem))

theorem Edited.plain {t : Dir} {s q : Nat} {b : FreeMap} {w : Node} (edit : Edited S S' p u t s b) (tidy : Tidy S)
    (plain : S.Plain) (table : t.Plain) (other : q ≠ s) (file : S' q = some w) (isDir : w.isDir = true) : w.table.Plain := by
  rcases eq_or_ne q p with rfl | hp
  · rw [edit.at_parent] at file
    cases file
    rw [Node.table_toBytes]
    exact table
  · exact plain ((edit.dir_iff tidy other hp isDir).1 file) isDir

theorem Linking.plain {i s : Nat} {v : Node} {b : FreeMap} (link : Linking S p u i name s v b) (sound : Sound S)
    (plain : S.Plain) (word : slash ∉ name) : (S.link p u i name s v b).Plain := by
  intro q w file isDir
  have table := plain link.parent link.isDir
  rcases link.files sound file with ⟨rfl, rfl⟩ | ⟨other, -⟩
  · rw [Node.table, link.empty isDir, Directory.ofBytes_toBytes]
    exact Directory.plain_new _
  · have clean := table.1 i link.slot
    refine (link.edited sound).plain sound.toTidy plain ?_ other file isDir
    apply Directory.Plain.set table link.slot (Directory.clean_added clean _ _ _)
    intro _
    rw [Directory.fileName_added clean]
    exact slash_not_mem_key word

theorem Unlinking.plain {i s : Nat} {v : Node} {b : FreeMap} (unlink : Unlinking S p u i name s v b) (sound : Sound S)
    (plain : S.Plain) : (S.unlink p u i s b).Plain := by
  intro q w file isDir
  have table := plain unlink.parent unlink.isDir
  refine (unlink.edited sound).plain sound.toTidy plain ?_ (unlink.files sound file).1 file isDir
  exact Directory.Plain.set table unlink.slot (Directory.clean_removed (table.1 i unlink.slot)) (fun used => absurd rfl used)

theorem Linked.plain (linked : Linked S S') (plain : S.Plain) : S'.Plain := by
  induction linked with
  | same => exact plain
  | link _ sound word link ih => exact link.plain sound ih word

/-- What an allowed call does to the files keeps the tables plain. -/
theorem Change.plain (sound : Sound S) (plain : S.Plain) (change : Change S c S') : S'.Plain := by
  cases change with
  | same => exact plain
  | linked split made =>
    obtain ⟨_, -, word, -⟩ := splitPath_ok split
    exact made.link.plain sound plain word
  | unlinked split found unlink => exact unlink.plain sound plain
  | written hv hd _ _ =>
    intro q w file isDir
    exact plain ((Store.put_dirs hv hd q w isDir).1 file) isDir

/-- The last thing `FileSystem(TRUE)` does. -/
theorem FileSystem.format_last {raw : Disk} (formatted : FileSystem.format raw = .ok (d, fs)) :
    ∃ d₀, (Directory.new numDirEntries).writeBack d₀ fs.directoryFile = .ok d := by
  unfold FileSystem.format at formatted
  obtain ⟨_, -, formatted⟩ := bind_ok formatted
  obtain ⟨_, -, formatted⟩ := bind_ok formatted
  obtain ⟨_, -, formatted⟩ := bind_ok formatted
  obtain ⟨_, -, formatted⟩ := bind_ok formatted
  obtain ⟨_, -, formatted⟩ := bind_ok formatted
  obtain ⟨_, -, formatted⟩ := bind_ok formatted
  obtain ⟨_, -, formatted⟩ := bind_ok formatted
  obtain ⟨d₀, -, formatted⟩ := bind_ok formatted
  obtain ⟨_, write, formatted⟩ := bind_ok formatted
  cases formatted
  exact ⟨d₀, write⟩

/-- The tables of a formatted disk. -/
theorem Fresh.plain (fresh : Fresh d fs S) {raw : Disk} (formatted : FileSystem.format raw = .ok (d, fs)) : S.Plain := by
  intro q w file isDir
  have tidy := fresh.sound.toTidy
  obtain ⟨u, hu, hd, hf⟩ := fresh.mounted.root tidy
  obtain rfl | rfl := fresh.only file
  · exact absurd rfl (tidy.dir_ne_zero file isDir)
  · rw [hu] at file
    cases file
    obtain ⟨d₀, write⟩ := FileSystem.format_last formatted
    obtain ⟨d₁, write', -, holds⟩ := Directory.writeBack_eq (d := d₀) (hf ▸ tidy.readable_dir hu hd)
      (hf ▸ tidy.toLaid.datas_nodup hu) (Directory.new numDirEntries)
    rw [write] at write'
    cases write'
    have bytes := fresh.mounted.rep.bytes hu
    rw [tidy.dirSize hu hd, ← hf, directoryFileSize, holds] at bytes
    rw [Node.table, ← bytes, Directory.ofBytes_toBytes]
    exact Directory.plain_new _

/-- **In the runs of an allowed client** everything can be listed. -/
theorem Listable.of_reach (reach : Reach system Allowed m) : ∃ S, Listable m.disk m.fs S := by
  have both : ∃ S, Invariant m S ∧ S.Plain := by
    apply reach.invariant fun m => ∃ S, Invariant m S ∧ S.Plain
    · intro m init
      obtain ⟨⟨raw, formatted⟩, closed⟩ := init
      obtain ⟨d, fs, S, e, fresh⟩ := format_spec raw
      have plain : S.Plain := fresh.plain e
      rw [e] at formatted
      cases formatted
      exact ⟨S, ⟨fresh.sound, fresh.mounted, fresh.distinct, fun hh => by rw [closed] at hh; cases hh⟩, plain⟩
    · rintro m c m' ⟨S, inv, plain⟩ ok run
      obtain ⟨S', inv', change⟩ := inv.step ok run
      exact ⟨S', inv', change.plain inv.sound plain⟩
  obtain ⟨S, inv, plain⟩ := both
  exact ⟨S, inv.mounted, inv.sound, inv.distinct, plain⟩

/-! ## What is shown -/

/-- `List` and `recursiveList` show a directory with table `t`: its entries in use, and each
entry of the tree below once, in table order, right before its own entries and indented by
its depth. -/
structure Lists (m : Machine) (path : CString) (t : Dir) : Prop where
  list : ∀ junk, m.fs.list m.disk junk path = .ok (t.entries.map listLine)
  tree : ∃ lines, (∀ junk depth, 300 ≤ depth → m.fs.recursiveList m.disk junk depth path 0 = .ok (shown lines)) ∧
    Preorder (entriesBelow m.disk) 0 t.entries lines ∧ (lines.map Prod.snd).Nodup ∧
    ∀ k e, (k, e) ∈ lines ↔ ∃ route, IsRoute (entriesBelow m.disk) t.entries (route ++ [e]) ∧ k = route.length

/-- The directories below `t` can be opened by the paths `recursiveList` builds from a path of
the given length: each has a name, and each component costs two slashes, the first one. -/
def Reopens (d : Disk) (length : Nat) (t : Dir) : Prop :=
  ∀ route ≠ [], IsRoute (entriesBelow d) t.entries route → (∀ e ∈ route, e.dir ≠ 0) →
    (∀ e ∈ route, e.fileName ≠ []) ∧ length + (route.map fun e => e.fileName.length + 2).sum ≤ 300

theorem opens_zero {t : Dir} {length : Nat} : Opens d 0 length t.entries ↔ length < 300 ∧ Reopens d length t := by
  constructor
  · intro opens
    refine ⟨(opens_iff.1 opens).1, fun route some way dirs => ?_⟩
    obtain ⟨named, fits⟩ := opens route way dirs
    cases route with
    | nil => exact absurd rfl some
    | cons e route =>
      have := rebuilt_zero length e route
      exact ⟨named, by omega⟩
  · rintro ⟨fits, reopens⟩ route way dirs
    cases route with
    | nil => exact ⟨(fun _ mem => by cases mem), fits⟩
    | cons e route =>
      obtain ⟨named, short⟩ := reopens _ (List.cons_ne_nil e route) way dirs
      have := rebuilt_zero length e route
      exact ⟨named, by omega⟩

theorem list_of_table {junk : Word} {t : Dir} (clean : t.Clean) (table : fs.listedTable d junk path = .ok t) :
    fs.list d junk path = .ok (t.entries.map listLine) := by
  rw [FileSystem.list, table, ok_bind, Directory.list_eq clean]

/-- A path that does not end with a slash shows the parent of its directory. -/
theorem Listable.ends (ok : Listable d fs S) (at' : S.At path p u) {junk : Word}
    (list : fs.list d junk path = .ok (u.table.entries.map listLine)) : ∃ s, path.bytes = s ++ [slash] := by
  have tidy := ok.sound.toTidy
  obtain ⟨t, table, -⟩ := bind_ok list
  have fits := fits_of_listed table
  obtain ⟨_, -, table⟩ := bind_ok table
  obtain ⟨⟨parent, name⟩, split, -⟩ := bind_ok table
  obtain ⟨s, bytes, word, -⟩ := splitPath_ok split
  by_cases last : name = []
  · exact ⟨s, by rw [bytes, last]⟩
  have walk := at'.walk
  rw [tokens_split split, if_neg last, Store.walk, List.map_append, List.map_singleton, Tree.follow_snoc] at walk
  obtain ⟨q, above, child⟩ := Option.bind_eq_some_iff.1 walk
  obtain ⟨i, e, ⟨v, file, isDir, hi, here, used⟩, target, -⟩ := Store.child_some child
  have mem : e ∈ v.table.entries := Directory.mem_entries.2 ⟨i, hi, here, used⟩
  rw [list_of_table (ok.plain file isDir).1 (ok.mounted.listedTable ok.sound split above file isDir junk)] at list
  have same : v.table.entries = u.table.entries :=
    List.map_injective_iff.2 (fun a b h => congrArg Line.entry h) (Except.ok.inj list)
  -- the entry of the directory would be one of its own
  rw [same] at mem
  obtain ⟨j, entry⟩ := Listable.entry at'.file at'.isDir mem
  obtain ⟨rfl, -⟩ := tidy.unique entry ⟨v, file, isDir, hi, here, used⟩ rfl
  have deeper := at'.walk
  rw [tokens_split split, if_neg last, Store.walk, List.map_append, List.map_singleton] at deeper
  have cycle := tidy.rooted.path_unique above deeper
  have := congrArg List.length cycle
  rw [List.length_append, List.length_singleton] at this
  omega

/-- **Listing a directory**: for a path that leads to a directory, `List` and `recursiveList`
show it exactly when the path ends with a slash and fits the buffer of `SplitPath`, and so do
the paths built for the directories below, which all have names. -/
theorem lists_iff (reach : Reach system Allowed m) {sector : Word}
    (resolved : resolve m.disk (tokens path.bytes) = some (sector, true)) : ∃ t, tableAt m.disk sector = .ok t ∧
      (Lists m path t ↔ (∃ s, path.bytes = s ++ [slash]) ∧ path.bytes.length < 300 ∧ Reopens m.disk path.bytes.length t) := by
  obtain ⟨S, ok⟩ := Listable.of_reach reach
  have tidy := ok.sound.toTidy
  obtain ⟨u, named, isDir⟩ := ok.mounted.rep.resolve_some tidy resolved
  obtain ⟨walk, file⟩ := Store.file_some named
  have at' : S.At path sector.toNat u := ⟨walk, file, isDir⟩
  refine ⟨u.table, ok.mounted.rep.tableAt tidy file isDir, ?_⟩
  rw [← opens_zero]
  constructor
  · intro lists
    obtain ⟨s, bytes⟩ := ok.ends at' (lists.list 0)
    obtain ⟨lines, run, -⟩ := lists.tree
    exact ⟨⟨s, bytes⟩, ok.opens_of_returns bytes at' (run 0 300 le_rfl)⟩
  · rintro ⟨⟨s, bytes⟩, opens⟩
    have fits := (opens_iff.1 opens).1
    obtain ⟨lines, run, order⟩ := ok.recursiveList bytes at' 0 300 (by omega) opens
    refine ⟨fun junk => ?_, lines, fun junk depth deep => ?_, order, order.nodup (ok.simple at'), fun k e => ?_⟩
    · exact list_of_table (ok.plain file isDir).1 (ok.mounted.listed ok.sound bytes fits at' junk)
    · obtain ⟨lines', run', order'⟩ := ok.recursiveList bytes at' junk depth (by omega) opens
      rw [run', order'.unique order]
    · rw [order.mem_iff]
      simp only [Nat.zero_add]

theorem Listable.fileName_eq (ok : Listable d fs S) (file : S p = some u) (isDir : u.isDir = true) (mem : e ∈ u.table.entries) :
    e.fileName = key e.name.toList := by
  obtain ⟨i, hi, here, -⟩ := Directory.mem_entries.1 mem
  exact (here ▸ (ok.plain file isDir).1 i hi).fileName_eq

section nested

variable {a c : FileName} {size : Word} {s : Nat} {v : Node} (nested : Nested S a c size parent s v) (ok : Listable d fs S)
  (file : S 1 = some u) (isDir : u.isDir = true)
include nested ok file isDir

/-- The only directory below the root can be opened. -/
theorem Nested.reopens : Reopens d 1 u.table := by
  intro route ne way dirs
  obtain ⟨front, x, rfl⟩ := (List.eq_nil_or_concat route).resolve_left ne
  rw [List.concat_eq_append] at way dirs ⊢
  obtain ⟨follow, q, i, entry⟩ := ok.follow file isDir way
  obtain ⟨w, target, isDir', -⟩ := ok.below entry (dirs x (List.mem_append_right _ (List.mem_singleton_self x)))
  have rooted := ok.sound.toTidy.rooted
  obtain top | walk := nested.dirs target isDir'
  · rw [top] at follow
    have none := rooted.path_unique follow (rfl : Tree.follow S.child 1 [] = some 1)
    simp at none
  · have same := rooted.path_unique follow walk
    rw [List.map_append] at same
    obtain ⟨top, last⟩ := List.append_inj' (same.trans (List.nil_append _).symm) rfl
    obtain rfl := List.map_eq_nil_iff.1 top
    have keys : key x.fileName = key a.bytes := congrArg Key.bytes (List.cons.inj last).1
    have name : x.fileName = a.bytes := by
      rw [ok.fileName_eq file isDir way.1, key_key, a.key_eq] at keys
      rw [ok.fileName_eq file isDir way.1, keys]
    have le := a.le
    rw [fileNameMaxLen] at le
    simp only [List.nil_append, List.mem_singleton, forall_eq, List.map_cons, List.map_nil, List.sum_cons, List.sum_nil, name]
    exact ⟨List.ne_nil_of_length_pos a.pos, by omega⟩

/-- The file is reached through the directory. -/
theorem Nested.way : ∃ x y, IsRoute (entriesBelow d) u.table.entries [x, y] ∧ x.fileName = a.bytes ∧ y.fileName = c.bytes := by
  have tidy := ok.sound.toTidy
  obtain ⟨q, first, rest⟩ := Option.bind_eq_some_iff.1 nested.walk
  obtain ⟨s', second, -⟩ := Option.bind_eq_some_iff.1 rest
  obtain ⟨i, x, ⟨u', file', isDir', hi, here, used⟩, rfl, name⟩ := Store.child_some first
  obtain ⟨j, y, ⟨w, target, below, hj, here', used'⟩, -, name'⟩ := Store.child_some second
  obtain rfl : u = u' := Option.some.inj (file.symm.trans file')
  have entry : S.Entry 1 i x := ⟨u, file, isDir, hi, here, used⟩
  have mem : x ∈ u.table.entries := Directory.mem_entries.2 ⟨i, hi, here, used⟩
  have mem' : y ∈ w.table.entries := Directory.mem_entries.2 ⟨j, hj, here', used'⟩
  -- the first one is a directory, since something is below it
  have dir : x.dir ≠ 0 := by
    obtain ⟨-, w', target', kind⟩ := tidy.named entry
    obtain rfl : w = w' := Option.some.inj (target.symm.trans target')
    exact kind.2 below
  obtain ⟨w', target', -, entries⟩ := ok.below entry dir
  obtain rfl : w = w' := Option.some.inj (target.symm.trans target')
  refine ⟨x, y, ⟨mem, by rwa [entries], trivial⟩, ?_, ?_⟩
  · rw [ok.fileName_eq file isDir mem, name]
    exact a.key_eq
  · rw [ok.fileName_eq target below mem', name']
    exact c.key_eq

end nested

theorem lists_iff_nested : ∃ m₀ m₁ m₂ t x y, system.init m₀ ∧
    m₀.run (.createDirectory 0 (pathString [.single 100 (by decide)])) = .ok m₁ ∧
    m₁.run (.create 0 (pathString [.single 100 (by decide), .single 102 (by decide)]) 200) = .ok m₂ ∧
    tableAt m₂.disk 1 = .ok t ∧ IsRoute (entriesBelow m₂.disk) t.entries [x, y] ∧ x.fileName = [100] ∧ y.fileName = [102] ∧
    Lists m₂ (pathString []) t := by
  obtain ⟨d, fs, S, formatted, fresh⟩ := format_spec fun _ => .tabulate fun _ => 0
  have init : system.init ⟨d, fs, fun _ => none⟩ := ⟨⟨_, formatted⟩, fun _ => rfl⟩
  obtain ⟨d₁, d₂, S₂, parent, s, v, call₁, call₂, ok₂, inv, linked, nested⟩ :=
    fresh.nested (.single 100 (by decide)) (.single 102 (by decide)) 200 (by decide)
  have ok₁ : Allowed ⟨d, fs, fun _ => none⟩ (.createDirectory 0 (pathString [.single 100 (by decide)])) := fresh.dirParents _
  have run₁ := Machine.run_createDirectory (m := ⟨d, fs, fun _ => none⟩) call₁
  have run₂ := Machine.run_create (m := ⟨d₁, fs, fun _ => none⟩) call₂
  have reach : Reach system Allowed ⟨d₂, fs, fun _ => none⟩ := .step (.step (.init init) ok₁ run₁) ok₂ run₂
  have ok : Listable d₂ fs S₂ := ⟨inv.mounted, inv.sound, inv.distinct, linked.plain (fresh.plain formatted)⟩
  have resolved : resolve d₂ (tokens (pathString []).bytes) = some (1, true) := rfl
  obtain ⟨t, table, iff⟩ := lists_iff reach resolved
  obtain ⟨u, hu, hd⟩ := inv.sound.root
  have here : u.table = t := Except.ok.inj ((inv.mounted.rep.tableAt inv.sound.toTidy (s := 1) hu hd).symm.trans table)
  subst here
  obtain ⟨x, y, way, first, second⟩ := nested.way ok hu hd
  exact ⟨_, _, _, u.table, x, y, init, run₁, run₂, table, way, first, second, iff.2 ⟨⟨[], rfl⟩, by decide, nested.reopens ok hu hd⟩⟩

/-- A new directory is listed as its parent when the path is given without the slash. -/
theorem Created.lists {i s : Nat} {v : Node} {d' : Disk} {b : FreeMap} {a : FileName} (ok : Listable d fs S)
    (made : Created S parent a.bytes true directoryFileSize d' p u i s v b) (top : tokens parent = []) :
    ∃ sector t, resolve d' (tokens (pathString [a]).bytes) = some (sector, true) ∧ tableAt d' sector = .ok t ∧
      t.entries = [] ∧ ∃ out line, fs.list d' 0 (pathString [a]) = .ok out ∧ line ∈ out ∧ line.text = a.bytes ++ [newline] := by
  have link := made.link
  have toks : tokens (pathString [a]).bytes = [a.bytes] := tokens_joined [a]
  have at_root := made.resolves
  rw [top] at at_root
  cases at_root
  have ok' : Listable d' fs (S.link 1 u i a.bytes s v b) := ⟨link.mounted ok.sound ok.mounted made.rep,
    link.sound_link ok.sound, link.distinct ok.sound ok.distinct, link.plain ok.sound ok.plain a.noSlash⟩
  have tidy' := ok'.sound.toTidy
  have new := link.at_new ok.sound
  have sector : S.link 1 u i a.bytes s v b (BitVec.ofNat 32 s).toNat = some v := by rw [tidy'.toNat_ofNat new, new]
  refine ⟨BitVec.ofNat 32 s, v.table, ?_, made.rep.tableAt tidy' sector made.kind, ?_, ?_⟩
  · rw [made.rep.resolve tidy', toks, Store.file_eq (made.empty ok.sound top a.bytes).1 new, Option.map_some, made.kind]
  · rw [Node.table, link.empty made.kind, Directory.ofBytes_toBytes]
    exact Directory.entries_new _
  · obtain ⟨parent', split, toks'⟩ := splitPath_snoc (p := []) (c := a) (fits_of_length (by simp))
    have parentFile := link.at_parent ok.sound
    have walk : (S.link 1 u i a.bytes s v b).walk (tokens parent') = some 1 := by
      rw [toks']
      rfl
    have table := ok'.mounted.listedTable ok'.sound split walk parentFile link.isDir 0
    have clean := (ok.plain link.parent link.isDir).1 i link.slot
    refine ⟨_, listLine (Directory.added (u.table.entry i) a.bytes (BitVec.ofNat 32 s) v.isDir),
      list_of_table (ok'.plain parentFile link.isDir).1 table, List.mem_map_of_mem (Directory.mem_entries.2 ⟨i, link.slot, ?_, ?_⟩), ?_⟩
    · rw [Node.table_toBytes, linkedTable, Directory.entry_setEntry _ link.slot, if_pos rfl]
    · exact Directory.byte_one_ne
    · rw [listLine, Directory.fileName_added clean, a.key_eq, made.kind]
      rfl

/-- `/d` is empty, and its listing without the last slash shows `d`. -/
theorem list_without_slash : ∃ m₀ m₁ sector t, system.init m₀ ∧
    m₀.run (.createDirectory 0 (pathString [.single 100 (by decide)])) = .ok m₁ ∧
    resolve m₁.disk (tokens (pathString [.single 100 (by decide)]).bytes) = some (sector, true) ∧
    tableAt m₁.disk sector = .ok t ∧ t.entries = [] ∧
    (∃ out line, m₁.fs.list m₁.disk 0 (pathString [.single 100 (by decide)]) = .ok out ∧ line ∈ out ∧ line.text = [100, newline]) ∧
    ¬ Lists m₁ (pathString [.single 100 (by decide)]) t := by
  obtain ⟨d, fs, S, formatted, fresh⟩ := format_spec fun _ => .tabulate fun _ => 0
  have init : system.init ⟨d, fs, fun _ => none⟩ := ⟨⟨_, formatted⟩, fun _ => rfl⟩
  obtain ⟨parent, d₁, u, i, s, v, b, top, made, call⟩ := fresh.createDirectory 0 (.single 100 (by decide))
  have ok : Listable d fs S := ⟨fresh.mounted, fresh.sound, fresh.distinct, fresh.plain formatted⟩
  obtain ⟨sector, t, resolved, table, none', out, line, list, mem, text⟩ := made.lists ok top
  refine ⟨_, _, sector, t, init, Machine.run_createDirectory (m := ⟨d, fs, fun _ => none⟩) call, resolved, table, none',
    ⟨out, line, list, mem, text⟩, fun lists => ?_⟩
  have shown := lists.list 0
  rw [none'] at shown
  rw [show fs.list d₁ 0 _ = _ from list] at shown
  cases shown
  cases mem

end Nachos.Mp4
