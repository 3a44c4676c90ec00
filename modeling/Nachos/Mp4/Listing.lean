import Nachos.Base.Preorder
import Nachos.Mp4.Entries
import Nachos.Mp4.Runs

/-!
# Listing a directory

`List` and `recursiveList` of `filesys/filesys.cc`. Both cut the last component off the
path they are given and show what is left, and `recursiveList` rebuilds a path for each
directory it meets. So a path shows its directory when it ends with a slash, and the rebuilt
paths, which have a slash more for each level but the first, have to fit the buffer of
`SplitPath`.
-/

namespace Nachos.Mp4
open Bytes Transition Forest

/-- `"[D] "`, `"[F] "` and `'\n'`. -/
def dirTag : List Byte := [91, 68, 93, 32]
def fileTag : List Byte := [91, 70, 93, 32]
def newline : Byte := 10

/-- A line of a listing: the entry it shows and what is printed. -/
structure Line where
  entry : DirectoryEntry
  text : List Byte

/-- The line of `Directory::List`. -/
def listLine (e : DirectoryEntry) : Line := ⟨e, (if e.dir = 1 then [] else fileTag) ++ e.fileName ++ [newline]⟩

/-- The line of `recursiveList`, indented by `"  "` twice for each layer. -/
def treeLine (layer : Nat) (e : DirectoryEntry) : Line :=
  ⟨e, (List.replicate (layer * 2) [32, 32]).flatten ++ (if e.dir ≠ 0 then dirTag else fileTag) ++ e.fileName ++ [newline]⟩

/-- `%s` of an entry's name. -/
def printName (e : DirectoryEntry) : Exec Unit :=
  if 0 ∈ e.name.toList then pure () else throw .unterminated

/-- `Directory::List`. -/
def Directory.list {n : Nat} (t : Directory n) : Exec (List Line) :=
  (((List.range n).map t.entry).filter fun e => e.inUse == 1).mapM fun e => do
    printName e
    pure (listLine e)

/-- The path `recursiveList` builds for the directory of an entry. -/
def subPath (name : CString) (layer : Nat) (e : DirectoryEntry) : CString where
  bytes := name.bytes ++ (if layer ≠ 0 then [slash] else []) ++ e.fileName ++ [slash]
  noNul := by
    intro x mem
    rcases List.mem_append.1 mem with mem | mem
    · rcases List.mem_append.1 mem with mem | mem
      · rcases List.mem_append.1 mem with mem | mem
        · exact name.noNul x mem
        · split at mem
          · rw [List.mem_singleton.1 mem]
            decide
          · cases mem
      · exact e.noNul_fileName x mem
    · rw [List.mem_singleton.1 mem]
      decide

namespace FileSystem

/-- The table `List` and `recursiveList` show. -/
def listedTable (d : Disk) (fs : FileSystem) (junk : Word) (name : CString) : Exec Dir := do
  let directory ← (Directory.new numDirEntries).fetchFrom d fs.directoryFile
  let (parentPath, _) ← splitPath name
  if tokens parentPath ≠ [] then
    match ← openDir d fs junk parentPath with
    | none => throw .nullPointer
    | some file => directory.fetchFrom d file
  else pure directory

/-- `FileSystem::List`. -/
def list (d : Disk) (fs : FileSystem) (junk : Word) (name : CString) : Exec (List Line) := do
  let directory ← listedTable d fs junk name
  directory.list

/-- `FileSystem::recursiveList`, with at most `depth` calls inside each other. -/
def recursiveList (d : Disk) (fs : FileSystem) (junk : Word) : Nat → CString → Nat → Exec (List Line)
  | 0, _, _ => throw .diverges
  | depth + 1, name, layer => do
    let directory ← listedTable d fs junk name
    let printed ← directory.entries.mapM fun e => do
      printName e
      if e.dir ≠ 0 then do
        let below ← recursiveList d fs junk depth (subPath name layer e) (layer + 1)
        pure (treeLine layer e :: below)
      else pure [treeLine layer e]
    pure printed.flatten

end FileSystem

/-- The entries of the directory an entry names. -/
def entriesBelow (d : Disk) (e : DirectoryEntry) : List DirectoryEntry :=
  if e.dir = 0 then []
  else match tableAt d e.sector with
    | .ok t => t.entries
    | .error _ => []

/-- The length of the path that `recursiveList` has built at the end of a route. -/
def rebuilt : Nat → Nat → List DirectoryEntry → Nat
  | _, length, [] => length
  | layer, length, e :: route => rebuilt (layer + 1) (length + (if layer ≠ 0 then 1 else 0) + e.fileName.length + 1) route

/-- Every directory below `roots` has a name, and the path built for it fits the buffer. -/
def Opens (d : Disk) (layer length : Nat) (roots : List DirectoryEntry) : Prop :=
  ∀ route, IsRoute (entriesBelow d) roots route → (∀ e ∈ route, e.dir ≠ 0) →
    (∀ e ∈ route, e.fileName ≠ []) ∧ rebuilt layer length route < 300

/-- A clean table in which no name has a slash. -/
def Directory.Plain {n : Nat} (t : Directory n) : Prop := t.Clean ∧ ∀ e ∈ t.entries, slash ∉ e.fileName

/-- The directories of a store have plain tables. -/
def Store.Plain (S : Store) : Prop := ∀ {s v}, S s = some v → v.isDir = true → v.table.Plain

/-- What listings rely on. -/
structure Listable (d : Disk) (fs : FileSystem) (S : Store) : Prop where
  mounted : Mounted d fs S
  sound : Sound S
  distinct : S.Distinct
  plain : S.Plain

variable {d : Disk} {fs : FileSystem} {S : Store} {path : CString} {p layer length : Nat} {u : Node} {e : DirectoryEntry}
  {roots : List DirectoryEntry} {junk : Word}

theorem length_subPath : (subPath path layer e).bytes.length =
    path.bytes.length + (if layer ≠ 0 then 1 else 0) + e.fileName.length + 1 := by
  simp only [subPath, List.length_append, List.length_singleton]
  split <;> rfl

/-- What the paths of a forest ask of its roots. -/
theorem opens_iff : Opens d layer length roots ↔ length < 300 ∧ ∀ e ∈ roots, e.dir ≠ 0 → e.fileName ≠ [] ∧
    Opens d (layer + 1) (length + (if layer ≠ 0 then 1 else 0) + e.fileName.length + 1) (entriesBelow d e) := by
  constructor
  · intro opens
    refine ⟨(opens [] trivial (fun _ mem => by cases mem)).2, fun e mem isDir => ?_⟩
    have along : ∀ route, IsRoute (entriesBelow d) (entriesBelow d e) route → (∀ x ∈ route, x.dir ≠ 0) →
        (∀ x ∈ e :: route, x.fileName ≠ []) ∧ rebuilt layer length (e :: route) < 300 := by
      intro route way dirs
      exact opens (e :: route) ⟨mem, way⟩ (List.forall_mem_cons.2 ⟨isDir, dirs⟩)
    refine ⟨(along [] trivial (fun _ mem => by cases mem)).1 e List.mem_cons_self, fun route way dirs => ?_⟩
    obtain ⟨named, fits⟩ := along route way dirs
    exact ⟨fun x mem => named x (List.mem_cons_of_mem e mem), fits⟩
  · rintro ⟨fits, down⟩ route way dirs
    cases route with
    | nil => exact ⟨(fun _ mem => by cases mem), fits⟩
    | cons e route =>
      obtain ⟨isDir, dirs⟩ := List.forall_mem_cons.1 dirs
      obtain ⟨named, opens⟩ := down e way.1 isDir
      obtain ⟨others, short⟩ := opens route way.2 dirs
      exact ⟨List.forall_mem_cons.2 ⟨named, others⟩, short⟩

/-- Below the first level each component costs two slashes. -/
theorem rebuilt_eq (layer : Nat) (below : layer ≠ 0) (length : Nat) (route : List DirectoryEntry) :
    rebuilt layer length route = length + (route.map fun e => e.fileName.length + 2).sum := by
  induction route generalizing layer length with
  | nil => rfl
  | cons e route ih =>
    rw [rebuilt, ih _ (Nat.succ_ne_zero layer), if_pos below, List.map_cons, List.sum_cons]
    omega

theorem rebuilt_zero (length : Nat) (e : DirectoryEntry) (route : List DirectoryEntry) :
    rebuilt 0 length (e :: route) + 1 = length + ((e :: route).map fun e => e.fileName.length + 2).sum := by
  rw [rebuilt, rebuilt_eq _ (Nat.succ_ne_zero 0), if_neg (not_not.2 rfl), List.map_cons, List.sum_cons]
  omega

/-! ## Paths that end with a slash -/

theorem tokens_slash (s w : List Byte) : tokens (s ++ slash :: w) = tokens s ++ tokens w := tokensAfter_slash s w []

/-- A path that ends with a slash and fits the buffer splits into its directory and no target. -/
theorem splitPath_slash {s : List Byte} (bytes : path.bytes = s ++ [slash]) (fits : path.bytes.length < 300) :
    ∃ parent, splitPath path = .ok (parent, []) ∧ tokens parent = tokens path.bytes := by
  have last : lastSlash path.bytes path.bytes.length = some s.length := by
    rw [bytes, List.length_append, List.length_singleton]
    apply lastSlash_eq (w := []) (List.not_mem_nil) 0
    rw [List.length_append, List.length_singleton]
  have split : ∃ parent, splitPath path = .ok (parent, []) := by
    rw [splitPath, if_pos fits, last, bytes]
    refine ⟨_, congrArg Except.ok (Prod.ext rfl ?_)⟩
    rw [List.drop_eq_nil_of_le (by rw [List.length_append, List.length_singleton])]
  obtain ⟨parent, split⟩ := split
  refine ⟨parent, split, ?_⟩
  rw [tokens_split split, if_pos rfl, List.append_nil]

/-- The components of a rebuilt path. -/
theorem tokens_subPath {s : List Byte} (bytes : path.bytes = s ++ [slash]) (plain : slash ∉ e.fileName) :
    tokens (subPath path layer e).bytes = tokens path.bytes ++ if e.fileName = [] then [] else [e.fileName] := by
  have word : tokens (e.fileName ++ [slash]) = if e.fileName = [] then [] else [e.fileName] := by
    rw [tokens_slash, tokens_word plain]
    exact List.append_nil _
  have nil : tokens [] = [] := rfl
  rw [bytes, tokens_slash, nil, List.append_nil, ← word]
  simp only [subPath, bytes]
  split
  · rw [List.append_assoc, List.append_assoc, List.append_assoc, List.singleton_append, tokens_slash,
      List.singleton_append, ← List.nil_append (slash :: (e.fileName ++ [slash])), tokens_slash, nil, List.nil_append]
  · rw [List.append_nil, List.append_assoc, List.append_assoc, List.singleton_append, tokens_slash]

/-! ## Listing on a mounted file system -/

/-- The path leads to directory `p`. -/
structure Store.At (S : Store) (path : CString) (p : Nat) (u : Node) : Prop where
  walk : S.walk (tokens path.bytes) = some p
  file : S p = some u
  isDir : u.isDir = true

theorem DirectoryEntry.Clean.printName (clean : e.Clean) : printName e = .ok () := by
  rw [Mp4.printName, if_pos]
  · rfl
  · rw [← clean.ends]
    exact Vector.mem_toList_iff.2 (Vector.getElem_mem _)

/-- The loop of a listing in which every entry is shown. -/
theorem mapM_ok {α β : Type} {f : α → Exec β} {g : α → β} {l : List α} (each : ∀ a ∈ l, f a = .ok (g a)) :
    l.mapM f = .ok (l.map g) := by
  induction l with
  | nil => rfl
  | cons a l ih =>
    obtain ⟨here, others⟩ := List.forall_mem_cons.1 each
    rw [List.mapM_cons, here, ih others]
    rfl

/-- A loop that returns has returned for each element. -/
theorem mapM_mem {α β : Type} {f : α → Exec β} {l : List α} {out : List β} (run : l.mapM f = .ok out) {a : α} (mem : a ∈ l) :
    ∃ b, f a = .ok b := by
  induction l generalizing out with
  | nil => cases mem
  | cons x l ih =>
    rw [List.mapM_cons] at run
    obtain ⟨b, here, run⟩ := bind_ok run
    obtain ⟨bs, others, -⟩ := bind_ok run
    rcases List.mem_cons.1 mem with rfl | mem
    · exact ⟨b, here⟩
    · exact ih others mem

/-- **`Directory::List`** of a clean table shows the entries in use. -/
theorem Directory.list_eq {n : Nat} {t : Directory n} (clean : t.Clean) : t.list = .ok (t.entries.map listLine) := by
  have same : ((List.range n).map t.entry).filter (fun e => e.inUse == 1) = t.entries := by
    rw [List.filter_map, entries]
    congr 1
    apply List.filter_congr
    intro i mem
    rw [Function.comp_apply, Bool.eq_iff_iff, beq_iff_eq, bne_iff_ne]
    rcases (clean i (List.mem_range.1 mem)).inUse with none' | one
    · rw [none']
      decide
    · rw [one]
      decide
  rw [list, same]
  apply mapM_ok
  intro e mem
  obtain ⟨i, hi, rfl, -⟩ := mem_entries.1 mem
  rw [(clean i hi).printName]
  rfl

section
variable (mounted : Mounted d fs S) (sound : Sound S)
include mounted sound

/-- The table that is shown, where the path splits. -/
theorem Mounted.listedTable {parent name : List Byte} (split : splitPath path = .ok (parent, name))
    (at' : S.walk (tokens parent) = some p) (file : S p = some u) (isDir : u.isDir = true) (junk : Word) :
    fs.listedTable d junk path = .ok u.table := by
  have tidy := sound.toTidy
  obtain ⟨r, hr, hrd, hf⟩ := mounted.root tidy
  rw [FileSystem.listedTable, Rep.fetchTable tidy mounted.rep hr hrd hf, ok_bind, split, ok_bind]
  dsimp only
  by_cases top : tokens parent = []
  · rw [if_neg (not_not.2 top)]
    rw [top] at at'
    cases at'
    rw [hr] at file
    cases file
    rfl
  · rw [if_pos top]
    rcases mounted.openDir tidy top (.of_dir (Store.file_eq at' file) isDir) junk with ⟨none', -⟩ | ⟨q, v, found, hv, hvd, opened⟩
    · rw [Store.walk, none'] at at'
      cases at'
    · rw [Store.walk, found] at at'
      cases at'
      rw [file] at hv
      cases hv
      rw [opened, ok_bind]
      exact Rep.fetchTable tidy mounted.rep file isDir rfl _

/-- The table of a directory, for a path that ends with a slash. -/
theorem Mounted.listed {s : List Byte} (bytes : path.bytes = s ++ [slash]) (fits : path.bytes.length < 300)
    (at' : S.At path p u) (junk : Word) : fs.listedTable d junk path = .ok u.table := by
  obtain ⟨parent, split, same⟩ := splitPath_slash bytes fits
  exact mounted.listedTable sound split (same ▸ at'.walk) at'.file at'.isDir junk

end

omit e in
theorem fits_of_listed {t : Dir} (shown : fs.listedTable d junk path = .ok t) : path.bytes.length < 300 := by
  obtain ⟨_, -, shown⟩ := bind_ok shown
  obtain ⟨_, split, -⟩ := bind_ok shown
  exact fits_of_ok split

/-! ## Going down -/

/-- The lines of a pair of a depth and an entry. -/
def shown (lines : List (Nat × DirectoryEntry)) : List Line := lines.map fun l => treeLine l.1 l.2

/-- The loop of `recursiveList`, when each entry comes with what is below it. -/
theorem preorder_loop {f : DirectoryEntry → Exec (List Line)} (each : ∀ e ∈ roots, ∃ below,
    Preorder (entriesBelow d) (layer + 1) (entriesBelow d e) below ∧ f e = .ok (shown ((layer, e) :: below))) :
    ∃ lines, (do
      let printed ← roots.mapM f
      pure printed.flatten : Exec (List Line)) = .ok (shown lines) ∧ Preorder (entriesBelow d) layer roots lines := by
  induction roots with
  | nil => exact ⟨[], rfl, .nil⟩
  | cons e rest ih =>
    obtain ⟨here, others⟩ := List.forall_mem_cons.1 each
    obtain ⟨below, order, run⟩ := here
    obtain ⟨after, run', order'⟩ := ih others
    obtain ⟨groups, loop, same⟩ := bind_ok run'
    obtain same := Except.ok.inj same
    refine ⟨(layer, e) :: (below ++ after), ?_, order.cons order'⟩
    rw [List.mapM_cons, run, ok_bind, loop]
    refine congrArg Except.ok ?_
    rw [List.flatten_cons, same, shown, shown, shown, ← List.map_append]
    rfl

namespace Listable
variable (ok : Listable d fs S)
include ok

omit ok in
theorem entry (file : S p = some u) (isDir : u.isDir = true) (mem : e ∈ u.table.entries) : ∃ i, S.Entry p i e := by
  obtain ⟨i, hi, rfl, used⟩ := Directory.mem_entries.1 mem
  exact ⟨i, u, file, isDir, hi, rfl, used⟩

theorem lookup (file : S p = some u) (isDir : u.isDir = true) (mem : e ∈ u.table.entries) :
    u.table.lookup (toKey e.fileName).bytes = some e := by
  obtain ⟨i, hi, here, -⟩ := Directory.mem_entries.1 mem
  obtain ⟨clean, -⟩ := ok.plain file isDir
  have name : e.fileName = key e.name.toList := (here ▸ clean i hi).fileName_eq
  apply (ok.distinct file isDir).lookup mem
  rw [toKey, key_key, name, key_key]

/-- The child an entry in use is for. -/
theorem child (file : S p = some u) (isDir : u.isDir = true) (mem : e ∈ u.table.entries) :
    S.child p (toKey e.fileName) = some e.sector.toNat := by
  rw [Store.child_eq file isDir, ok.lookup file isDir mem]
  rfl

/-- The entries of the directory that an entry names. -/
theorem below {i : Nat} (entry : S.Entry p i e) (isDir : e.dir ≠ 0) :
    ∃ v, S e.sector.toNat = some v ∧ v.isDir = true ∧ entriesBelow d e = v.table.entries := by
  have tidy := ok.sound.toTidy
  obtain ⟨-, v, file, kind⟩ := tidy.named entry
  refine ⟨v, file, kind.1 isDir, ?_⟩
  rw [entriesBelow, if_neg isDir, ok.mounted.rep.tableAt tidy file (kind.1 isDir)]

/-- **A rebuilt path leads to the directory it is built for**, if that has a name. -/
theorem subPath {s : List Byte} (bytes : path.bytes = s ++ [slash]) (at' : S.At path p u) (mem : e ∈ u.table.entries)
    (isDir : e.dir ≠ 0) (named : e.fileName ≠ []) (layer : Nat) :
    ∃ v, S.At (subPath path layer e) e.sector.toNat v ∧ entriesBelow d e = v.table.entries := by
  obtain ⟨i, entry⟩ := entry at'.file at'.isDir mem
  obtain ⟨v, file, kind, below⟩ := ok.below entry isDir
  refine ⟨v, ⟨?_, file, kind⟩, below⟩
  have walk := at'.walk
  rw [Store.walk] at walk
  rw [tokens_subPath bytes ((ok.plain at'.file at'.isDir).2 e mem), if_neg named, Store.walk, List.map_append,
    List.map_singleton, Tree.follow_snoc, walk, Option.bind_some, ok.child at'.file at'.isDir mem]

omit ok in
/-- The path built for a directory without a name leads back. -/
theorem subPath_back {s : List Byte} (bytes : path.bytes = s ++ [slash]) (at' : S.At path p u) (empty : e.fileName = [])
    (layer : Nat) : S.At (Mp4.subPath path layer e) p u := by
  refine ⟨?_, at'.file, at'.isDir⟩
  rw [tokens_subPath bytes (empty ▸ List.not_mem_nil), if_pos empty, List.append_nil]
  exact at'.walk

/-- **The listing of the tree**: every directory below is named and its path fits. -/
theorem recursiveList {s : List Byte} (bytes : path.bytes = s ++ [slash]) (at' : S.At path p u) (junk : Word) (depth : Nat)
    (deep : 300 ≤ depth + path.bytes.length) (opens : Opens d layer path.bytes.length u.table.entries) :
    ∃ lines, fs.recursiveList d junk depth path layer = .ok (shown lines) ∧
      Preorder (entriesBelow d) layer u.table.entries lines := by
  induction depth generalizing path layer p u s with
  | zero =>
    have := (opens_iff.1 opens).1
    omega
  | succ depth ih =>
    obtain ⟨fits, down⟩ := opens_iff.1 opens
    obtain ⟨clean, -⟩ := ok.plain at'.file at'.isDir
    -- one entry with what is below it
    have each : ∀ e ∈ u.table.entries, ∃ below, Preorder (entriesBelow d) (layer + 1) (entriesBelow d e) below ∧
        (do
          printName e
          if e.dir ≠ 0 then do
            let below ← fs.recursiveList d junk depth (Mp4.subPath path layer e) (layer + 1)
            pure (treeLine layer e :: below)
          else pure [treeLine layer e] : Exec (List Line)) =
        .ok (shown ((layer, e) :: below)) := by
      intro e mem
      obtain ⟨i, hi, here, -⟩ := Directory.mem_entries.1 mem
      have print : printName e = .ok () := (here ▸ clean i hi).printName
      by_cases isDir : e.dir = 0
      · refine ⟨[], ?_, ?_⟩
        · rw [entriesBelow, if_pos isDir]
          exact .nil
        · rw [print, ok_bind, if_neg (not_not.2 isDir)]
          rfl
      · obtain ⟨named, opens⟩ := down e mem isDir
        obtain ⟨v, at'', below⟩ := ok.subPath bytes at' mem isDir named layer
        have longer : path.bytes.length < (Mp4.subPath path layer e).bytes.length := by
          rw [length_subPath]
          omega
        rw [below, ← length_subPath] at opens
        obtain ⟨lines, run, order⟩ := ih rfl at'' (by omega) opens
        refine ⟨lines, below ▸ order, ?_⟩
        rw [print, ok_bind, if_pos isDir, run]
        rfl
    rw [FileSystem.recursiveList, ok.mounted.listed ok.sound bytes fits at' junk, ok_bind]
    exact preorder_loop each

omit ok in
/-- What a listing that returns has shown before it returns. -/
theorem ran {depth : Nat} {out : List Line} (run : fs.recursiveList d junk depth path layer = .ok out) :
    ∃ below t, depth = below + 1 ∧ fs.listedTable d junk path = .ok t ∧ ∀ e ∈ t.entries, e.dir ≠ 0 →
      ∃ lines, fs.recursiveList d junk below (Mp4.subPath path layer e) (layer + 1) = .ok lines := by
  cases depth with
  | zero => cases run
  | succ depth =>
    rw [FileSystem.recursiveList] at run
    obtain ⟨t, shown, run⟩ := bind_ok run
    obtain ⟨groups, loop, -⟩ := bind_ok run
    refine ⟨depth, t, rfl, shown, fun e mem isDir => ?_⟩
    obtain ⟨b, body⟩ := mapM_mem loop mem
    obtain ⟨_, -, body⟩ := bind_ok body
    rw [if_pos isDir] at body
    obtain ⟨lines, inner, -⟩ := bind_ok body
    exact ⟨lines, inner⟩

/-- **A directory without a name** is listed inside itself until the path is too long. -/
theorem not_returns {s : List Byte} (bytes : path.bytes = s ++ [slash]) (at' : S.At path p u) (mem : e ∈ u.table.entries)
    (isDir : e.dir ≠ 0) (empty : e.fileName = []) {depth : Nat} {out : List Line} :
    fs.recursiveList d junk depth path layer ≠ .ok out := by
  induction depth generalizing path layer s out with
  | zero =>
    intro run
    cases run
  | succ depth ih =>
    intro run
    obtain ⟨_, t, same, table, inner⟩ := ran run
    cases same
    rw [ok.mounted.listed ok.sound bytes (fits_of_listed table) at' junk] at table
    cases table
    obtain ⟨lines, run⟩ := inner e mem isDir
    exact ih rfl (subPath_back bytes at' empty layer) run

/-- A listing that returns has opened every directory below. -/
theorem opens_of_returns {s : List Byte} (bytes : path.bytes = s ++ [slash]) (at' : S.At path p u) {depth : Nat}
    {out : List Line} (run : fs.recursiveList d junk depth path layer = .ok out) :
    Opens d layer path.bytes.length u.table.entries := by
  induction depth generalizing path layer p u s out with
  | zero => cases run
  | succ depth ih =>
    obtain ⟨_, t, same, table, inner⟩ := ran run
    cases same
    have fits := fits_of_listed table
    rw [ok.mounted.listed ok.sound bytes fits at' junk] at table
    cases table
    refine opens_iff.2 ⟨fits, fun e mem isDir => ?_⟩
    have named : e.fileName ≠ [] := fun empty => ok.not_returns bytes at' mem isDir empty run
    obtain ⟨lines, run'⟩ := inner e mem isDir
    obtain ⟨v, at'', below⟩ := ok.subPath bytes at' mem isDir named layer
    refine ⟨named, ?_⟩
    rw [below, ← length_subPath]
    exact ih rfl at'' run'

end Listable

end Nachos.Mp4
