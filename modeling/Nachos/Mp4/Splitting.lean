import Nachos.Base.StringBuffer
import Nachos.Mp4.FileSystem

/-!
# Path strings in their buffers

`SplitPath`, and the `strtok` loop of `OpenDir`, on the buffers of 500 bytes that `Create`, `Open`, `Remove`
and `CreateDirectory` allocate, whatever these hold before. The fault of an access outside of a buffer
does not occur on a path that begins with a slash and is shorter than 300 characters.
-/

namespace Nachos.Mp4
open Bytes StringBuffer

/-! ## The functions -/

/-- An access outside of a buffer is a fault. -/
def checked {α : Type} : Option α → Exec α
  | none => throw .outOfBounds
  | some a => pure a

/-- The loop of `SplitPath` below index `i`: the `idx` it leaves. -/
def scanBack (parentDir : List Byte) : ℕ → Option ℤ
  | 0 => some (-1)
  | i + 1 => do if (← load parentDir i) = slash then pure (i : ℤ) else scanBack parentDir i

/-- `FileSystem::SplitPath`, from the bytes behind its three pointers. -/
def splitBuffers (fullpath parentDir targetName : List Byte) : Option (List Byte × List Byte) := do
  let parentDir ← strncpy parentDir fullpath 300
  let idx ← scanBack parentDir (← strlen parentDir)
  -- change the last / into \0 in parent_dir
  let parentDir ← if 0 ≤ idx then store parentDir idx.toNat 0 else none
  let targetName ← strncpy targetName (parentDir.drop (idx + 1).toNat) 300
  if (← strlen parentDir) = 0 then pure (← strcpy parentDir [slash, 0], targetName)
  else pure (parentDir, targetName)

/-- The strings of `Create`: `parent_path`, `target_name`, and the token `temp` or `NULL`. -/
def createStrings (name parentPath targetName tempPath : List Byte) : Option (List Byte × List Byte × Option (List Byte)) := do
  let (parentPath, targetName) ← splitBuffers name parentPath targetName
  let tempPath ← strcpy tempPath parentPath
  let (tempPath, _, temp) ← strtok slash tempPath 0
  pure (parentPath, targetName, temp.map fun temp => cstr (tempPath.drop temp))

/-- The loop of `OpenDir`: `temp` points into `newPath`, and `saved` is what `strtok` keeps. -/
def openDirLoop (d : Disk) : ℕ → List Byte → ℕ → Option ℕ → Dir → Word → Exec (Option Word)
  | _, _, _, none, _, sector => pure (some sector)
  | 0, _, _, some _, _, _ => throw .diverges
  | fuel + 1, newPath, saved, some temp, directory, _ => do
    let sector := directory.find (cstr (newPath.drop temp))
    if sector = -1 then pure none
    else
      let directory ← directory.fetchFrom d (← openFile d sector)
      let (newPath, saved, temp) ← checked (strtok slash newPath saved)
      openDirLoop d fuel newPath saved temp directory sector

/-- `FileSystem::OpenDir`, with the buffer it allocates. -/
def openDirBuffer (fuel : ℕ) (d : Disk) (fs : FileSystem) (junk : Word) (newPath parentPath : List Byte) :
    Exec (Option OpenFile) := do
  let newPath ← checked (strcpy newPath parentPath)
  let directory ← (Directory.new numDirEntries).fetchFrom d fs.directoryFile
  let (newPath, saved, temp) ← checked (strtok slash newPath 0)
  match ← openDirLoop d fuel newPath saved temp directory junk with
  | none => pure none
  | some sector => do pure (some (← openFile d sector))

/-! ## The components -/

variable {b s name : List Byte}

/-- The tokens are what stands between slashes. -/
theorem tokensAfter_eq {token : List Byte} (word : slash ∉ token) (s : List Byte) :
    tokensAfter token s = components slash (token ++ s) := by
  induction s generalizing token with
  | nil =>
    rw [tokensAfter, List.append_nil]
    split
    case isTrue empty => rw [empty, components_nil]
    case isFalse some => rw [components_word word some]
  | cons c s ih =>
    rw [tokensAfter]
    split
    case isTrue same =>
      subst same
      rw [components_append]
      split
      case isTrue empty => rw [empty, components_nil, ih List.not_mem_nil, List.nil_append, List.nil_append]
      case isFalse some => rw [components_word word some, ih List.not_mem_nil, List.nil_append, List.singleton_append]
    case isFalse other =>
      have longer : slash ∉ token ++ [c] := by simp [word, Ne.symm other]
      rw [ih longer, List.append_assoc, List.singleton_append]

theorem tokens_eq (s : List Byte) : tokens s = components slash s := tokensAfter_eq List.not_mem_nil s

/-! ## `SplitPath` -/

theorem scanBack_eq {tail : List Byte} (word : slash ∉ name) : ∀ i ≤ name.length,
    scanBack (s ++ slash :: (name ++ tail)) (s.length + 1 + i) = some (s.length : ℤ) := by
  intro i
  induction i with
  | zero =>
    intro _
    rw [Nat.add_zero, scanBack, load, List.getElem?_append_right le_rfl, Nat.sub_self]
    change (if slash = slash then some (s.length : ℤ) else scanBack (s ++ slash :: (name ++ tail)) s.length) = _
    exact if_pos rfl
  | succ i ih =>
    intro bound
    have here : (s ++ slash :: (name ++ tail))[s.length + 1 + i]? = some (name.get ⟨i, bound⟩) := by
      rw [List.getElem?_append_right (by omega), show s.length + 1 + i - s.length = i + 1 by omega, List.getElem?_cons_succ,
        List.getElem?_append_left bound, List.getElem?_eq_getElem bound, List.get_eq_getElem]
    have other : name.get ⟨i, bound⟩ ≠ slash := fun same => word (same ▸ List.get_mem name _)
    rw [← Nat.add_assoc, scanBack, load, here]
    change (if name.get ⟨i, bound⟩ = slash then _ else _) = _
    rw [if_neg other, ih (Nat.le_of_succ_le bound)]

/-- The parent that `SplitPath` leaves for what stands before the last slash. -/
def parentOf (s : List Byte) : List Byte := if s = [] then [slash] else s

theorem components_parentOf (s : List Byte) : components slash (parentOf s) = components slash s := by
  unfold parentOf
  split
  case isTrue empty =>
    rw [empty]
    exact components_cons slash []
  case isFalse => rfl

theorem splitPath_eq {path : CString} (bytes : path.bytes = s ++ slash :: name) (word : slash ∉ name)
    (fits : path.bytes.length < 300) : splitPath path = .ok (parentOf s, name) := by
  have scan : lastSlash path.bytes path.bytes.length = some s.length := by
    have found := lastSlash_eq (s := s) word name.length (by simp; omega)
    rw [bytes]
    rwa [show s.length + 1 + name.length = (s ++ slash :: name).length by simp; omega] at found
  rw [splitPath, if_pos fits, scan]
  dsimp only
  rw [bytes, List.take_left, List.drop_append, List.drop_of_length_le (Nat.le_succ _), Nat.add_sub_cancel_left]
  simp only [parentOf, List.length_eq_zero_iff]
  rfl

/-- **`SplitPath` on its buffers** leaves the two strings, and stays inside. -/
theorem splitBuffers_ok {path : CString} (bytes : path.bytes = s ++ slash :: name) (word : slash ∉ name)
    (fits : path.bytes.length < 300) {fullpath parentDir targetName : List Byte} (held : Holds fullpath path.bytes)
    (sizeParent : parentDir.length = 500) (sizeTarget : targetName.length = 500) :
    ∃ P T, splitBuffers fullpath parentDir targetName = some (P, T) ∧ Holds P (parentOf s) ∧ Holds T name ∧ P.length = 500 := by
  obtain ⟨P, copied, terminated, length⟩ := strncpy_holds held fits (by omega : 300 ≤ parentDir.length)
  have count := strlen_ok terminated
  have scan : scanBack P path.bytes.length = some (s.length : ℤ) := by
    obtain ⟨-, rest, eq⟩ := terminated
    rw [eq, bytes, List.append_assoc, List.cons_append, List.length_append, List.length_cons, Nat.add_comm name.length,
      ← Nat.add_assoc]
    exact scanBack_eq word name.length le_rfl
  rw [bytes] at terminated
  obtain ⟨stored, parent, target⟩ := store_ok (b := P) (i := 0) terminated
  rw [Nat.zero_add] at stored parent target
  have short : name.length < 300 := by
    rw [bytes, List.length_append, List.length_cons] at fits
    omega
  obtain ⟨T, copied', held', -⟩ := strncpy_holds target short (by omega : 300 ≤ targetName.length)
  have length' : (P.set s.length 0).length = 500 := List.length_set.trans (length.trans sizeParent)
  generalize P.set s.length 0 = P' at stored parent copied' length'
  rw [HoldsAt, List.drop_zero] at parent
  have behind : ((s.length : ℤ) + 1).toNat = s.length + 1 := by omega
  have ran : splitBuffers fullpath parentDir targetName =
      if s.length = 0 then (strcpy P' [slash, 0]).map (·, T) else some (P', T) := by
    unfold splitBuffers
    simp only [copied, count, scan, Option.bind_eq_bind, Option.bind_some, Int.natCast_nonneg, if_true, Int.toNat_natCast,
      stored, behind, copied', strlen_ok parent]
    cases strcpy P' [slash, 0] <;> rfl
  rw [ran]
  split
  case isTrue empty =>
    -- the parent is the root
    have root : Holds [slash, 0] [slash] := ⟨by decide, [], rfl⟩
    obtain ⟨P'', top, rooted, length''⟩ := strcpy_holds root (by rw [length']; decide : [slash].length < P'.length)
    rw [top]
    refine ⟨P'', T, rfl, ?_, held', length''.trans length'⟩
    rw [parentOf, if_pos (List.length_eq_zero_iff.1 empty)]
    exact rooted
  case isFalse some =>
    refine ⟨P', T, rfl, ?_, held', length'⟩
    rw [parentOf, if_neg fun empty => some (by rw [empty]; rfl)]
    exact parent

/-! ## The loop of `OpenDir` -/

/-- The loop finds its way along the components, in their order. -/
theorem openDirLoop_ok (d : Disk) {fuel : ℕ} {i : ℕ} {w : List Byte} (holds : HoldsAt b i w) (enough : w.length < fuel)
    (directory : Dir) (sector : Word) :
    (do let (b, saved, temp) ← checked (strtok slash b i); openDirLoop d fuel b saved temp directory sector) =
      FileSystem.walk d (components slash w) directory sector := by
  induction fuel generalizing b i w directory sector with
  | zero => exact absurd enough (Nat.not_lt_zero _)
  | succ fuel ih =>
    obtain ⟨b', j, -, ⟨done, none⟩ | ⟨start, t, v, done, token, others, comps, less⟩⟩ :=
      strtok_ok (by decide : slash ≠ 0) holds
    · rw [done, none]
      rfl
    · rw [done, comps]
      change openDirLoop d (fuel + 1) b' j (some start) directory sector = _
      rw [openDirLoop, FileSystem.walk, token.cstr]
      dsimp only
      split
      · rfl
      · congr 1
        funext file
        congr 1
        funext directory
        exact ih others (by omega) directory _

/-- `strtok` on a string stays inside of its buffer. -/
theorem strtok_isSome {i : ℕ} {w : List Byte} (holds : HoldsAt b i w) : ∃ r, strtok slash b i = some r := by
  obtain ⟨b', j, -, ⟨done, -⟩ | ⟨start, t, v, done, -⟩⟩ := strtok_ok (by decide : slash ≠ 0) holds
  · exact ⟨_, done⟩
  · exact ⟨_, done⟩

/-- **`OpenDir` on its buffer** is `OpenDir` on the components of the path. -/
theorem openDirBuffer_eq (d : Disk) (fs : FileSystem) (junk : Word) {newPath parentPath w : List Byte} (held : Holds parentPath w)
    (fits : w.length < newPath.length) {fuel : ℕ} (enough : w.length < fuel) :
    openDirBuffer fuel d fs junk newPath parentPath = fs.openDir d junk w := by
  obtain ⟨N, copied, holds, -⟩ := strcpy_holds held fits
  obtain ⟨⟨b, saved, temp⟩, first⟩ := strtok_isSome (i := 0) holds
  unfold openDirBuffer FileSystem.openDir
  rw [copied, tokens_eq]
  change (_ >>= fun directory => checked (strtok slash N 0) >>= _) = _
  congr 1
  funext directory
  rw [← openDirLoop_ok (i := 0) d holds enough directory junk, first]
  rfl

/-! ## The path strings of the file system -/

/-- `Create` begins with the first component of the parent. -/
theorem createStrings_eq {fullpath parentDir targetName tempPath P T w : List Byte}
    (split : splitBuffers fullpath parentDir targetName = some (P, T)) (held : Holds P w) (fits : w.length < tempPath.length) :
    createStrings fullpath parentDir targetName tempPath = some (P, T, (components slash w).head?) := by
  obtain ⟨N, copied, holds, -⟩ := strcpy_holds held fits
  unfold createStrings
  rw [split]
  change (strcpy tempPath P >>= _) = _
  rw [copied]
  change (strtok slash N 0 >>= _) = _
  obtain ⟨b', j, -, ⟨done, none⟩ | ⟨start, t, v, done, token, -, comps, -⟩⟩ := strtok_ok (i := 0) (by decide : slash ≠ 0) holds
  · rw [done, none]
    rfl
  · rw [done, comps]
    change some (P, T, some (cstr (b'.drop start))) = _
    rw [token.cstr]
    rfl

/-- A path that does not end with a slash has a last component. -/
theorem exists_last {path : CString} (absolute : path.Absolute) (fits : path.bytes.length < 300)
    (final : path.bytes.getLast? ≠ some slash) : ∃ s name, path.bytes = s ++ slash :: name ∧ slash ∉ name ∧ name ≠ [] := by
  obtain ⟨parent, name, split⟩ := absolute.splitPath fits
  obtain ⟨s, bytes, word, -⟩ := splitPath_ok split
  refine ⟨s, name, bytes, word, ?_⟩
  rintro rfl
  rw [bytes, List.getLast?_append_cons] at final
  exact final rfl

/-- **Path splitting.** For a path that begins with a slash, does not end with one and has fewer than 300 characters,
whatever the buffers hold: no access is outside of them, the components of the parent and the target are those of the path,
and `strtok` visits those of the parent in `Create` and in `OpenDir`. -/
theorem path_components {path : CString} (absolute : path.Absolute) (fits : path.bytes.length < 300)
    (final : path.bytes.getLast? ≠ some slash) {fullpath parentDir targetName tempPath newPath : List Byte}
    (held : Holds fullpath path.bytes) (sizeParent : parentDir.length = 500) (sizeTarget : targetName.length = 500)
    (sizeTemp : tempPath.length = 500) (sizeNew : newPath.length = 500) :
    ∃ P T parent target, splitBuffers fullpath parentDir targetName = some (P, T) ∧ Holds P parent ∧ Holds T target ∧
      components slash parent ++ [target] = components slash path.bytes ∧ slash ∉ target ∧
      createStrings fullpath parentDir targetName tempPath = some (P, T, (components slash parent).head?) ∧
      (∃ N, strcpy newPath P = some N ∧ strtokAll slash 500 N 0 = some (components slash parent)) ∧
      (∀ d fs junk, openDirBuffer 500 d fs junk newPath P = fs.openDir d junk parent) ∧
      splitPath path = .ok (parent, target) := by
  obtain ⟨s, name, bytes, word, some⟩ := exists_last absolute fits final
  obtain ⟨P, T, split, parent, target, sizeP⟩ := splitBuffers_ok bytes word fits held sizeParent sizeTarget
  have short := parent.length_lt
  refine ⟨P, T, parentOf s, name, split, parent, target, ?_, word, ?_, ?_, ?_, splitPath_eq bytes word fits⟩
  · rw [components_parentOf, bytes, components_append, components_word word some]
  · exact createStrings_eq split parent (by omega)
  · obtain ⟨N, copied, holds, -⟩ := strcpy_holds parent (by omega : (parentOf s).length < newPath.length)
    exact ⟨N, copied, strtokAll_ok (i := 0) (by decide) holds (by omega)⟩
  · intro d fs junk
    exact openDirBuffer_eq d fs junk parent (by omega) (by omega)

/-- `/a//b`, in its buffer. -/
def doubled : CString where
  bytes := [slash, 97, slash, slash, 98]
  noNul := by decide

theorem path_components_doubled : ∃ P T parent target,
    splitBuffers (doubled.bytes ++ [0]) (.replicate 500 1) (.replicate 500 2) = some (P, T) ∧ Holds P parent ∧ Holds T target ∧
      components slash parent ++ [target] = [[97], [98]] := by
  have absolute : doubled.Absolute := rfl
  have held : Holds (doubled.bytes ++ [0]) doubled.bytes := ⟨by decide, [], rfl⟩
  obtain ⟨P, T, parent, target, split, hP, hT, comps, -⟩ := path_components absolute (by decide) (by decide) held
    (List.length_replicate (n := 500) (a := 1)) (List.length_replicate (n := 500) (a := 2))
    (List.length_replicate (n := 500) (a := 3)) (List.length_replicate (n := 500) (a := 4))
  exact ⟨P, T, parent, target, split, hP, hT, comps.trans rfl⟩

end Nachos.Mp4
