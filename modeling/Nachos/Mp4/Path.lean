import Nachos.Mp4.Directory

/-!
# Path strings

`FileSystem::SplitPath` and the `strtok(.., "/")` loops of `filesys/filesys.cc`. A C
string is its bytes without the terminator. `SplitPath` copies at most 300 bytes into a buffer of
500, so that it reads on in uninitialised bytes where a path is not shorter than that: such a call
is a fault here.
-/

namespace Nachos.Mp4
open Bytes

/-- A C string: bytes other than the terminator. -/
structure CString where
  bytes : List Byte
  noNul : ∀ x ∈ bytes, x ≠ 0

/-- `'/'`. -/
def slash : Byte := 47

/-- The loop of `SplitPath`, which looks for a slash below index `i`. -/
def lastSlash (s : List Byte) : Nat → Option Nat
  | 0 => none
  | i + 1 => if s.getD i 0 = slash then some i else lastSlash s i

/-- `FileSystem::SplitPath`: `parent_dir` and `target_name`. Without a slash the
terminator is stored in front of the buffer. -/
def splitPath (fullpath : CString) : Exec (List Byte × List Byte) :=
  if fullpath.bytes.length < 300 then
    match lastSlash fullpath.bytes fullpath.bytes.length with
    | none => throw .outOfBounds
    | some idx =>
      let parentDir := fullpath.bytes.take idx
      pure (if parentDir.length = 0 then [slash] else parentDir, fullpath.bytes.drop (idx + 1))
  else throw .unterminated

/-- The tokens `strtok` returns after the bytes `token` of one it has begun. -/
def tokensAfter (token : List Byte) : List Byte → List (List Byte)
  | [] => if token = [] then [] else [token]
  | c :: s =>
    if c = slash then if token = [] then tokensAfter [] s else token :: tokensAfter [] s
    else tokensAfter (token ++ [c]) s

/-- The successive results of `strtok(s, "/")`. -/
def tokens (s : List Byte) : List (List Byte) := tokensAfter [] s

/-- A path component of one to nine characters. -/
structure FileName where
  bytes : List Byte
  pos : 0 < bytes.length
  le : bytes.length ≤ fileNameMaxLen
  noSlash : slash ∉ bytes
  noNul : ∀ x ∈ bytes, x ≠ 0

theorem FileName.ext {a b : FileName} (h : a.bytes = b.bytes) : a = b := by
  cases a; cases b; cases h; rfl

/-- A component of one character. -/
def FileName.single (c : Byte) (h : c ≠ slash ∧ c ≠ 0) : FileName where
  bytes := [c]
  pos := Nat.one_pos
  le := by simp [fileNameMaxLen]
  noSlash := by simpa using h.1.symm
  noNul := by simpa using h.2

/-- The components, each behind a slash. -/
def joined (p : List FileName) : List Byte := p.flatMap fun c => slash :: c.bytes

theorem noNul_joined (p : List FileName) : ∀ x ∈ joined p, x ≠ 0 := by
  intro x hx
  obtain ⟨c, -, hc⟩ := List.mem_flatMap.1 hx
  rcases List.mem_cons.1 hc with rfl | h
  · decide
  · exact c.noNul x h

/-- The absolute path string with the given components. -/
def pathString (p : List FileName) : CString where
  bytes := if p = [] then [slash] else joined p
  noNul := by
    split
    · decide
    · exact noNul_joined p

theorem length_joined_le (p : List FileName) : (joined p).length ≤ 10 * p.length := by
  induction p with
  | nil => exact le_rfl
  | cons c p ih =>
    have := c.le
    rw [fileNameMaxLen] at this
    rw [joined, List.flatMap_cons, List.length_append, List.length_cons, List.length_cons, ← joined]
    omega

theorem length_pathString_le (p : List FileName) : (pathString p).bytes.length ≤ 10 * p.length + 1 := by
  have := length_joined_le p
  rw [pathString]
  dsimp only
  split
  · rw [List.length_singleton]
    omega
  · omega

/-- A path of few components fits the buffer of `SplitPath`. -/
theorem fits_of_length {p : List FileName} (h : p.length ≤ 29) : (pathString p).bytes.length < 300 := by
  have := length_pathString_le p
  omega

/-! ## Splitting a path string -/

theorem tokensAfter_append {w : List Byte} (hw : slash ∉ w) : ∀ (token rest : List Byte),
    tokensAfter token (w ++ rest) = tokensAfter (token ++ w) rest := by
  induction w with
  | nil => simp
  | cons c w ih =>
    intro token rest
    rw [List.mem_cons, not_or] at hw
    obtain ⟨hc, hw⟩ := hw
    rw [List.cons_append, tokensAfter, if_neg (Ne.symm hc), ih hw]
    simp

theorem tokensAfter_joined : ∀ (p : List FileName) (token : List Byte),
    tokensAfter token (joined p) = (if token = [] then [] else [token]) ++ p.map (·.bytes)
  | [], token => by simp [joined, tokensAfter]
  | c :: p, token => by
    have hc : c.bytes ≠ [] := List.ne_nil_of_length_pos c.pos
    have ih := tokensAfter_joined p c.bytes
    rw [if_neg hc] at ih
    have e : joined (c :: p) = slash :: (c.bytes ++ joined p) := by simp [joined]
    rw [e, tokensAfter, if_pos rfl, tokensAfter_append c.noSlash, List.nil_append, ih]
    split <;> simp

/-- `strtok` gives back the components. -/
theorem tokens_joined (p : List FileName) : tokens (joined p) = p.map (·.bytes) := by
  rw [tokens, tokensAfter_joined]
  simp

theorem lastSlash_eq {s w : List Byte} (hw : slash ∉ w) : ∀ (i : Nat), s.length + 1 + i ≤ (s ++ slash :: w).length →
    lastSlash (s ++ slash :: w) (s.length + 1 + i) = some s.length
  | 0, _ => by
    rw [Nat.add_zero, lastSlash, if_pos]
    simp [List.getD_eq_getElem?_getD]
  | i + 1, h => by
    simp only [List.length_append, List.length_cons] at h
    rw [← Nat.add_assoc, lastSlash, if_neg, lastSlash_eq hw i (by simp; omega)]
    rw [List.getD_eq_getElem?_getD, List.getElem?_append_right (by omega),
      show s.length + 1 + i - s.length = i + 1 by omega, List.getElem?_cons_succ, List.getElem?_eq_getElem (by omega)]
    exact fun e => hw (e ▸ List.getElem_mem _)

/-- **`SplitPath`** of a path that fits the buffer: the tokens of the parent are the
components before the last. -/
theorem splitPath_snoc {p : List FileName} {c : FileName} (fits : (pathString (p ++ [c])).bytes.length < 300) :
    ∃ parent, splitPath (pathString (p ++ [c])) = .ok (parent, c.bytes) ∧ tokens parent = p.map (·.bytes) := by
  have e : (pathString (p ++ [c])).bytes = joined p ++ slash :: c.bytes := by
    simp [pathString, joined]
  have hl : lastSlash (joined p ++ slash :: c.bytes) (joined p ++ slash :: c.bytes).length = some (joined p).length := by
    have := lastSlash_eq (s := joined p) c.noSlash c.bytes.length (by simp; omega)
    rwa [show (joined p).length + 1 + c.bytes.length = (joined p ++ slash :: c.bytes).length by simp; omega] at this
  rw [splitPath, if_pos fits]
  simp only [e, hl]
  rw [List.take_left, List.drop_append, List.drop_of_length_le (by omega), List.nil_append,
    show (joined p).length + 1 - (joined p).length = 1 by omega, List.drop_one, List.tail_cons]
  refine ⟨_, rfl, ?_⟩
  split
  · rename_i h0
    have : p = [] := by
      cases p with
      | nil => rfl
      | cons a p => simp [joined] at h0
    rw [this]
    rfl
  · exact tokens_joined p

/-- `SplitPath` of `"/"`: an empty target in the root directory. -/
example : splitPath (pathString []) = .ok ([slash], []) := rfl

theorem splitPath_long {name : CString} (h : 300 ≤ name.bytes.length) : splitPath name = .error .unterminated :=
  if_neg (by omega)

theorem fits_of_ok {name : CString} {r : List Byte × List Byte} (h : splitPath name = .ok r) : name.bytes.length < 300 := by
  by_contra long
  rw [splitPath_long (by omega)] at h
  cases h

/-! ## Absolute paths -/

/-- The path starts with a slash. -/
def CString.Absolute (path : CString) : Prop := path.bytes.head? = some slash

theorem lastSlash_some {s : List Byte} {n idx : Nat} (h : lastSlash s n = some idx) :
    idx < n ∧ s.getD idx 0 = slash ∧ ∀ j, idx < j → j < n → s.getD j 0 ≠ slash := by
  induction n with
  | zero => cases h
  | succ n ih =>
    rw [lastSlash] at h
    split at h
    · rename_i here
      cases h
      exact ⟨Nat.lt_succ_self _, here, fun j above below => by omega⟩
    · rename_i other
      obtain ⟨lt, here, none'⟩ := ih h
      refine ⟨by omega, here, fun j above below => ?_⟩
      rcases Nat.lt_succ_iff_lt_or_eq.1 below with below | rfl
      · exact none' j above below
      · exact other

theorem lastSlash_none {s : List Byte} {n : Nat} (h : lastSlash s n = none) : ∀ j < n, s.getD j 0 ≠ slash := by
  induction n with
  | zero => exact fun j hj => absurd hj (Nat.not_lt_zero j)
  | succ n ih =>
    rw [lastSlash] at h
    split at h
    · cases h
    · rename_i other
      intro j hj
      rcases Nat.lt_succ_iff_lt_or_eq.1 hj with hj | rfl
      · exact ih h j hj
      · exact other

/-- `strtok` starts afresh behind a slash. -/
theorem tokensAfter_slash (s w : List Byte) : ∀ token, tokensAfter token (s ++ slash :: w) = tokensAfter token s ++ tokens w := by
  induction s with
  | nil =>
    intro token
    rw [List.nil_append, tokensAfter.eq_def token (slash :: w), tokensAfter, tokens]
    dsimp only
    rw [if_pos rfl]
    split
    · rfl
    · rfl
  | cons c s ih =>
    intro token
    rw [List.cons_append, tokensAfter, tokensAfter]
    split
    · split
      · exact ih []
      · rw [ih [], List.cons_append]
    · exact ih _

theorem tokens_word {w : List Byte} (hw : slash ∉ w) : tokens w = if w = [] then [] else [w] := by
  have := tokensAfter_append hw [] []
  rwa [List.append_nil, List.nil_append] at this

/-- What `SplitPath` cuts apart. -/
theorem splitPath_ok {path : CString} {parent name : List Byte} (split : splitPath path = .ok (parent, name)) :
    ∃ s, path.bytes = s ++ slash :: name ∧ slash ∉ name ∧ tokens parent = tokens s := by
  have fits := fits_of_ok split
  rw [splitPath, if_pos fits] at split
  cases found : lastSlash path.bytes path.bytes.length with
  | none =>
    rw [found] at split
    cases split
  | some idx =>
    rw [found] at split
    cases split
    obtain ⟨lt, here, others⟩ := lastSlash_some found
    rw [List.getD_eq_getElem _ _ lt] at here
    refine ⟨path.bytes.take idx, ?_, ?_, ?_⟩
    · rw [← here, List.getElem_cons_drop, List.take_append_drop]
    · intro mem
      obtain ⟨j, hj, e⟩ := List.mem_iff_getElem.1 mem
      rw [List.length_drop] at hj
      rw [List.getElem_drop] at e
      apply others (idx + 1 + j) (by omega) (by omega)
      rw [List.getD_eq_getElem _ _ (by omega), e]
    · split
      · rename_i empty
        rw [List.eq_nil_of_length_eq_zero empty]
        rfl
      · rfl

/-- The components of a path are those of the parent and the target, which is empty behind a last slash. -/
theorem tokens_split {path : CString} {parent name : List Byte} (split : splitPath path = .ok (parent, name)) :
    tokens path.bytes = tokens parent ++ if name = [] then [] else [name] := by
  obtain ⟨s, bytes, word, same⟩ := splitPath_ok split
  rw [bytes, tokens, tokensAfter_slash, tokens_word word, same]
  rfl

/-- An absolute path that fits the buffer can be split. -/
theorem CString.Absolute.splitPath {path : CString} (absolute : path.Absolute) (fits : path.bytes.length < 300) :
    ∃ parent name, splitPath path = .ok (parent, name) := by
  rw [Mp4.splitPath, if_pos fits]
  cases found : lastSlash path.bytes path.bytes.length with
  | none =>
    cases e : path.bytes with
    | nil =>
      rw [Absolute, e] at absolute
      cases absolute
    | cons c s =>
      rw [Absolute, e] at absolute
      cases absolute
      exact absurd (by rw [e]; rfl) (lastSlash_none found 0 (by rw [e]; exact Nat.succ_pos _))
  | some idx => exact ⟨_, _, rfl⟩

end Nachos.Mp4
