import Mathlib.Data.List.TakeWhile
import Nachos.Mp4.FileContent

/-!
# `Directory`

`filesys/directory.cc`. A directory is a table of fixed-size entries, kept in a file as
the bytes of the table in memory, padding included. Names are compared over their first
`FileNameMaxLen` bytes, so what matters of a name is its `key`. `lookup` is the entry
`Find` goes by, and `Add` and `Remove` change it at one key.
-/

namespace Nachos.Mp4
open Bytes

/-- `FileNameMaxLen`. -/
def fileNameMaxLen : Nat := 9

/-- `class DirectoryEntry`, with the bytes the compiler leaves before `sector` and after
`name`. -/
structure DirectoryEntry where
  dir : Byte
  inUse : Byte
  gap : Vector Byte 2
  sector : Word
  name : Vector Byte 10
  tail : Vector Byte 2

namespace DirectoryEntry

/-- Byte `i` of an entry in memory. -/
def byte (e : DirectoryEntry) (i : Nat) : Byte :=
  if i < 1 then e.dir
  else if i < 2 then e.inUse
  else if i < 4 then e.gap.toList.getD (i - 2) 0
  else if i < 8 then byteOf e.sector (i - 4)
  else if i < 18 then e.name.toList.getD (i - 8) 0
  else e.tail.toList.getD (i - 18) 0

/-- The entry 20 bytes of memory are. -/
def ofBytes (b : Nat → Byte) : DirectoryEntry where
  dir := b 0
  inUse := b 1
  gap := Vector.ofFn fun i => b (2 + i)
  sector := wordOf (b 4) (b 5) (b 6) (b 7)
  name := Vector.ofFn fun i => b (8 + i)
  tail := Vector.ofFn fun i => b (18 + i)

/-- An entry after `memset(.., 0, ..)`. -/
def zero : DirectoryEntry := ofBytes fun _ => 0

end DirectoryEntry

/-- What `strncmp` sees of a string: its bytes up to the terminator, at most
`FileNameMaxLen` of them. A string is given without its terminator, or as a whole array. -/
def key (s : List Byte) : List Byte := (s.take fileNameMaxLen).takeWhile (· ≠ 0)

/-- `!strncmp(a, b, FileNameMaxLen)`. -/
def sameName (a b : List Byte) : Bool := key a == key b

/-- `strncpy(dst, name, FileNameMaxLen)`. -/
def copyName (dst : Vector Byte 10) (name : List Byte) : Vector Byte 10 :=
  Vector.ofFn fun i => if i.val < fileNameMaxLen then (key name).getD i 0 else dst[i]

structure Directory (tableSize : Nat) where
  table : Vector DirectoryEntry tableSize

namespace Directory
variable {n : Nat}

/-- `Directory::Directory`. -/
def new (n : Nat) : Directory n := ⟨Vector.replicate n .zero⟩

/-- `table[i]`. -/
def entry (t : Directory n) (i : Nat) : DirectoryEntry := t.table.toList.getD i .zero

/-- `table[i] = e`. -/
def setEntry (t : Directory n) (i : Nat) (e : DirectoryEntry) : Directory n := ⟨t.table.setIfInBounds i e⟩

/-- The table in memory. -/
def toBytes (t : Directory n) : List Byte := tabulate (20 * n) fun i => (t.entry (i / 20)).byte (i % 20)

/-- The table that bytes in memory are. -/
def ofBytes (n : Nat) (l : List Byte) : Directory n :=
  ⟨Vector.ofFn fun k => .ofBytes fun i => l.getD (20 * k + i) 0⟩

/-- `Directory::FetchFrom`: a file shorter than the table leaves the rest of it. -/
def fetchFrom (d : Disk) (t : Directory n) (file : OpenFile) : Exec (Directory n) := do
  let bytes ← file.readAt d (20 * n : Nat) 0
  pure (ofBytes n (overwrite t.toBytes 0 bytes))

/-- `Directory::WriteBack`. -/
def writeBack (d : Disk) (t : Directory n) (file : OpenFile) : Exec Disk := do
  let (_, d) ← file.writeAt d (fun i => t.toBytes.getD i 0) (20 * n : Nat) 0
  pure d

/-- `Directory::FindIndex`; `none` is `-1`. -/
def findIndex (t : Directory n) (name : List Byte) : Option Nat :=
  Loop.firstFrom (fun i => (t.entry i).inUse != 0 && sameName (t.entry i).name.toList name) n 0

/-- `Directory::Find`. -/
def find (t : Directory n) (name : List Byte) : Word :=
  match t.findIndex name with
  | some i => (t.entry i).sector
  | none => -1

/-- An entry as `Add` leaves it. -/
def added (e : DirectoryEntry) (name : List Byte) (newSector : Word) (dir : Bool) : DirectoryEntry :=
  { e with inUse := 1, name := copyName e.name name, dir := if dir then 1 else 0, sector := newSector }

/-- `Directory::Add`; `none` is `FALSE`, where the table is unchanged. -/
def add (t : Directory n) (name : List Byte) (newSector : Word) (dir : Bool) : Option (Directory n) :=
  if t.findIndex name ≠ none then none
  else match Loop.firstFrom (fun i => (t.entry i).inUse == 0) n 0 with
    | some i => some (t.setEntry i (added (t.entry i) name newSector dir))
    | none => none

/-- An entry as `Remove` leaves it. -/
def removed (e : DirectoryEntry) : DirectoryEntry := { e with inUse := 0, dir := 0 }

/-- `Directory::Remove`; `none` is `FALSE`. -/
def remove (t : Directory n) (name : List Byte) : Option (Directory n) :=
  match t.findIndex name with
  | some i => some (t.setEntry i (removed (t.entry i)))
  | none => none

/-- The entry `Find` goes by. -/
def lookup (t : Directory n) (name : List Byte) : Option DirectoryEntry := (t.findIndex name).map t.entry

end Directory

/-! ## The table as bytes -/

theorem DirectoryEntry.ofBytes_byte (e : DirectoryEntry) : ofBytes e.byte = e := by
  obtain ⟨dir, inUse, gap, sector, name, tail⟩ := e
  simp only [ofBytes, byte, mk.injEq]
  refine ⟨rfl, rfl, ?_, wordOf_byteOf sector, ?_, ?_⟩
  all_goals
    apply Vector.ext
    intro i hi
    rw [Vector.getElem_ofFn]
  · rw [if_neg (by omega), if_neg (by omega), if_pos (by omega), Nat.add_sub_cancel_left]
    simp [List.getD_eq_getElem?_getD, hi]
  · rw [if_neg (by omega), if_neg (by omega), if_neg (by omega), if_neg (by omega), if_pos (by omega),
      Nat.add_sub_cancel_left]
    simp [List.getD_eq_getElem?_getD, hi]
  · rw [if_neg (by omega), if_neg (by omega), if_neg (by omega), if_neg (by omega), if_neg (by omega),
      Nat.add_sub_cancel_left]
    simp [List.getD_eq_getElem?_getD, hi]

namespace Directory
variable {n : Nat} {t t' : Directory n} {name k : List Byte}

theorem ext_entry {a b : Directory n} (h : ∀ i < n, a.entry i = b.entry i) : a = b := by
  obtain ⟨a⟩ := a
  obtain ⟨b⟩ := b
  congr 1
  apply Vector.ext
  intro i hi
  have := h i hi
  simpa [entry, List.getD_eq_getElem?_getD, hi] using this

theorem entry_ofBytes {l : List Byte} {i : Nat} (hi : i < n) :
    (ofBytes n l).entry i = .ofBytes fun j => l.getD (20 * i + j) 0 := by
  simp [entry, ofBytes, List.getD_eq_getElem?_getD, hi]

@[simp] theorem entry_new (i : Nat) : (new n).entry i = .zero := by
  simp only [entry, new, Vector.toList_replicate, List.getD_eq_getElem?_getD, List.getElem?_replicate]
  split <;> rfl

theorem entry_setEntry (t : Directory n) {i : Nat} (hi : i < n) (e : DirectoryEntry) (j : Nat) :
    (t.setEntry i e).entry j = if j = i then e else t.entry j := by
  have len : t.table.toList.length = n := by simp
  simp only [entry, setEntry, Vector.toList_setIfInBounds, List.getD_eq_getElem?_getD, List.getElem?_set]
  by_cases h : i = j
  · subst h
    simp [len, hi]
  · simp [h, Ne.symm h]

@[simp] theorem length_toBytes (t : Directory n) : t.toBytes.length = 20 * n := length_tabulate _ _

theorem getD_toBytes (t : Directory n) {i : Nat} (hi : i < 20 * n) : t.toBytes.getD i 0 = (t.entry (i / 20)).byte (i % 20) :=
  getD_tabulate _ hi

/-- A table written to memory is read back. -/
@[simp] theorem ofBytes_toBytes (t : Directory n) : ofBytes n t.toBytes = t := by
  refine ext_entry fun i hi => ?_
  rw [entry_ofBytes hi]
  refine Eq.trans ?_ (t.entry i).ofBytes_byte
  have b : ∀ j < 20, t.toBytes.getD (20 * i + j) 0 = (t.entry i).byte j := by
    intro j hj
    rw [getD_toBytes t (by omega)]
    congr 2 <;> omega
  simp only [DirectoryEntry.ofBytes, DirectoryEntry.mk.injEq]
  refine ⟨b 0 (by omega), b 1 (by omega), ?_, ?_, ?_, ?_⟩
  · exact congrArg _ (funext fun j => b _ (by omega))
  · rw [b 4 (by omega), b 5 (by omega), b 6 (by omega), b 7 (by omega)]
  · exact congrArg _ (funext fun j => b _ (by omega))
  · exact congrArg _ (funext fun j => b _ (by omega))

/-- `FetchFrom` a file that holds a whole table. -/
theorem fetchFrom_eq {d : Disk} {f : OpenFile} (hr : Readable f.hdr (20 * n)) (t : Directory n) :
    t.fetchFrom d f = .ok (ofBytes n (content d f.hdr (20 * n))) := by
  rw [fetchFrom, readAt_all hr le_rfl (by have := hr.small; omega), ok_bind, overwrite_all (by simp)]
  rfl

/-- `FetchFrom` an empty file leaves the table. -/
theorem fetchFrom_empty {d : Disk} {f : OpenFile} (hr : Readable f.hdr 0) (small : 20 * n < 2 ^ 31) (t : Directory n) :
    t.fetchFrom d f = .ok t := by
  rw [fetchFrom, readAt_all hr (Nat.zero_le _) small, ok_bind, List.length_eq_zero_iff.1 (length_content d f.hdr 0),
    overwrite_nil, ofBytes_toBytes]
  rfl

/-- `WriteBack` to a file of the table's size. -/
theorem writeBack_eq {d : Disk} {f : OpenFile} (hr : Readable f.hdr (20 * n)) (nodup : f.hdr.datas.Nodup) (t : Directory n) :
    ∃ d', t.writeBack d f = .ok d' ∧ AgreeOff f.hdr.datas d d' ∧ content d' f.hdr (20 * n) = t.toBytes := by
  have len := t.length_toBytes
  obtain ⟨d', hw, ho, hc⟩ := writeAt_all (d := d) (len ▸ hr) nodup
  rw [len] at hw hc
  refine ⟨d', ?_, ho, hc⟩
  rw [writeBack, hw]
  rfl

/-- `WriteBack` to an empty file writes nothing. -/
theorem writeBack_empty {d : Disk} {f : OpenFile} (hs : f.hdr.Shaped 0) (t : Directory n) : t.writeBack d f = .ok d := by
  rw [writeBack, OpenFile.writeAt, hs.fileLength (by omega), Nat.cast_zero, ← Nat.cast_zero (R := Int),
    Request.ofArgs_none (by omega)]
  rfl

/-! ## Names -/

@[simp] theorem sameName_iff {a b : List Byte} : sameName a b = true ↔ key a = key b := by
  rw [sameName, beq_iff_eq]

theorem length_key_le (s : List Byte) : (key s).length ≤ 9 := by
  have := (List.takeWhile_sublist (p := fun x : Byte => decide (x ≠ 0)) (l := s.take fileNameMaxLen)).length_le
  rw [List.length_take, fileNameMaxLen] at this
  exact this.trans (by omega)

theorem ne_zero_of_mem_key {s : List Byte} {x : Byte} (h : x ∈ key s) : x ≠ 0 := by
  have := List.mem_takeWhile_imp h
  simpa using this

/-- A string without a terminator of at most nine bytes is its own key. -/
theorem key_eq {s : List Byte} (h0 : ∀ x ∈ s, x ≠ 0) (hl : s.length ≤ 9) : key s = s := by
  rw [key, fileNameMaxLen, List.take_of_length_le hl, List.takeWhile_eq_self_iff]
  simpa using h0

theorem takeWhile_append_zero {p r : List Byte} (h : ∀ x ∈ p, x ≠ 0) : (p ++ 0 :: r).takeWhile (· ≠ 0) = p := by
  rw [List.takeWhile_append_of_pos (by simpa using h), List.takeWhile_cons_of_neg (by simp), List.append_nil]

/-- `strncpy` then `strncmp`: a copied name compares as the name. -/
theorem key_copyName (dst : Vector Byte 10) (name : List Byte) : key (copyName dst name).toList = key name := by
  have hl := length_key_le name
  have h0 : ∀ x ∈ key name, x ≠ 0 := fun x hx => ne_zero_of_mem_key hx
  -- the nine bytes written are the key and then terminators
  have e : (copyName dst name).toList.take 9 = key name ++ List.replicate (9 - (key name).length) 0 := by
    apply List.ext_getElem
    · simp; omega
    · intro i h1 h2
      have hi : i < 9 := by simp at h1; omega
      simp only [List.getElem_take, Vector.getElem_toList, copyName, Vector.getElem_ofFn, fileNameMaxLen, hi, if_true]
      rw [List.getD_eq_getElem?_getD]
      by_cases c : i < (key name).length
      · rw [List.getElem_append_left c, List.getElem?_eq_getElem c, Option.getD_some]
      · rw [List.getElem_append_right (by omega), List.getElem_replicate, List.getElem?_eq_none (by omega), Option.getD_none]
  rw [key, fileNameMaxLen, e]
  by_cases c : (key name).length = 9
  · rw [c, Nat.sub_self, List.replicate_zero, List.append_nil, List.takeWhile_eq_self_iff]
    simpa using h0
  · rw [show 9 - (key name).length = (8 - (key name).length) + 1 by omega, List.replicate_succ, takeWhile_append_zero h0]

/-! ## `Find`, `Add` and `Remove` -/

theorem byte_one_ne : (1 : Byte) ≠ 0 := by decide

theorem findIndex_some {i : Nat} (h : t.findIndex name = some i) :
    i < n ∧ (t.entry i).inUse ≠ 0 ∧ key (t.entry i).name.toList = key name := by
  obtain ⟨-, hi, hp⟩ := Loop.firstFrom_some h
  exact ⟨by omega, by simpa using hp⟩

theorem findIndex_none : t.findIndex name = none ↔
    ∀ i < n, (t.entry i).inUse ≠ 0 → key (t.entry i).name.toList ≠ key name := by
  rw [findIndex, Loop.firstFrom_none]
  simp only [Nat.zero_le, true_implies, Nat.zero_add]
  refine forall₂_congr fun i _ => ?_
  rw [ne_eq (key _), ← sameName_iff]
  cases sameName (t.entry i).name.toList name <;> simp

/-- Two tables in which the same entries match a name give the same index. -/
theorem findIndex_congr {k' : List Byte} (h : ∀ i < n, (t.entry i).inUse ≠ 0 ∧ key (t.entry i).name.toList = key name ↔
    (t'.entry i).inUse ≠ 0 ∧ key (t'.entry i).name.toList = key k') : t.findIndex name = t'.findIndex k' := by
  apply Loop.firstFrom_congr
  intro i _ hi
  rw [Bool.eq_iff_iff]
  simpa using h i (by omega)

/-- Names with one key are found alike. -/
theorem findIndex_key (h : key name = key k) : t.findIndex name = t.findIndex k :=
  findIndex_congr fun i _ => by rw [h]

/-- What `Add` does: a free entry takes the name. -/
theorem add_some {sector : Word} {dir : Bool} (h : t.add name sector dir = some t') : ∃ i < n,
    t.findIndex name = none ∧ (t.entry i).inUse = 0 ∧ t' = t.setEntry i (added (t.entry i) name sector dir) := by
  unfold add at h
  split at h
  · cases h
  · rename_i hn
    split at h
    · rename_i i hi
      obtain ⟨-, hlt, h0⟩ := Loop.firstFrom_some hi
      cases h
      exact ⟨i, by omega, not_not.1 hn, by simpa using h0, rfl⟩
    · cases h

/-- `Add` fails only when the name is there or every entry is in use. -/
theorem add_none {sector : Word} {dir : Bool} : t.add name sector dir = none ↔
    t.findIndex name ≠ none ∨ ∀ i < n, (t.entry i).inUse ≠ 0 := by
  unfold add
  split
  · rename_i h
    simp [h]
  · rename_i h
    rw [not_not] at h
    split
    · rename_i i hi
      obtain ⟨-, hlt, h0⟩ := Loop.firstFrom_some hi
      simp only [reduceCtorEq, h, ne_eq, not_true_eq_false, false_or, false_iff, not_forall, not_not]
      exact ⟨i, by omega, by simpa using h0⟩
    · rename_i hi
      rw [Loop.firstFrom_none] at hi
      simpa [h] using hi

theorem lookup_none : t.lookup name = none ↔ t.findIndex name = none := by
  rw [lookup, Option.map_eq_none_iff]

theorem lookup_some {e : DirectoryEntry} (h : t.lookup name = some e) :
    ∃ i < n, t.findIndex name = some i ∧ e = t.entry i ∧ e.inUse ≠ 0 ∧ key e.name.toList = key name := by
  obtain ⟨i, hi, rfl⟩ := Option.map_eq_some_iff.1 h
  obtain ⟨hn, hu, hk⟩ := findIndex_some hi
  exact ⟨i, hn, hi, rfl, hu, hk⟩

/-- No two entries in use have one key. -/
def Distinct (t : Directory n) : Prop :=
  ∀ i < n, ∀ j < n, (t.entry i).inUse ≠ 0 → (t.entry j).inUse ≠ 0 →
    key (t.entry i).name.toList = key (t.entry j).name.toList → i = j

/-- The added entry is found under its name, and the others as before. -/
theorem lookup_added {i : Nat} (hi : i < n) (free : (t.entry i).inUse = 0) (fresh : t.findIndex name = none)
    (sector : Word) (dir : Bool) (k : List Byte) :
    (t.setEntry i (added (t.entry i) name sector dir)).lookup k =
      if key k = key name then some (added (t.entry i) name sector dir) else t.lookup k := by
  set t' := t.setEntry i (added (t.entry i) name sector dir) with ht'
  have he : ∀ j, t'.entry j = if j = i then added (t.entry i) name sector dir else t.entry j := entry_setEntry t hi _
  by_cases c : key k = key name
  · rw [if_pos c]
    cases hf : t'.findIndex k with
    | none =>
      have := findIndex_none.1 hf i hi
      rw [he, if_pos rfl, c, added, key_copyName] at this
      exact absurd rfl (this byte_one_ne)
    | some j =>
      obtain ⟨hj, hu, hk⟩ := findIndex_some hf
      by_cases e : j = i
      · rw [lookup, hf, Option.map_some, he, if_pos e]
      · rw [he, if_neg e] at hu hk
        exact absurd (hk.trans c) (findIndex_none.1 fresh j hj hu)
  · rw [if_neg c, lookup, lookup]
    have same : t'.findIndex k = t.findIndex k := findIndex_congr fun j _ => by
      rw [he]
      split
      · rename_i e
        simp only [added, key_copyName, e, free]
        simp [Ne.symm c]
      · rfl
    rw [same]
    cases hf : t.findIndex k with
    | none => rfl
    | some j =>
      have hu := (findIndex_some hf).2.1
      have : j ≠ i := by rintro rfl; exact hu free
      rw [Option.map_some, Option.map_some, he, if_neg this]

/-- The removed name is no longer found, and the others as before. -/
theorem lookup_removed {i : Nat} (hd : t.Distinct) (hf : t.findIndex name = some i) (k : List Byte) :
    (t.setEntry i (removed (t.entry i))).lookup k = if key k = key name then none else t.lookup k := by
  obtain ⟨hi, hu, hk⟩ := findIndex_some hf
  set t' := t.setEntry i (removed (t.entry i)) with ht'
  have he : ∀ j, t'.entry j = if j = i then removed (t.entry i) else t.entry j := entry_setEntry t hi _
  by_cases c : key k = key name
  · rw [if_pos c, lookup_none, findIndex_none]
    intro j hj hu' hk'
    by_cases e : j = i
    · rw [he, if_pos e] at hu'
      exact hu' rfl
    · rw [he, if_neg e] at hu' hk'
      exact e (hd j hj i hi hu' hu (hk'.trans (c.trans hk.symm)))
  · rw [if_neg c, lookup, lookup]
    have same : t'.findIndex k = t.findIndex k := findIndex_congr fun j _ => by
      rw [he]
      split
      · rename_i e
        subst e
        simp only [removed, hk]
        simp [Ne.symm c]
      · rfl
    rw [same]
    cases hk' : t.findIndex k with
    | none => rfl
    | some j =>
      obtain ⟨-, -, hkj⟩ := findIndex_some hk'
      have : j ≠ i := by rintro rfl; exact c (hkj.symm.trans hk)
      rw [Option.map_some, Option.map_some, he, if_neg this]

theorem Distinct.added {i : Nat} (hd : t.Distinct) (hi : i < n) (fresh : t.findIndex name = none) (sector : Word) (dir : Bool) :
    (t.setEntry i (added (t.entry i) name sector dir)).Distinct := by
  have new : ∀ j < n, (t.entry j).inUse ≠ 0 → key (t.entry j).name.toList ≠ key (copyName (t.entry i).name name).toList := by
    intro j hj hu
    rw [key_copyName]
    exact findIndex_none.1 fresh j hj hu
  intro j hj l hl
  rw [entry_setEntry t hi, entry_setEntry t hi]
  split
  · split
    · intros; omega
    · intro _ hu hk
      exact absurd hk.symm (new l hl hu)
  · split
    · intro hu _ hk
      exact absurd hk (new j hj hu)
    · exact hd j hj l hl

theorem Distinct.removed {i : Nat} (hd : t.Distinct) (hi : i < n) :
    (t.setEntry i (removed (t.entry i))).Distinct := by
  intro j hj l hl
  rw [entry_setEntry t hi, entry_setEntry t hi]
  split
  · intro hu
    exact absurd rfl hu
  · split
    · intro _ hu
      exact absurd rfl hu
    · exact hd j hj l hl

theorem distinct_new : (new n).Distinct := by
  intro i _ j _ hu
  rw [entry_new] at hu
  exact absurd rfl hu

theorem lookup_new (k : List Byte) : (new n).lookup k = none := by
  rw [lookup_none, findIndex_none]
  intro i _ hu
  rw [entry_new] at hu
  exact absurd rfl hu

-- a table of 64 entries is never to be evaluated while a goal is elaborated
attribute [irreducible] ofBytes toBytes new

end Directory

end Nachos.Mp4
