import Nachos.Base.CString
import Nachos.Mp4.Directory

/-!
# The entries of a directory

What a table shows of its entries in use. The flags of an entry are 0 or 1, and the tenth
byte of its name, which `strncpy` never writes, stays the terminator that `printf` and
`strcat` stop at: `Add` and `Remove` keep an entry `Clean`.
-/

namespace Nachos.Mp4
open Bytes

namespace DirectoryEntry

/-- The string at `name`. -/
def fileName (e : DirectoryEntry) : List Byte := cstr e.name.toList

/-- The flags are 0 or 1 and the name ends within its array. -/
structure Clean (e : DirectoryEntry) : Prop where
  inUse : e.inUse = 0 ∨ e.inUse = 1
  dir : e.dir = 0 ∨ e.dir = 1
  ends : e.name[9] = 0

variable {e : DirectoryEntry} {name : List Byte} {sector : Word}

theorem clean_zero : zero.Clean where
  inUse := .inl rfl
  dir := .inl rfl
  ends := by rw [zero, ofBytes, Vector.getElem_ofFn]

/-- The last place of an array of ten bytes. -/
theorem name_toList (e : DirectoryEntry) : e.name.toList = e.name.toList.take 9 ++ [e.name[9]] := by
  have len : e.name.toList.length = 10 := by simp
  conv_lhs => rw [← List.take_append_drop 9 e.name.toList]
  rw [List.drop_eq_getElem_cons (by omega), List.drop_eq_nil_of_le (by omega)]
  simp

/-- What is printed of a clean entry is what `Find` compares. -/
theorem Clean.fileName_eq (clean : e.Clean) : e.fileName = key e.name.toList := by
  have front (l : List Byte) : cstr (l ++ [0]) = cstr l := by
    induction l with
    | nil => rfl
    | cons b l ih => rw [List.cons_append, cstr_cons, cstr_cons, ih]
  rw [fileName, name_toList, clean.ends, front, ← clean.ends, ← name_toList]
  rfl

theorem noNul_fileName (e : DirectoryEntry) : ∀ x ∈ e.fileName, x ≠ 0 := by
  rintro x mem rfl
  exact zero_not_mem_cstr _ mem

end DirectoryEntry

namespace Directory
variable {n i : Nat} {t : Directory n} {e : DirectoryEntry} {name : List Byte} {sector : Word} {dir : Bool}

/-- The entries in use, in table order. -/
def entries (t : Directory n) : List DirectoryEntry := ((List.range n).filter fun i => (t.entry i).inUse != 0).map t.entry

theorem mem_entries : e ∈ t.entries ↔ ∃ i < n, t.entry i = e ∧ e.inUse ≠ 0 := by
  simp only [entries, List.mem_map, List.mem_filter, List.mem_range, bne_iff_ne]
  constructor
  · rintro ⟨i, ⟨lt, used⟩, rfl⟩
    exact ⟨i, lt, rfl, used⟩
  · rintro ⟨i, lt, rfl, used⟩
    exact ⟨i, ⟨lt, used⟩, rfl⟩

/-- An entry in use is found by its name. -/
theorem Distinct.lookup (distinct : t.Distinct) (mem : e ∈ t.entries) {k : List Byte}
    (same : key k = key e.name.toList) : t.lookup k = some e := by
  obtain ⟨i, hi, rfl, used⟩ := mem_entries.1 mem
  cases found : t.findIndex k with
  | none => exact absurd same.symm (findIndex_none.1 found i hi used)
  | some j =>
    obtain ⟨hj, used', key'⟩ := findIndex_some found
    rw [Directory.lookup, found, Option.map_some, distinct j hj i hi used' used (key'.trans same)]

@[simp] theorem entries_new (n : Nat) : (new n).entries = [] := by
  rw [List.eq_nil_iff_forall_not_mem]
  intro e mem
  obtain ⟨i, -, rfl, used⟩ := mem_entries.1 mem
  rw [entry_new] at used
  exact used rfl

/-- Every entry is clean. -/
def Clean (t : Directory n) : Prop := ∀ i < n, (t.entry i).Clean

theorem clean_new (n : Nat) : (new n).Clean := by
  intro i _
  rw [entry_new]
  exact DirectoryEntry.clean_zero

/-- An entry that `Add` fills. -/
theorem clean_added (clean : e.Clean) (name : List Byte) (sector : Word) (dir : Bool) : (added e name sector dir).Clean where
  inUse := .inr rfl
  dir := by
    cases dir with
    | false => exact .inl rfl
    | true => exact .inr rfl
  ends := by
    rw [added, copyName, Vector.getElem_ofFn]
    exact clean.ends

/-- An entry that `Remove` frees. -/
theorem clean_removed (clean : e.Clean) : (removed e).Clean := ⟨.inl rfl, .inl rfl, clean.ends⟩

theorem Clean.set (clean : t.Clean) (hi : i < n) (new : e.Clean) : (t.setEntry i e).Clean := by
  intro j hj
  rw [entry_setEntry t hi]
  split
  · exact new
  · exact clean j hj

theorem Clean.add {t' : Directory n} (clean : t.Clean) (call : t.add name sector dir = some t') : t'.Clean := by
  obtain ⟨i, hi, -, -, rfl⟩ := add_some call
  exact clean.set hi (clean_added (clean i hi) name sector dir)

/-- What `Remove` does. -/
theorem remove_some {t' : Directory n} (call : t.remove name = some t') :
    ∃ i < n, t.findIndex name = some i ∧ t' = t.setEntry i (removed (t.entry i)) := by
  unfold remove at call
  split at call
  · rename_i i found
    cases call
    exact ⟨i, (findIndex_some found).1, found, rfl⟩
  · cases call

theorem Clean.remove {t' : Directory n} (clean : t.Clean) (call : t.remove name = some t') : t'.Clean := by
  obtain ⟨i, hi, -, rfl⟩ := remove_some call
  exact clean.set hi (clean_removed (clean i hi))

/-- The string at the name of a filled entry is what was to be compared. -/
theorem fileName_added (clean : e.Clean) (name : List Byte) (sector : Word) (dir : Bool) :
    (added e name sector dir).fileName = key name := by
  rw [(clean_added clean name sector dir).fileName_eq]
  exact key_copyName e.name name

end Directory

end Nachos.Mp4
