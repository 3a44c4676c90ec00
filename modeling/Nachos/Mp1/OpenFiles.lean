import Nachos.Base.Transition
import Nachos.Mp1.FileSystem

/-!
# The open-file table over a run

The slots and the recorded names stay in step as long as every call of `OpenAFile` that could
open its file compares the right string: a zero byte stands behind the name in `newArr`, and
the memory behind the table does not spell the name.
-/

namespace Nachos.Mp1
open Bytes Transition

namespace OpenCall

/-- The array happens to hold a zero byte where the copied name stops. -/
def Ended (c : OpenCall) : Prop := c.stack.getD c.name.chars.length 0 = 0

variable {c : OpenCall}

theorem cstr_newArr (c : OpenCall) : cstr c.newArr = c.name.chars ++ cstr (c.stack.drop c.name.chars.length) :=
  cstr_append c.name.plain _

theorem ended_iff : c.Ended ↔ cstr c.newArr = c.name.chars := by
  rw [cstr_newArr, List.append_right_eq_self, cstr_eq_nil_iff, Ended]
  simp [List.getD_eq_getElem?_getD]

theorem cstr_newArr_ne_nil (c : OpenCall) : cstr c.newArr ≠ [] := by
  rw [cstr_newArr]
  exact List.append_ne_nil_of_left_ne_nil c.name.nonempty _

end OpenCall

namespace FileSystem

variable {s : FileSystem} {c : OpenCall} {i j : Fin 20} {src : List Byte}

/-! ## Rows of the name table -/

def row (s : FileSystem) (i : Fin 20) : List Byte := (s.openfiletable_name.drop (100 * i)).take 100

/-- The name recorded for a slot. -/
def recorded (s : FileSystem) (i : Fin 20) : List Byte := cstr (s.openfiletable_name.drop (100 * i))

/-- Every recorded name ends within its row. -/
def Terminated (s : FileSystem) : Prop := ∀ i, 0 ∈ s.row i

@[simp] theorem row_setFile {f : Option OpenFile} : (s.setFile i f).row j = s.row j := rfl

@[simp] theorem recorded_setFile {f : Option OpenFile} : (s.setFile i f).recorded j = s.recorded j := rfl

theorem drop_store (s : FileSystem) (i : Fin 20) (src : List Byte) :
    ∃ rest, (s.store i src).openfiletable_name.drop (100 * i) = src.take (2000 - 100 * i) ++ rest := by
  have := s.length_name
  exact ⟨_, drop_overwrite (by omega)⟩

/-- Only the row itself changes when no more than a row is stored. -/
theorem row_store_of_ne (short : src.length ≤ 100) (ne : j ≠ i) : (s.store i src).row j = s.row j := by
  have taken : (src.take (2000 - 100 * i)).length ≤ src.length := List.length_take_le' _ _
  have fits : 100 * i + (src.take (2000 - 100 * i)).length ≤ s.openfiletable_name.length := by
    rw [s.length_name, List.length_take]
    omega
  apply window_overwrite fits
  have := Fin.val_ne_of_ne ne
  omega

theorem row_store_self (short : src.length ≤ 100) : ∃ rest, (s.store i src).row i = src ++ rest := by
  obtain ⟨rest, eq⟩ := drop_store s i src
  refine ⟨rest.take (100 - src.length), ?_⟩
  have kept : src.take (2000 - 100 * i) = src := List.take_of_length_le (by omega)
  rw [row, eq, kept, List.take_append, List.take_of_length_le short]

theorem recorded_eq (h : 0 ∈ s.row i) : s.recorded i = cstr (s.row i) := (cstr_take h).symm

theorem recorded_store_of_ne (h : s.Terminated) (short : src.length ≤ 100) (ne : j ≠ i) :
    (s.store i src).recorded j = s.recorded j := by
  have same := row_store_of_ne (s := s) short ne
  refine cstr_congr (n := 100) ?_ same
  change 0 ∈ (s.store i src).row j
  rw [same]
  exact h j

theorem terminated_store (h : s.Terminated) (short : src.length ≤ 100) (zero : 0 ∈ src) : (s.store i src).Terminated := by
  intro j
  by_cases ne : j = i
  · subst ne
    obtain ⟨rest, eq⟩ := row_store_self (s := s) (i := j) short
    rw [eq]
    exact List.mem_append_left _ zero
  · rw [row_store_of_ne short ne]
    exact h j

/-! ## The calls -/

def IsOpen (s : FileSystem) (name : List Byte) : Prop := ∃ i, (s.openFileTable i).isSome ∧ s.recorded i = name

def Full (s : FileSystem) : Prop := ∀ i, (s.openFileTable i).isSome

theorem free_of_eq_some (h : s.free = some i) : s.openFileTable i = none := by
  have := List.find?_some h
  simpa using this

theorem free_eq_none_iff : s.free = none ↔ s.Full := by
  unfold free Full
  rw [List.find?_eq_none]
  simp [Option.isSome_iff_ne_none]

theorem not_full (h : s.openFileTable i = none) : ¬ s.Full := by
  intro full
  have := full i
  rw [h] at this
  cases this

theorem duplicate_iff (h : s.Terminated) :
    s.duplicate c ↔ (∃ i, s.recorded i = cstr c.newArr) ∨ cstr c.behind = cstr c.newArr := by
  have length := s.length_name
  have inside (i : Fin 20) : cstr ((s.openfiletable_name ++ c.behind).drop (100 * i)) = s.recorded i := by
    have whole : 100 ≤ (s.openfiletable_name.drop (100 * i)).length := by
      rw [List.length_drop]
      omega
    rw [List.drop_append_of_le_length (by omega)]
    refine (cstr_congr (n := 100) (h i) ?_).symm
    rw [List.take_append_of_le_length whole]
  have last : (s.openfiletable_name ++ c.behind).drop (100 * 20) = c.behind := List.drop_left' length
  rw [duplicate, List.any_eq_true]
  constructor
  · rintro ⟨idx, bound, found⟩
    have found := of_decide_eq_true found
    rcases Nat.lt_or_eq_of_le (Nat.le_of_lt_succ (List.mem_range.1 bound)) with row | behind
    · exact .inl ⟨⟨idx, row⟩, (inside ⟨idx, row⟩).symm.trans found⟩
    · rw [behind, last] at found
      exact .inr found
  · rintro (⟨i, found⟩ | found)
    · exact ⟨i, List.mem_range.2 (by omega), decide_eq_true ((inside i).trans found)⟩
    · exact ⟨20, List.mem_range.2 (by omega), decide_eq_true (by rw [last, found])⟩

theorem isSome_of_slot {id : ℤ} (h : s.slot id = some i) : (s.openFileTable i).isSome := by
  unfold slot at h
  split_ifs at h with bound some
  obtain rfl := Option.some.inj h
  exact some

theorem closeFile_cases {id retVal result : ℤ} {t : FileSystem} (h : s.closeFile id retVal = some (result, t)) :
    (s.slot id = none ∧ result = -1 ∧ t = s) ∨ (∃ i, s.slot id = some i ∧ result = 1 ∧ t = s.clear i) := by
  unfold closeFile at h
  cases search : s.slot id with
  | none =>
    rw [search] at h
    obtain ⟨rfl, rfl⟩ := Prod.mk.inj (Option.some.inj h)
    exact .inl ⟨rfl, rfl, rfl⟩
  | some i =>
    simp only [search] at h
    split_ifs at h
    obtain ⟨rfl, rfl⟩ := Prod.mk.inj (Option.some.inj h)
    exact .inr ⟨i, rfl, rfl, rfl⟩

theorem openAFile_cases (s : FileSystem) (c : OpenCall) :
    (s.openAFile c = (none, s) ∧ (s.duplicate c ∨ c.fd = -1 ∨ s.Full)) ∨
    (∃ i, ¬ s.duplicate c ∧ c.fd ≠ -1 ∧ s.openFileTable i = none ∧
      s.openAFile c = (some i, (s.setFile i (some ⟨c.fd⟩)).strcpy i c.newArr)) := by
  unfold openAFile
  by_cases found : s.duplicate c
  · rw [if_pos found]
    exact .inl ⟨rfl, .inl found⟩
  · rw [if_neg found]
    by_cases fails : c.fd = -1
    · rw [if_pos fails]
      exact .inl ⟨rfl, .inr (.inl fails)⟩
    · rw [if_neg fails]
      cases search : s.free with
      | none => exact .inl ⟨rfl, .inr (.inr (free_eq_none_iff.1 search))⟩
      | some i => exact .inr ⟨i, found, fails, free_of_eq_some search, rfl⟩

/-- The recorded name is the passed one only if the whole string is. -/
theorem cstr_of_recorded_strcpy {name : FileName} {l : List Byte} (h : (s.strcpy i l).recorded i = name.chars) :
    cstr l = name.chars := by
  obtain ⟨rest, eq⟩ := drop_store s i (cstr l ++ [0])
  rw [recorded, strcpy, eq] at h
  by_cases fits : (cstr l).length < 2000 - 100 * i
  · have whole : (cstr l ++ [0]).take (2000 - 100 * i) = cstr l ++ [0] := by
      apply List.take_of_length_le
      rw [List.length_append]
      exact fits
    rw [whole, List.append_assoc] at h
    exact (cstr_terminated (zero_not_mem_cstr l) rest).symm.trans h
  · have part : (cstr l ++ [0]).take (2000 - 100 * i) = (cstr l).take (2000 - 100 * i) :=
      List.take_append_of_le_length (by omega)
    have plain : 0 ∉ (cstr l).take (2000 - 100 * i) := fun mem => zero_not_mem_cstr l (List.mem_of_mem_take mem)
    rw [part, cstr_append plain] at h
    have long := congrArg List.length h
    rw [List.length_append, List.length_take] at long
    have := name.short
    omega

/-- A slot without a file and without a name. -/
def Cleared (s : FileSystem) (i : Fin 20) : Prop := s.openFileTable i = none ∧ ∃ rest, s.row i = 0 :: rest

theorem Cleared.zero_mem (h : s.Cleared i) : 0 ∈ s.row i := by
  obtain ⟨-, rest, eq⟩ := h
  rw [eq]
  exact List.mem_cons_self

theorem Cleared.recorded (h : s.Cleared i) : s.recorded i = [] := by
  have zero := h.zero_mem
  obtain ⟨-, rest, eq⟩ := h
  rw [recorded_eq zero, eq, cstr_cons, if_pos rfl]

theorem cleared_clear (s : FileSystem) (i : Fin 20) : (s.clear i).Cleared i := by
  have short : [(0 : Byte)].length ≤ 100 := by decide
  obtain ⟨rest, eq⟩ := row_store_self (s := s.setFile i none) (i := i) short
  exact ⟨Function.update_self .., rest, eq⟩

theorem row_clear_of_ne (ne : j ≠ i) : (s.clear i).row j = s.row j :=
  row_store_of_ne (s := s.setFile i none) (by decide) ne

theorem openFileTable_clear_of_ne (ne : j ≠ i) : (s.clear i).openFileTable j = s.openFileTable j :=
  Function.update_of_ne ne ..

theorem Cleared.clear (h : s.Cleared j) (i : Fin 20) : (s.clear i).Cleared j := by
  by_cases ne : j = i
  · subst ne
    exact cleared_clear s j
  · obtain ⟨file, rest, eq⟩ := h
    exact ⟨(openFileTable_clear_of_ne ne).trans file, rest, (row_clear_of_ne ne).trans eq⟩

theorem cleared_construct (memory : FileSystem) (i : Fin 20) : (construct memory).Cleared i := by
  have fold (l : List (Fin 20)) (s : FileSystem) (h : i ∈ l ∨ s.Cleared i) : (l.foldl FileSystem.clear s).Cleared i := by
    induction l generalizing s with
    | nil => exact h.resolve_left List.not_mem_nil
    | cons j l ih =>
      apply ih
      rcases h with member | cleared
      · rcases List.mem_cons.1 member with rfl | member
        · exact .inr (cleared_clear s i)
        · exact .inl member
      · exact .inr (cleared.clear j)
  exact fold _ _ (.inl (List.mem_finRange i))

end FileSystem

/-- The table, and for each slot the name that was passed to the call that filled it last. -/
structure Session where
  table : FileSystem
  passed : Fin 20 → List Byte

inductive Session.Event where
  | openAFile (c : OpenCall)
  | writeAFile (size id retVal : ℤ)
  | readFile (size id retVal : ℤ)
  | closeFile (id retVal : ℤ)

namespace Session

variable {s : Session} {c : OpenCall} {i j : Fin 20}

def opened (s : Session) (c : OpenCall) : Session where
  table := (s.table.openAFile c).2
  passed := match (s.table.openAFile c).1 with
    | some i => Function.update s.passed i c.name.chars
    | none => s.passed

/-- None if an `ASSERT` fails. -/
def step (s : Session) : Event → Option Session
  | .openAFile c => some (s.opened c)
  | .writeAFile size id retVal => (s.table.writeAFile size id retVal).map fun _ => s
  | .readFile size id retVal => (s.table.readFile size id retVal).map fun _ => s
  | .closeFile id retVal => (s.table.closeFile id retVal).map fun r => { s with table := r.2 }

end Session

/-- The calls on a file system that has just been constructed. -/
def session : System Session Session.Event where
  init s := ∃ memory, s.table = .construct memory
  step s e s' := s.step e = some s'

/-- The two arrays are in step. -/
structure Session.InStep (s : Session) : Prop where
  occupied : ∀ i, (s.table.openFileTable i).isSome ↔ s.table.recorded i ≠ []
  passed : ∀ i, (s.table.openFileTable i).isSome → s.table.recorded i = s.passed i
  distinct : ∀ i j, (s.table.openFileTable i).isSome → (s.table.openFileTable j).isSome →
    s.table.recorded i = s.table.recorded j → i = j

/-- What `OpenAFile` is to return. -/
structure FileSystem.Answers (s : FileSystem) (c : OpenCall) : Prop where
  refuses : s.IsOpen c.name.chars ∨ c.fd = -1 ∨ s.Full → (s.openAFile c).1 = none
  opens : ¬ (s.IsOpen c.name.chars ∨ c.fd = -1 ∨ s.Full) →
    ∃ i, (s.openAFile c).1 = some i ∧ s.openFileTable i = none ∧ (s.openAFile c).2.openFileTable i = some ⟨c.fd⟩

/-- Either the call fails for a reason of its own, or it compares the right string. The name of an
open file is also refused when the string is that of another open file. -/
def FileSystem.Clean (s : FileSystem) (c : OpenCall) : Prop :=
  c.fd = -1 ∨ s.Full ∨
    (s.IsOpen c.name.chars ∧ (s.IsOpen (cstr c.newArr) ∨ cstr c.behind = cstr c.newArr)) ∨
    (¬ s.IsOpen c.name.chars ∧ c.Ended ∧ cstr c.behind ≠ c.name.chars)

/-- The policy of the runs all of whose calls of `OpenAFile` are clean. -/
def Session.Clean (s : Session) : Event → Prop
  | .openAFile c => s.table.Clean c
  | _ => True

namespace Session

variable {s : Session} {c : OpenCall} {i j : Fin 20}

structure Sound (s : Session) : Prop extends s.InStep where
  terminated : s.table.Terminated

theorem Sound.isOpen_iff (h : s.Sound) {name : List Byte} (ne : name ≠ []) :
    s.table.IsOpen name ↔ ∃ i, s.table.recorded i = name := by
  constructor
  · rintro ⟨i, -, eq⟩
    exact ⟨i, eq⟩
  · rintro ⟨i, eq⟩
    exact ⟨i, (h.occupied i).2 (eq ▸ ne), eq⟩

/-- The scan of `OpenAFile` finds an open file or the bytes behind the table. -/
theorem Sound.duplicate_iff (h : s.Sound) (c : OpenCall) :
    s.table.duplicate c ↔ s.table.IsOpen (cstr c.newArr) ∨ cstr c.behind = cstr c.newArr := by
  rw [FileSystem.duplicate_iff h.terminated, h.isOpen_iff c.cstr_newArr_ne_nil]

theorem sound_construct {memory : FileSystem} (h : s.table = .construct memory) : s.Sound := by
  have cleared (i : Fin 20) : s.table.Cleared i := h ▸ FileSystem.cleared_construct memory i
  have closed (i : Fin 20) : (s.table.openFileTable i).isSome → False := by
    rw [(cleared i).1]
    exact Bool.false_ne_true
  constructor
  · constructor
    · intro i
      exact iff_of_false (closed i) (not_not_intro (cleared i).recorded)
    · intro i some
      exact (closed i some).elim
    · intro i j some
      exact (closed i some).elim
  · intro i
    exact (cleared i).zero_mem

/-- A slot is filled under a name that is not recorded. -/
theorem Sound.fill (h : s.Sound) {f : OpenFile} (fresh : ¬ s.table.IsOpen c.name.chars) (ended : c.Ended) :
    Sound ⟨(s.table.setFile i (some f)).strcpy i c.newArr, Function.update s.passed i c.name.chars⟩ := by
  have same := OpenCall.ended_iff.1 ended
  have short : (c.name.chars ++ [0]).length ≤ 100 := by
    rw [List.length_append]
    exact c.name.short
  unfold FileSystem.strcpy
  rw [same]
  have zero : 0 ∈ c.name.chars ++ [0] := List.mem_append_right _ (List.mem_singleton.2 rfl)
  have terminated : (s.table.setFile i (some f)).Terminated := h.terminated
  have self : ((s.table.setFile i (some f)).store i (c.name.chars ++ [0])).recorded i = c.name.chars := by
    obtain ⟨rest, eq⟩ := FileSystem.row_store_self (s := s.table.setFile i (some f)) (i := i) short
    rw [FileSystem.recorded_eq (eq ▸ List.mem_append_left _ zero), eq, List.append_assoc]
    exact cstr_terminated c.name.plain rest
  have other {j : Fin 20} (ne : j ≠ i) :
      ((s.table.setFile i (some f)).store i (c.name.chars ++ [0])).recorded j = s.table.recorded j :=
    FileSystem.recorded_store_of_ne terminated short ne
  have file {j : Fin 20} (ne : j ≠ i) : ((s.table.setFile i (some f)).store i (c.name.chars ++ [0])).openFileTable j =
      s.table.openFileTable j := Function.update_of_ne ne ..
  have filled : ((s.table.setFile i (some f)).store i (c.name.chars ++ [0])).openFileTable i = some f :=
    Function.update_self ..
  have unlike {j : Fin 20} (ne : j ≠ i) : s.table.recorded j ≠ c.name.chars := by
    intro eq
    exact fresh ((h.isOpen_iff c.name.nonempty).2 ⟨j, eq⟩)
  constructor
  · constructor
    · intro j
      by_cases ne : j = i
      · subst ne
        rw [filled, self]
        exact iff_of_true rfl c.name.nonempty
      · rw [file ne, other ne]
        exact h.occupied j
    · intro j
      by_cases ne : j = i
      · subst ne
        rw [self]
        exact fun _ => (Function.update_self j c.name.chars s.passed).symm
      · rw [file ne, other ne]
        intro some
        exact (h.passed j some).trans (Function.update_of_ne ne ..).symm
    · intro j k
      by_cases hj : j = i <;> by_cases hk : k = i
      · intro _ _ _
        rw [hj, hk]
      · rw [hj, self, other hk]
        intro _ _ eq
        exact (unlike hk eq.symm).elim
      · rw [hk, self, other hj]
        intro _ _ eq
        exact (unlike hj eq).elim
      · rw [file hj, file hk, other hj, other hk]
        exact h.distinct j k
  · exact FileSystem.terminated_store terminated short zero

/-- A slot is given back. -/
theorem Sound.clear (h : s.Sound) (i : Fin 20) : Sound { s with table := s.table.clear i } := by
  have cleared := FileSystem.cleared_clear s.table i
  have other {j : Fin 20} (ne : j ≠ i) : (s.table.clear i).recorded j = s.table.recorded j :=
    FileSystem.recorded_store_of_ne (s := s.table.setFile i none) h.terminated (by decide) ne
  have file {j : Fin 20} (some : ((s.table.clear i).openFileTable j).isSome) :
      j ≠ i ∧ (s.table.openFileTable j).isSome := by
    have ne : j ≠ i := by
      rintro rfl
      rw [cleared.1] at some
      cases some
    rw [FileSystem.openFileTable_clear_of_ne ne] at some
    exact ⟨ne, some⟩
  constructor
  · constructor
    · intro j
      by_cases ne : j = i
      · subst ne
        rw [cleared.1, cleared.recorded]
        exact iff_of_false Bool.false_ne_true (not_not_intro rfl)
      · rw [FileSystem.openFileTable_clear_of_ne ne, other ne]
        exact h.occupied j
    · intro j some
      obtain ⟨ne, some⟩ := file some
      rw [other ne]
      exact h.passed j some
    · intro j k some some'
      obtain ⟨ne, some⟩ := file some
      obtain ⟨ne', some'⟩ := file some'
      rw [other ne, other ne']
      exact h.distinct j k some some'
  · exact FileSystem.terminated_store (s := s.table.setFile i none) h.terminated (by decide) List.mem_cons_self

/-- A clean call that fills a slot has compared the right string. -/
theorem Sound.fresh_of_clean (h : s.Sound) (clean : s.table.Clean c) (unfound : ¬ s.table.duplicate c)
    (opens : c.fd ≠ -1) (roomy : ¬ s.table.Full) : ¬ s.table.IsOpen c.name.chars ∧ c.Ended := by
  rcases clean with fails | full | ⟨-, duplicate⟩ | ⟨fresh, ended, -⟩
  · exact (opens fails).elim
  · exact (roomy full).elim
  · exact (unfound ((h.duplicate_iff c).2 duplicate)).elim
  · exact ⟨fresh, ended⟩

theorem Sound.opened (h : s.Sound) (clean : s.table.Clean c) : (s.opened c).Sound := by
  rcases s.table.openAFile_cases c with ⟨eq, -⟩ | ⟨i, unfound, opens, free, eq⟩
  · have unchanged : s.opened c = s := by rw [Session.opened, eq]
    rw [unchanged]
    exact h
  · have next : s.opened c = ⟨(s.table.setFile i (some ⟨c.fd⟩)).strcpy i c.newArr,
        Function.update s.passed i c.name.chars⟩ := by rw [Session.opened, eq]
    obtain ⟨fresh, ended⟩ := h.fresh_of_clean clean unfound opens (FileSystem.not_full free)
    rw [next]
    exact h.fill fresh ended

theorem Sound.answers (h : s.Sound) (clean : s.table.Clean c) : s.table.Answers c := by
  have found := h.duplicate_iff c
  rcases s.table.openAFile_cases c with ⟨eq, why⟩ | ⟨i, unfound, opens, free, eq⟩
  · refine ⟨fun _ => congrArg Prod.fst eq, fun ok => ?_⟩
    obtain ⟨fresh, rest⟩ := not_or.1 ok
    rcases clean with fails | full | ⟨present, -⟩ | ⟨-, ended, behind⟩
    · exact (rest (.inl fails)).elim
    · exact (rest (.inr full)).elim
    · exact (fresh present).elim
    · rw [OpenCall.ended_iff.1 ended] at found
      rcases why with duplicate | other
      · rcases found.1 duplicate with present | same
        · exact (fresh present).elim
        · exact (behind same).elim
      · exact (rest other).elim
  · have roomy := FileSystem.not_full free
    obtain ⟨fresh, -⟩ := h.fresh_of_clean clean unfound opens roomy
    constructor
    · rintro (present | fails | full)
      · exact (fresh present).elim
      · exact (opens fails).elim
      · exact (roomy full).elim
    · intro _
      refine ⟨i, congrArg Prod.fst eq, free, ?_⟩
      rw [eq]
      exact Function.update_self ..

/-- A call that is not clean is answered wrongly, or records another string than the name. -/
theorem Sound.clean_of_answers (h : s.Sound) (answers : s.table.Answers c) (after : (s.opened c).InStep) :
    s.table.Clean c := by
  have found := h.duplicate_iff c
  rcases s.table.openAFile_cases c with ⟨eq, why⟩ | ⟨i, unfound, opens, free, eq⟩
  · rcases why with duplicate | fails | full
    · by_cases present : s.table.IsOpen c.name.chars
      · exact .inr (.inr (.inl ⟨present, found.1 duplicate⟩))
      · by_contra dirty
        have other : ¬ (c.fd = -1 ∨ s.table.Full) := fun other => dirty (or_assoc.1 (.inl other))
        obtain ⟨i, result, -⟩ := answers.opens (not_or.2 ⟨present, other⟩)
        rw [eq] at result
        cases result
    · exact .inl fails
    · exact .inr (.inl full)
  · have fresh : ¬ s.table.IsOpen c.name.chars := by
      intro present
      have refused := answers.refuses (.inl present)
      rw [eq] at refused
      cases refused
    have next : s.opened c = ⟨(s.table.setFile i (some ⟨c.fd⟩)).strcpy i c.newArr,
        Function.update s.passed i c.name.chars⟩ := by rw [Session.opened, eq]
    rw [next] at after
    have filled : ((s.table.setFile i (some ⟨c.fd⟩)).strcpy i c.newArr).openFileTable i = some ⟨c.fd⟩ :=
      Function.update_self ..
    have recorded := (after.passed i (Option.isSome_of_eq_some filled)).trans (Function.update_self ..)
    have same := FileSystem.cstr_of_recorded_strcpy recorded
    refine .inr (.inr (.inr ⟨fresh, OpenCall.ended_iff.2 same, fun behind => ?_⟩))
    exact unfound (found.2 (.inr (behind.trans same.symm)))

theorem Sound.step {s' : Session} {e : Event} (h : s.Sound) (clean : s.Clean e) (hs : s.step e = some s') : s'.Sound := by
  cases e with
  | openAFile c =>
    obtain rfl := Option.some.inj hs
    exact h.opened clean
  | writeAFile size id retVal =>
    obtain ⟨_, -, rfl⟩ := Option.map_eq_some_iff.1 hs
    exact h
  | readFile size id retVal =>
    obtain ⟨_, -, rfl⟩ := Option.map_eq_some_iff.1 hs
    exact h
  | closeFile id retVal =>
    obtain ⟨⟨result, t⟩, close, rfl⟩ := Option.map_eq_some_iff.1 hs
    rcases FileSystem.closeFile_cases close with ⟨-, -, rfl⟩ | ⟨i, -, -, rfl⟩
    · exact h
    · exact h.clear i

theorem Sound.of_reach (h : Reach session Session.Clean s) : s.Sound := by
  refine h.invariant Sound ?_ ?_
  · rintro s ⟨memory, eq⟩
    exact sound_construct eq
  · intro s e s' sound clean hs
    exact sound.step clean hs

/-- A file that has been closed can be opened again. -/
theorem Sound.reopens (h : s.Sound) {id retVal : ℤ} {t : FileSystem} (close : s.table.closeFile id retVal = some (1, t)) :
    ∃ i, s.table.slot id = some i ∧ ∀ c : OpenCall, c.name.chars = s.table.recorded i → t.Clean c → c.fd ≠ -1 →
      ∃ j, (t.openAFile c).1 = some j := by
  rcases FileSystem.closeFile_cases close with ⟨-, wrong, -⟩ | ⟨i, slot, -, rfl⟩
  · cases wrong
  · refine ⟨i, slot, fun c name clean opens => ?_⟩
    have cleared := FileSystem.cleared_clear s.table i
    have absent : ¬ (s.table.clear i).IsOpen c.name.chars := by
      rintro ⟨j, file, recorded⟩
      have ne : j ≠ i := by
        rintro rfl
        rw [cleared.1] at file
        cases file
      rw [FileSystem.openFileTable_clear_of_ne ne] at file
      have kept : (s.table.clear i).recorded j = s.table.recorded j :=
        FileSystem.recorded_store_of_ne (s := s.table.setFile i none) h.terminated (by decide) ne
      exact ne (h.distinct j i file (FileSystem.isSome_of_slot slot) (kept.symm.trans (recorded.trans name)))
    obtain ⟨j, result, -⟩ := ((h.clear i).answers clean).opens
      (not_or.2 ⟨absent, not_or.2 ⟨opens, FileSystem.not_full cleared.1⟩⟩)
    exact ⟨j, result⟩

/-- **The table of open files.** In a run whose calls are clean the two arrays stay in step, and a
further call is answered as it should be and keeps them in step exactly if it is clean. -/
theorem open_files_in_step (h : Reach session Session.Clean s) :
    s.InStep ∧ (∀ c, s.table.Answers c ∧ (s.opened c).InStep ↔ s.table.Clean c) ∧
    (∀ id retVal t, s.table.closeFile id retVal = some (1, t) →
      ∃ i, s.table.slot id = some i ∧ ∀ c : OpenCall, c.name.chars = s.table.recorded i → t.Clean c → c.fd ≠ -1 →
        ∃ j, (t.openAFile c).1 = some j) := by
  have sound := Sound.of_reach h
  refine ⟨sound.toInStep, fun c => ⟨fun right => ?_, fun clean => ?_⟩, fun id retVal t close => sound.reopens close⟩
  · exact sound.clean_of_answers right.1 right.2
  · exact ⟨sound.answers clean, (sound.opened clean).toInStep⟩

/-- `OpenAFile("a")` on `newArr` as `stack`. -/
def openA (stack : List Byte) : OpenCall where
  name := ⟨[0x61], by decide, by decide, by decide⟩
  stack := stack
  behind := []
  fd := 3

def blank : FileSystem := ⟨fun _ => none, List.replicate 2000 0, List.length_replicate⟩

theorem not_isOpen_construct (memory : FileSystem) (name : List Byte) : ¬ (FileSystem.construct memory).IsOpen name := by
  rintro ⟨i, file, -⟩
  rw [(FileSystem.cleared_construct memory i).1] at file
  cases file

theorem open_files_in_step_opened : (opened ⟨.construct blank, fun _ => []⟩ (openA [0x20, 0])).InStep := by
  have clean : (FileSystem.construct blank).Clean (openA [0x20, 0]) :=
    .inr (.inr (.inr ⟨not_isOpen_construct _ _, rfl, by decide⟩))
  have start : Reach session Session.Clean ⟨.construct blank, fun _ => []⟩ := .init ⟨blank, rfl⟩
  exact (open_files_in_step (start.step (a := .openAFile (openA [0x20, 0])) clean rfl)).1

/-- With a `b` behind the copied name the file is recorded as `ab`. -/
theorem garbage_behind_the_name :
    ¬ ∀ s, Reach session (fun _ _ => True) s → s.InStep ∧ ∀ c, s.table.Answers c := by
  intro claim
  have start : Reach session (fun _ _ => True) ⟨.construct blank, fun _ => []⟩ := .init ⟨blank, rfl⟩
  have built : (Session.mk (.construct blank) fun _ => []).table = .construct blank := rfl
  have sound := sound_construct built
  have after := (claim _ (start.step (a := .openAFile (openA [0x20, 0x62, 0])) trivial rfl)).1
  rcases sound.clean_of_answers ((claim _ start).2 _) after with fails | full | ⟨present, -⟩ | ⟨-, ended, -⟩
  · exact absurd fails (by decide)
  · exact FileSystem.not_full (FileSystem.cleared_construct blank 0).1 full
  · exact not_isOpen_construct _ _ present
  · have zero : (0x62 : Byte) = 0 := ended
    exact absurd zero (by decide)

end Session

end Nachos.Mp1
