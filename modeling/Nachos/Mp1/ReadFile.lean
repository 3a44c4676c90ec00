import Mathlib.Algebra.Order.BigOperators.Group.List
import Mathlib.Algebra.Order.Ring.Int
import Nachos.Mp1.Descriptors

/-!
# Reading through the table

`ReadFile` calls `Read`, which aborts unless the host has read all the bytes asked for: the sibling
`ReadPartial`, which the other readers call, is content with fewer.
-/

namespace Nachos.Mp1
open Bytes Transition

namespace Stub

variable {s s' : Stub} {i : Fin 20} {f : OpenFile} {d : Description} {size id : ℤ} {buffer : ℕ → Byte}

/-- The open file of an identifier and where it is. -/
structure At (s : Stub) (id : ℤ) (f : OpenFile) (d : Description) : Prop where
  slot : ∃ i, s.table.slot id = some i ∧ s.table.openFileTable i = some f
  opened : s.host.descriptors f.file = some d

theorem At.unique {f' : OpenFile} {d' : Description} (at' : s.At id f d) (at'' : s.At id f' d') : d = d' := by
  obtain ⟨⟨i, slot, file⟩, opened⟩ := at'
  obtain ⟨⟨j, slot', file'⟩, opened'⟩ := at''
  rw [slot, Option.some.injEq] at slot'
  subst slot'
  rw [file, Option.some.injEq] at file'
  subst file'
  rw [opened, Option.some.injEq] at opened'
  exact opened'

/-- How many bytes lie behind the offset, none where the offset lies behind the end. -/
def available (s : Stub) (d : Description) : ℤ := max 0 ((s.host.contents d.file).length - d.offset)

/-- The bytes that a call is to deliver. -/
def next (s : Stub) (d : Description) (size : ℤ) : List Byte := (s.host.rest d).take size.toNat

/-- The state behind them. -/
def behind (s : Stub) (f : OpenFile) (d : Description) (size : ℤ) : Stub :=
  { s with host := s.host.setDescriptor f.file (some ⟨d.file, d.offset + (s.next d size).length⟩) }

/-- What a call of `ReadFile` owes: it returns as many bytes as there are, up to `size`, and stores them
at the start of the buffer and nothing else. -/
def Reads (s : Stub) (d : Description) (size id : ℤ) : Prop :=
  ∀ buffer, ∃ s', s.readFile buffer size id = some (min size (s.available d), filled buffer (s.next d size), s')

/-- A program that reads pieces of the given sizes and puts them together. -/
def readAll (buffer : ℕ → Byte) (id : ℤ) : List ℤ → Stub → Option (List Byte × Stub)
  | [], s => some ([], s)
  | size :: sizes, s => (s.readFile buffer size id).bind fun (result, buffer', s) =>
    (readAll buffer id sizes s).map fun (bytes, s) => (tabulate result.toNat buffer' ++ bytes, s)

theorem length_rest (s : Stub) (d : Description) : ((s.host.rest d).length : ℤ) = s.available d := by
  rw [Host.length_rest, available]
  omega

/-- The call of `read` and the `ASSERT`. -/
theorem readFile_eq (at' : s.At id f d) (pos : 0 < size) : s.readFile buffer size id =
    if size ≤ s.available d then some (size, filled buffer (s.next d size), s.behind f d size) else none := by
  obtain ⟨⟨i, slot, file⟩, opened⟩ := at'
  have rest := s.length_rest d
  have whole : ((s.host.rest d).take size.toNat).length = size.toNat ↔ size ≤ s.available d := by
    rw [List.length_take]
    omega
  rw [readFile, if_neg (by omega), slot]
  dsimp only
  rw [file, Option.bind_some, Host.read_eq opened, Option.bind_some]
  dsimp only
  simp only [whole]
  rfl

theorem at_behind (at' : s.At id f d) (size : ℤ) : (s.behind f d size).At id f ⟨d.file, d.offset + (s.next d size).length⟩ :=
  ⟨at'.slot, Host.setDescriptor_self⟩

/-- **`ReadFile` reads as it should exactly when all the bytes are there.** -/
theorem reads_iff_available (at' : s.At id f d) (pos : 0 < size) : s.Reads d size id ↔ size ≤ s.available d := by
  constructor
  · intro reads
    obtain ⟨s', done⟩ := reads fun _ => 0
    rw [readFile_eq at' pos] at done
    exact (Option.ite_none_right_eq_some.1 done).1
  · intro enough buffer
    rw [readFile_eq at' pos, if_pos enough, min_eq_left enough]
    exact ⟨_, rfl⟩

/-- What has been stored is read back from the buffer. -/
theorem tabulate_filled (buffer : ℕ → Byte) (bytes : List Byte) : tabulate bytes.length (filled buffer bytes) = bytes := by
  have inside : ∀ k < bytes.length, filled buffer bytes k = bytes.getD k 0 := fun k lt => if_pos lt
  rw [tabulate_congr inside, tabulate_getD]

/-- What is left behind a piece. -/
theorem available_behind (enough : size ≤ s.available d) (pos : 0 < size) :
    (s.behind f d size).available ⟨d.file, d.offset + (s.next d size).length⟩ = s.available d - size := by
  have rest := s.length_rest d
  have whole : (s.next d size).length = size.toNat := by
    rw [next, List.length_take]
    omega
  have same : (s.behind f d size).host.contents = s.host.contents := rfl
  rw [available, same, whole]
  rw [available] at enough ⊢
  push_cast
  omega

/-- Two pieces are one. -/
theorem next_behind {m : ℤ} (pos : 0 < size) (more : 0 ≤ m) : s.next d (size + m) =
    s.next d size ++ (s.behind f d size).next ⟨d.file, d.offset + (s.next d size).length⟩ m := by
  have behind : (s.behind f d size).host.rest ⟨d.file, d.offset + (s.next d size).length⟩ = (s.host.rest d).drop size.toNat :=
    Host.rest_advance s.host d size.toNat _
  rw [next, Int.toNat_add pos.le more, List.take_add, ← behind]
  rfl

/-- A piece that is there, and the others. -/
theorem readAll_cons {sizes : List ℤ} (at' : s.At id f d) (pos : 0 < size) (enough : size ≤ s.available d) :
    readAll buffer id (size :: sizes) s =
      (readAll buffer id sizes (s.behind f d size)).map fun r => (s.next d size ++ r.1, r.2) := by
  have rest := s.length_rest d
  have whole : size.toNat = (s.next d size).length := by
    rw [next, List.length_take]
    omega
  rw [readAll, readFile_eq at' pos, if_pos enough, Option.bind_some]
  dsimp only
  rw [whole, tabulate_filled]

/-- **Pieces of any sizes** are the bytes behind the offset as long as these suffice. -/
theorem readAll_enough {sizes : List ℤ} (at' : s.At id f d) (pos : ∀ n ∈ sizes, 0 < n) (enough : sizes.sum ≤ s.available d) :
    ∃ s', readAll buffer id sizes s = some (s.next d sizes.sum, s') := by
  induction sizes generalizing s d with
  | nil => exact ⟨s, rfl⟩
  | cons size sizes ih =>
    have first := pos size List.mem_cons_self
    have others : ∀ n ∈ sizes, 0 < n := fun n mem => pos n (List.mem_cons_of_mem size mem)
    have more : 0 ≤ sizes.sum := List.sum_nonneg fun n mem => (others n mem).le
    rw [List.sum_cons] at enough ⊢
    have here : size ≤ s.available d := by omega
    obtain ⟨s', rest⟩ := ih (at_behind at' size) others (by rw [available_behind here first]; omega)
    refine ⟨s', ?_⟩
    rw [readAll_cons at' first here, rest, next_behind (f := f) first more]
    rfl

/-- The call that asks for more than is left aborts. -/
theorem readAll_short {sizes : List ℤ} (at' : s.At id f d) (pos : ∀ n ∈ sizes, 0 < n) (short : s.available d < sizes.sum) :
    readAll buffer id sizes s = none := by
  induction sizes generalizing s d with
  | nil =>
    have some : 0 ≤ s.available d := le_max_left ..
    rw [List.sum_nil] at short
    omega
  | cons size sizes ih =>
    have first := pos size List.mem_cons_self
    rw [List.sum_cons] at short
    by_cases here : size ≤ s.available d
    · rw [readAll_cons at' first here, ih (at_behind at' size) (fun n mem => pos n (List.mem_cons_of_mem size mem))
        (by rw [available_behind here first]; omega), Option.map_none]
    · rw [readAll, readFile_eq at' first, if_neg here, Option.bind_none]

end Stub

namespace Holdings

variable {s : Holdings} {i : Fin 20} {id : ℤ}

/-- An open identifier has a descriptor that is open. -/
theorem Live.exists_at (h : s.Live) (slot : s.stub.table.slot id = some i) : ∃ f d, s.stub.At id f d := by
  obtain ⟨f, file⟩ := Option.isSome_iff_exists.1 (FileSystem.isSome_of_slot slot)
  obtain ⟨d, opened⟩ := Option.isSome_iff_exists.1 (h.isOpen f.file (h.held i f file))
  exact ⟨f, d, ⟨i, slot, file⟩, opened⟩

/-- **`ReadFile`** on an open identifier, at whatever offset the calls before have left: it reads as it should
exactly when at least `size` bytes are left, and so do any number of calls for all their bytes together. -/
theorem reads_iff (reach : Reach holdings Short s) (slot : s.stub.table.slot id = some i) : ∃ f d, s.stub.At id f d ∧
    (∀ size, 0 < size → (s.stub.Reads d size id ↔ size ≤ s.stub.available d)) ∧
    ∀ buffer sizes, (∀ n ∈ sizes, 0 < n) →
      ((∃ s', Stub.readAll buffer id sizes s.stub = some (s.stub.next d sizes.sum, s')) ↔ sizes.sum ≤ s.stub.available d) := by
  obtain ⟨f, d, at'⟩ := (Live.of_reach reach).exists_at slot
  refine ⟨f, d, at', fun size pos => Stub.reads_iff_available at' pos, fun buffer sizes pos => ⟨?_, Stub.readAll_enough at' pos⟩⟩
  rintro ⟨s', done⟩
  by_contra short
  rw [Stub.readAll_short at' pos (not_le.1 short)] at done
  cases done

/-- The first file is opened in the first slot. -/
theorem Stacked.first (h : s.Stacked (0 : Fin 21)) (free : s.stub.table.free = some 0) (reach : Reach holdings Short s) :
    ∃ s', Reach holdings Short s' ∧
      s'.stub = ⟨(s.stub.table.setFile 0 (some ⟨3⟩)).strcpy 0 (numbered 0).newArr, s.stub.host.openFile 3 0⟩ := by
  have opens : s.Opens ((numbered 0).named 0) (s.opens ((numbered 0).named 0)).1 (s.opens ((numbered 0).named 0)).2 :=
    ⟨h.answers, fun _ => rfl⟩
  refine ⟨_, reach.step (a := Event.openAFile ((numbered 0).named 0)) (numbered 0).name.short.le ⟨_, opens⟩, ?_⟩
  have stub : (s.opens ((numbered 0).named 0)).2.stub = (s.stub.openAFile ((numbered 0).named 0)).2 := rfl
  rw [stub, Stub.openAFile, h.new, numbered_answer, if_neg Bool.false_ne_true, free]
  rfl

/-- A file of three bytes that has just been opened. -/
theorem exists_opened : ∃ s f d, Reach holdings Short s ∧ s.stub.table.slot 0 = some 0 ∧ s.stub.At 0 f d ∧ s.stub.available d = 3 := by
  have free : (fresh fun _ => [1, 2, 3]).stub.table.free = some 0 := by
    rw [FileSystem.free, List.finRange_succ, List.find?_cons_of_pos]
    rw [fresh_vacant]
    rfl
  obtain ⟨s, reach, stub⟩ := (stacked_fresh fun _ => [1, 2, 3]).first free ((reach_fresh _).mono fun _ _ _ => Roomy.short)
  have slot : s.stub.table.slot 0 = some 0 := by
    rw [stub]
    rfl
  refine ⟨s, ⟨3⟩, ⟨0, 0⟩, reach, slot, ⟨⟨0, slot, ?_⟩, ?_⟩, ?_⟩
  · rw [stub]
    rfl
  · rw [stub]
    rfl
  · rw [stub]
    rfl

/-- Two bytes can be read, four cannot. -/
theorem reads_iff_opened : ∃ s f d, Reach holdings Short s ∧ s.stub.At 0 f d ∧ s.stub.Reads d 2 0 ∧ ¬ s.stub.Reads d 4 0 := by
  obtain ⟨s, f, d, reach, slot, at', three⟩ := exists_opened
  obtain ⟨f', d', at'', reads, -⟩ := reads_iff reach slot
  obtain rfl := at'.unique at''
  refine ⟨s, f, d, reach, at', (reads 2 (by decide)).2 ?_, fun four => ?_⟩
  · rw [three]
    decide
  · have enough := (reads 4 (by decide)).1 four
    rw [three] at enough
    exact absurd enough (by decide)

/-- Four bytes are asked for where three are left. -/
theorem short_read_aborts : ¬ ∀ s i id f d size, Reach holdings Short s → s.stub.table.slot id = some i → s.stub.At id f d →
    0 < size → s.stub.Reads d size id := by
  intro claim
  obtain ⟨s, f, d, reach, slot, at', three⟩ := exists_opened
  have enough := (Stub.reads_iff_available at' (by decide)).1 (claim s 0 0 f d 4 reach slot at' (by decide))
  rw [three] at enough
  exact absurd enough (by decide)

end Holdings

end Nachos.Mp1
