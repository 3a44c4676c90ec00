import Mathlib.Data.Finset.SDiff
import Mathlib.Data.Fintype.Basic
import Mathlib.Data.Fintype.Card
import Nachos.Base.Host
import Nachos.Mp1.OpenFiles

/-!
# The open-file table over the host's descriptors

The file system stub with the host under it. `OpenAFile` opens the file before it looks for a slot,
so that a full table costs a descriptor, which nobody closes.
-/

namespace Nachos.Mp1
open Bytes Transition

/-- A call of `OpenAFile` with a name of any length. `answer` is what the host answers to `open`: a
descriptor and the file it is open on, or none for -1. -/
structure NamedCall where
  name : List Byte
  plain : 0 ∉ name
  stack : List Byte
  behind : List Byte
  answer : Option (ℤ × ℕ)

/-- `newArr` and the memory above it, in which the scan and `strcpy` read on: a name of 100 characters fills it. -/
def NamedCall.newArr (c : NamedCall) : List Byte := c.name ++ c.stack.drop c.name.length

/-- A call whose name fits `newArr`. -/
def OpenCall.named (c : OpenCall) (file : ℕ) : NamedCall where
  name := c.name.chars
  plain := c.name.plain
  stack := c.stack
  behind := c.behind
  answer := if c.fd = -1 then none else some (c.fd, file)

structure Stub where
  table : FileSystem
  host : Host

/-- The buffer with the bytes read at its start. -/
def filled (buffer : ℕ → Byte) (bytes : List Byte) : ℕ → Byte := fun k => if k < bytes.length then bytes.getD k 0 else buffer k

namespace Stub

def duplicate (s : Stub) (c : NamedCall) : Bool :=
  (List.range 21).any fun idx => cstr ((s.table.openfiletable_name ++ c.behind).drop (100 * idx)) = cstr c.newArr

/-- `OpenAFile`, for a name that fits `newArr`. -/
def openAFile (s : Stub) (c : NamedCall) : ℤ × Stub :=
  if s.duplicate c then (-1, s)
  else match c.answer with
    | none => (-1, s)
    | some (fd, file) =>
      let host := s.host.openFile fd file
      match s.table.free with
      | some i => (i.val, ⟨(s.table.setFile i (some ⟨fd⟩)).strcpy i c.newArr, host⟩)
      | none => (-1, ⟨s.table, host⟩)

/-- None if the `ASSERT` in `WriteFile` fails: here the host takes all bytes or none. -/
def writeAFile (s : Stub) (buffer : ℕ → Byte) (size id : ℤ) : Option (ℤ × Stub) :=
  if size ≤ 0 then some (-1, s)
  else match s.table.slot id with
    | none => some (-1, s)
    | some i => (s.table.openFileTable i).bind fun f =>
      (s.host.write f.file (tabulate size.toNat buffer)).map fun host => (size, { s with host := host })

/-- The result and the buffer afterwards. None if the `ASSERT` in `Read` fails. -/
def readFile (s : Stub) (buffer : ℕ → Byte) (size id : ℤ) : Option (ℤ × (ℕ → Byte) × Stub) :=
  if size ≤ 0 then some (-1, buffer, s)
  else match s.table.slot id with
    | none => some (-1, buffer, s)
    | some i => (s.table.openFileTable i).bind fun f =>
      (s.host.read f.file size.toNat).bind fun (bytes, host) =>
        if bytes.length = size.toNat then some (size, filled buffer bytes, { s with host := host }) else none

/-- None if the `ASSERT` in `Close` fails, called by the destructor of `OpenFile`. -/
def closeFile (s : Stub) (id : ℤ) : Option (ℤ × Stub) :=
  match s.table.slot id with
  | none => some (-1, s)
  | some i => (s.table.openFileTable i).bind fun f =>
    (s.host.close f.file).map fun host => (1, ⟨s.table.clear i, host⟩)

variable {s s' : Stub} {i : Fin 20} {id r : ℤ}

/-! ## What the calls do -/

/-- The table is that of the model without a host, which takes the host's answer as an argument. -/
theorem openAFile_table (s : Stub) (c : OpenCall) (file : ℕ) : (s.openAFile (c.named file)).2.table = (s.table.openAFile c).2 := by
  have same : s.duplicate (c.named file) = s.table.duplicate c := rfl
  unfold openAFile FileSystem.openAFile
  rw [same]
  by_cases found : s.table.duplicate c = true
  · rw [if_pos found, if_pos found]
  · rw [if_neg found, if_neg found]
    by_cases fails : c.fd = -1
    · rw [OpenCall.named, if_pos fails, if_pos fails]
    · rw [OpenCall.named, if_neg fails, if_neg fails]
      cases s.table.free with
      | none => rfl
      | some i => rfl

/-- The ways of a call of `OpenAFile`. -/
inductive Opening (s : Stub) (c : NamedCall) : ℤ → Stub → Prop where
  | duplicate : s.duplicate c = true → Opening s c (-1) s
  | fails : s.duplicate c = false → c.answer = none → Opening s c (-1) s
  | fills (fd : ℤ) (file : ℕ) (i : Fin 20) : s.duplicate c = false → c.answer = some (fd, file) → s.table.openFileTable i = none →
      Opening s c i.val ⟨(s.table.setFile i (some ⟨fd⟩)).strcpy i c.newArr, s.host.openFile fd file⟩
  | full (fd : ℤ) (file : ℕ) : s.duplicate c = false → c.answer = some (fd, file) → s.table.Full →
      Opening s c (-1) ⟨s.table, s.host.openFile fd file⟩

theorem opening (s : Stub) (c : NamedCall) : Opening s c (s.openAFile c).1 (s.openAFile c).2 := by
  unfold openAFile
  split
  · exact .duplicate ‹_›
  · rename_i new
    rw [Bool.not_eq_true] at new
    split
    · exact .fails new ‹_›
    · rename_i opens
      split
      · rename_i search
        exact .fills _ _ _ new opens (FileSystem.free_of_eq_some search)
      · rename_i search
        exact .full _ _ new opens (FileSystem.free_eq_none_iff.1 search)

/-- The ways of a call of `CloseFile` that returns. -/
inductive Closing (s : Stub) (id : ℤ) : ℤ → Stub → Prop where
  | refused : s.table.slot id = none → Closing s id (-1) s
  | closes (i : Fin 20) (f : OpenFile) (host : Host) : s.table.slot id = some i → s.table.openFileTable i = some f →
      s.host.close f.file = some host → Closing s id 1 ⟨s.table.clear i, host⟩

theorem closing (t : s.closeFile id = some (r, s')) : Closing s id r s' := by
  unfold closeFile at t
  split at t
  · obtain ⟨rfl, rfl⟩ := Prod.mk.inj (Option.some.inj t)
    exact .refused ‹_›
  · rename_i i slot
    obtain ⟨f, file, t⟩ := Option.bind_eq_some_iff.1 t
    obtain ⟨host, closed, t⟩ := Option.map_eq_some_iff.1 t
    obtain ⟨rfl, rfl⟩ := Prod.mk.inj t
    exact .closes i f host slot file closed

/-- Table and open descriptors are the same. -/
structure Alike (s s' : Stub) : Prop where
  table : s'.table = s.table
  isOpen : ∀ fd, s'.host.IsOpen fd ↔ s.host.IsOpen fd

theorem Alike.refl (s : Stub) : Alike s s := ⟨rfl, fun _ => Iff.rfl⟩

theorem writeAFile_alike {buffer : ℕ → Byte} {size : ℤ} (t : s.writeAFile buffer size id = some (r, s')) : Alike s s' := by
  unfold writeAFile at t
  split at t
  · obtain ⟨-, rfl⟩ := Prod.mk.inj (Option.some.inj t)
    exact .refl s
  · split at t
    · obtain ⟨-, rfl⟩ := Prod.mk.inj (Option.some.inj t)
      exact .refl s
    · obtain ⟨f, -, t⟩ := Option.bind_eq_some_iff.1 t
      obtain ⟨host, written, t⟩ := Option.map_eq_some_iff.1 t
      obtain ⟨-, rfl⟩ := Prod.mk.inj t
      exact ⟨rfl, fun fd => Host.isOpen_write written⟩

theorem readFile_alike {buffer buffer' : ℕ → Byte} {size : ℤ} (t : s.readFile buffer size id = some (r, buffer', s')) :
    Alike s s' := by
  unfold readFile at t
  split at t
  · cases t
    exact .refl s
  · split at t
    · cases t
      exact .refl s
    · obtain ⟨f, -, t⟩ := Option.bind_eq_some_iff.1 t
      obtain ⟨⟨bytes, host⟩, read, t⟩ := Option.bind_eq_some_iff.1 t
      obtain ⟨-, t⟩ := Option.ite_none_right_eq_some.1 t
      cases t
      exact ⟨rfl, fun fd => Host.isOpen_read read⟩

end Stub

/-- The file system on its host, and the descriptors that `OpenAFile` has opened and nobody has
closed. -/
structure Holdings where
  stub : Stub
  opened : Finset ℤ

/-- `create` is a call of `Create`, which leaves the file empty. -/
inductive Holdings.Event where
  | openAFile (c : NamedCall)
  | writeAFile (buffer : ℕ → Byte) (size id : ℤ)
  | readFile (buffer : ℕ → Byte) (size id : ℤ)
  | closeFile (id : ℤ)
  | create (file : ℕ)

namespace Holdings

/-- The descriptor that the host opens in a call of `OpenAFile`. -/
def received (s : Holdings) (c : NamedCall) : Finset ℤ :=
  if s.stub.duplicate c then ∅
  else match c.answer with
    | none => ∅
    | some (fd, _) => {fd}

def opens (s : Holdings) (c : NamedCall) : ℤ × Holdings :=
  ((s.stub.openAFile c).1, ⟨(s.stub.openAFile c).2, s.opened ∪ s.received c⟩)

/-- The descriptor that `CloseFile` closes. -/
def given (s : Holdings) (id : ℤ) : Finset ℤ :=
  match (s.stub.table.slot id).bind s.stub.table.openFileTable with
  | none => ∅
  | some f => {f.file}

/-- The host answers with a descriptor that is not in use. -/
def Answers (s : Holdings) (c : NamedCall) : Prop := ∀ fd file, c.answer = some (fd, file) → s.stub.host.Free fd

/-- What a call of `OpenAFile` may return and leave. A longer name is copied over the end of
`newArr`, after which anything can happen. -/
def Opens (s : Holdings) (c : NamedCall) (r : ℤ) (s' : Holdings) : Prop :=
  s.Answers c ∧ (c.name.length ≤ 100 → (r, s') = s.opens c)

def step (s : Holdings) : Event → Holdings → Prop
  | .openAFile c, s' => ∃ r, s.Opens c r s'
  | .writeAFile buffer size id, s' => ∃ r stub, s.stub.writeAFile buffer size id = some (r, stub) ∧ s' = { s with stub := stub }
  | .readFile buffer size id, s' => ∃ r buffer' stub, s.stub.readFile buffer size id = some (r, buffer', stub) ∧
      s' = { s with stub := stub }
  | .closeFile id, s' => ∃ r stub, s.stub.closeFile id = some (r, stub) ∧ s' = ⟨stub, s.opened \ s.given id⟩
  | .create file, s' => s' = { s with stub := { s.stub with host := s.stub.host.truncate file } }

end Holdings

/-- The calls on a file system that has just been constructed, on any host. -/
def holdings : System Holdings Holdings.Event where
  init s := (∃ memory, s.stub.table = .construct memory) ∧ s.opened = ∅
  step s e s' := s.step e s'

namespace Holdings

variable {s s' : Holdings} {c : NamedCall} {i : Fin 20} {id r : ℤ} {f : OpenFile}

/-- All names fit `newArr`. -/
def Short (_ : Holdings) : Event → Prop
  | .openAFile c => c.name.length ≤ 100
  | _ => True

/-- **The descriptors of the table**: those that `OpenAFile` has opened and nobody has closed. -/
def Owned (s : Holdings) : Prop := ∀ fd, fd ∈ s.opened ↔ ∃ i, s.stub.table.openFileTable i = some ⟨fd⟩

/-- The call is refused before the host is asked, or by the host, or there is a slot. -/
def RoomFor (s : Holdings) (c : NamedCall) : Prop :=
  c.name.length ≤ 100 ∧ (s.stub.duplicate c = true ∨ c.answer = none ∨ ¬ s.stub.table.Full)

/-- No file is opened without a slot for it. -/
def Roomy (s : Holdings) : Event → Prop
  | .openAFile c => s.RoomFor c
  | _ => True

/-- The descriptors of the slots are open and distinct. -/
structure Live (s : Holdings) : Prop where
  isOpen : ∀ fd ∈ s.opened, s.stub.host.IsOpen fd
  held : ∀ i f, s.stub.table.openFileTable i = some f → f.file ∈ s.opened
  distinct : ∀ i j f, s.stub.table.openFileTable i = some f → s.stub.table.openFileTable j = some f → i = j

/-- `OpenAFile` with the descriptor it has received. -/
inductive Opened (s : Holdings) (c : NamedCall) : ℤ → Holdings → Prop where
  | refused : s.stub.duplicate c = true ∨ c.answer = none → Opened s c (-1) s
  | fills (fd : ℤ) (file : ℕ) (i : Fin 20) : s.stub.host.Free fd → c.answer = some (fd, file) →
      s.stub.table.openFileTable i = none → Opened s c i.val ⟨⟨(s.stub.table.setFile i (some ⟨fd⟩)).strcpy i c.newArr, s.stub.host.openFile fd file⟩, insert fd s.opened⟩
  | full (fd : ℤ) (file : ℕ) : s.stub.host.Free fd → s.stub.duplicate c = false → c.answer = some (fd, file) → s.stub.table.Full →
      Opened s c (-1) ⟨⟨s.stub.table, s.stub.host.openFile fd file⟩, insert fd s.opened⟩

theorem opened_of_opens (opens : s.Opens c r s') (short : c.name.length ≤ 100) : s.Opened c r s' := by
  obtain ⟨answers, result⟩ := opens
  obtain ⟨rfl, rfl⟩ := Prod.mk.inj (result short)
  have one (fd : ℤ) (file : ℕ) (new : s.stub.duplicate c = false) (answer : c.answer = some (fd, file)) :
      s.opened ∪ s.received c = insert fd s.opened := by
    rw [received, new, answer, if_neg Bool.false_ne_true, Finset.union_comm]
    rfl
  have way := s.stub.opening c
  revert way
  generalize (s.stub.openAFile c).1 = r
  generalize (s.stub.openAFile c).2 = stub
  rintro (found | ⟨new, fails⟩ | ⟨fd, file, i, new, answer, free⟩ | ⟨fd, file, new, answer, full⟩)
  · have none : s.opened ∪ s.received c = s.opened := by rw [received, if_pos found, Finset.union_empty]
    rw [none]
    exact .refused (.inl found)
  · have none : s.opened ∪ s.received c = s.opened := by
      rw [received, new, fails, if_neg Bool.false_ne_true]
      exact Finset.union_empty _
    rw [none]
    exact .refused (.inr fails)
  · rw [one fd file new answer]
    exact .fills fd file i (answers fd file answer) answer free
  · rw [one fd file new answer]
    exact .full fd file (answers fd file answer) new answer full

/-- The entries behind a fill. -/
theorem entry_fill {fd : ℤ} {l : List Byte} {j : Fin 20}
    (at' : ((s.stub.table.setFile i (some ⟨fd⟩)).strcpy i l).openFileTable j = some f) :
    (j = i ∧ f = ⟨fd⟩) ∨ (j ≠ i ∧ s.stub.table.openFileTable j = some f) := by
  have update : Function.update s.stub.table.openFileTable i (some ⟨fd⟩) j = some f := at'
  by_cases eq : j = i
  · subst eq
    rw [Function.update_self, Option.some.injEq] at update
    exact .inl ⟨rfl, update.symm⟩
  · rw [Function.update_of_ne eq] at update
    exact .inr ⟨eq, update⟩

theorem Live.not_mem (h : s.Live) {fd : ℤ} (free : s.stub.host.Free fd) : fd ∉ s.opened := by
  intro mem
  have open' := h.isOpen fd mem
  rw [Host.IsOpen, free.2] at open'
  cases open'

/-- One descriptor more is open. -/
theorem Live.insert (h : s.Live) (fd : ℤ) (file : ℕ) : ∀ fd' ∈ insert fd s.opened, (s.stub.host.openFile fd file).IsOpen fd' := by
  intro fd' mem
  rw [Host.isOpen_openFile]
  obtain eq | mem := Finset.mem_insert.1 mem
  · exact .inl eq
  · exact .inr (h.isOpen fd' mem)

theorem Live.opened (h : s.Live) (o : s.Opened c r s') : s'.Live := by
  cases o with
  | refused => exact h
  | fills fd file i free answer vacant =>
    have fresh := h.not_mem free
    refine ⟨h.insert fd file, fun j f at' => ?_, fun j k f at' at'' => ?_⟩
    · obtain ⟨-, rfl⟩ | ⟨-, old⟩ := entry_fill at'
      · exact Finset.mem_insert_self ..
      · exact Finset.mem_insert_of_mem (h.held j f old)
    · obtain ⟨rfl, rfl⟩ | ⟨-, old⟩ := entry_fill at'
      · obtain ⟨rfl, -⟩ | ⟨-, old⟩ := entry_fill at''
        · rfl
        · exact absurd (h.held k _ old) fresh
      · obtain ⟨rfl, rfl⟩ | ⟨-, old'⟩ := entry_fill at''
        · exact absurd (h.held j _ old) fresh
        · exact h.distinct j k f old old'
  | full fd file free new answer full =>
    exact ⟨h.insert fd file, fun j f at' => Finset.mem_insert_of_mem (h.held j f at'), h.distinct⟩

theorem Live.alike {stub : Stub} (h : s.Live) (a : Stub.Alike s.stub stub) : Live { s with stub := stub } where
  isOpen fd mem := (a.isOpen fd).2 (h.isOpen fd mem)
  held i f at' := h.held i f (a.table ▸ at')
  distinct i j f at' at'' := h.distinct i j f (a.table ▸ at') (a.table ▸ at'')

theorem given_of_slot (slot : s.stub.table.slot id = some i) (file : s.stub.table.openFileTable i = some f) :
    s.given id = {f.file} := by
  rw [given, slot, Option.bind_some, file]

theorem given_of_none (slot : s.stub.table.slot id = none) : s.given id = ∅ := by
  rw [given, slot, Option.bind_none]

theorem entry_clear {j : Fin 20} (at' : (s.stub.table.clear i).openFileTable j = some f) :
    j ≠ i ∧ s.stub.table.openFileTable j = some f := by
  have ne : j ≠ i := by
    rintro rfl
    rw [(FileSystem.cleared_clear s.stub.table j).1] at at'
    cases at'
  exact ⟨ne, FileSystem.openFileTable_clear_of_ne ne ▸ at'⟩

theorem Live.closed {stub : Stub} (h : s.Live) (way : Stub.Closing s.stub id r stub) : Live ⟨stub, s.opened \ s.given id⟩ := by
  cases way with
  | refused slot =>
    rw [given_of_none slot, Finset.sdiff_empty]
    exact h
  | closes i f host slot file closed =>
    rw [given_of_slot slot file]
    refine ⟨fun fd mem => ?_, fun j f' at' => ?_, fun j k f' at' at'' => ?_⟩
    · obtain ⟨mem, ne⟩ := Finset.mem_sdiff.1 mem
      rw [Finset.mem_singleton] at ne
      exact (Host.isOpen_close closed).2 ⟨ne, h.isOpen fd mem⟩
    · obtain ⟨ne, old⟩ := entry_clear at'
      apply Finset.mem_sdiff.2
      refine ⟨h.held j f' old, fun same => ?_⟩
      rw [Finset.mem_singleton] at same
      have eq : f' = f := by
        cases f'
        cases f
        cases same
        rfl
      subst eq
      exact ne (h.distinct j i f' old file)
    · exact h.distinct j k f' (entry_clear at').2 (entry_clear at'').2

theorem live_initial (start : holdings.init s) : s.Live := by
  obtain ⟨⟨memory, built⟩, unused⟩ := start
  have empty (i : Fin 20) : s.stub.table.openFileTable i = none := built ▸ (FileSystem.cleared_construct memory i).1
  constructor
  · intro fd mem
    rw [unused] at mem
    cases mem
  · intro i f at'
    rw [empty i] at at'
    cases at'
  · intro i j f at'
    rw [empty i] at at'
    cases at'

theorem Live.step {e : Event} (h : s.Live) (short : s.Short e) (t : holdings.step s e s') : s'.Live := by
  cases e with
  | openAFile c =>
    obtain ⟨r, opens⟩ := t
    exact h.opened (opened_of_opens opens short)
  | writeAFile buffer size id =>
    obtain ⟨r, stub, done, rfl⟩ := t
    exact h.alike (Stub.writeAFile_alike done)
  | readFile buffer size id =>
    obtain ⟨r, buffer', stub, done, rfl⟩ := t
    exact h.alike (Stub.readFile_alike done)
  | closeFile id =>
    obtain ⟨r, stub, done, rfl⟩ := t
    exact h.closed (Stub.closing done)
  | create file =>
    obtain rfl : s' = _ := t
    exact ⟨h.isOpen, h.held, h.distinct⟩

theorem Live.of_reach (reach : Reach holdings Short s) : s.Live :=
  reach.invariant Live (fun _ => live_initial) fun _ _ _ live short t => live.step short t

/-! ## The descriptors of the table -/

theorem RoomFor.owned (room : s.RoomFor c) (h : s.Owned) (o : s.Opened c r s') :
    s'.Owned ∧ (r = -1 → s' = s) := by
  cases o with
  | refused => exact ⟨h, fun _ => rfl⟩
  | fills fd file i free answer vacant =>
    refine ⟨fun fd' => ?_, fun wrong => ?_⟩
    · rw [Finset.mem_insert, h fd']
      constructor
      · rintro (rfl | ⟨j, at'⟩)
        · exact ⟨i, Function.update_self ..⟩
        · have ne : j ≠ i := by
            rintro rfl
            rw [vacant] at at'
            cases at'
          exact ⟨j, (Function.update_of_ne ne ..).trans at'⟩
      · rintro ⟨j, at'⟩
        obtain ⟨-, same⟩ | ⟨-, old⟩ := entry_fill at'
        · exact .inl (congrArg OpenFile.file same)
        · exact .inr ⟨j, old⟩
    · omega
  | full fd file free new answer full =>
    obtain ⟨-, found | fails | vacant⟩ := room
    · rw [new] at found
      cases found
    · rw [answer] at fails
      cases fails
    · exact absurd full vacant

theorem Live.owned_closed {stub : Stub} (live : s.Live) (h : s.Owned) (way : Stub.Closing s.stub id r stub) :
    Owned ⟨stub, s.opened \ s.given id⟩ := by
  cases way with
  | refused slot =>
    rw [given_of_none slot, Finset.sdiff_empty]
    exact h
  | closes i f host slot file closed =>
    rw [given_of_slot slot file]
    intro fd
    rw [Finset.mem_sdiff, Finset.mem_singleton, h fd]
    constructor
    · rintro ⟨⟨j, at'⟩, ne⟩
      have other : j ≠ i := by
        rintro rfl
        rw [file, Option.some.injEq] at at'
        exact ne (congrArg OpenFile.file at').symm
      exact ⟨j, (FileSystem.openFileTable_clear_of_ne other).trans at'⟩
    · rintro ⟨j, at'⟩
      obtain ⟨ne, old⟩ := entry_clear at'
      refine ⟨⟨j, old⟩, ?_⟩
      rintro rfl
      exact ne (live.distinct j i f old file)

theorem Roomy.short {e : Event} (roomy : s.Roomy e) : s.Short e := by
  cases e with
  | openAFile c => exact roomy.1
  | _ => trivial

theorem Owned.of_reach (reach : Reach holdings Roomy s) : s.Owned := by
  induction reach with
  | init start =>
    obtain ⟨⟨memory, built⟩, unused⟩ := start
    intro fd
    rw [unused]
    refine iff_of_false (Finset.notMem_empty fd) ?_
    rintro ⟨i, at'⟩
    rw [built, (FileSystem.cleared_construct memory i).1] at at'
    cases at'
  | @step s s' e before roomy t ih =>
    have live := Live.of_reach (before.mono fun _ _ _ => Roomy.short)
    cases e with
    | openAFile c =>
      obtain ⟨r, opens⟩ := t
      exact (RoomFor.owned roomy ih (opened_of_opens opens roomy.1)).1
    | writeAFile buffer size id =>
      obtain ⟨r, stub, done, rfl⟩ := t
      intro fd
      rw [(Stub.writeAFile_alike done).table]
      exact ih fd
    | readFile buffer size id =>
      obtain ⟨r, buffer', stub, done, rfl⟩ := t
      intro fd
      rw [(Stub.readFile_alike done).table]
      exact ih fd
    | closeFile id =>
      obtain ⟨r, stub, done, rfl⟩ := t
      exact live.owned_closed ih (Stub.closing done)
    | create file =>
      obtain rfl : s' = _ := t
      exact ih

/-- What a call of `OpenAFile` owes: no descriptor outside the table, and nothing changed by a failure. -/
def Accountable (s : Holdings) (c : NamedCall) : Prop :=
  ∀ r s', s.Opens c r s' → s'.Owned ∧
    (r = -1 → s'.stub.table = s.stub.table ∧ s'.stub.host.descriptors = s.stub.host.descriptors)

/-- A long name can do anything, for example to the host's first descriptor. -/
theorem Accountable.short (accountable : s.Accountable c) (answers : s.Answers c) : c.name.length ≤ 100 := by
  by_contra long
  let other : Option Description := if (s.stub.host.descriptors 0).isSome then none else some ⟨0, 0⟩
  have possible : s.Opens c (-1) ⟨⟨s.stub.table, s.stub.host.setDescriptor 0 other⟩, s.opened⟩ :=
    ⟨answers, fun short => absurd short long⟩
  have same := congrFun ((accountable _ _ possible).2 rfl).2 0
  rw [Host.setDescriptor_self] at same
  cases before : s.stub.host.descriptors 0 with
  | none => simp [other, before] at same
  | some d => simp [other, before] at same

theorem Accountable.vacant (accountable : s.Accountable c) (answers : s.Answers c) (new : s.stub.duplicate c = false) {fd : ℤ}
    {file : ℕ} (answer : c.answer = some (fd, file)) : ¬ s.stub.table.Full := by
  intro full
  have result : s.stub.openAFile c = (-1, ⟨s.stub.table, s.stub.host.openFile fd file⟩) := by
    rw [Stub.openAFile, new, answer, if_neg Bool.false_ne_true, FileSystem.free_eq_none_iff.2 full]
  have called : s.opens c = (-1, ⟨⟨s.stub.table, s.stub.host.openFile fd file⟩, s.opened ∪ s.received c⟩) := by
    rw [opens, result]
  have kept := (accountable _ _ ⟨answers, fun _ => called.symm⟩).2
  have same := congrFun (kept rfl).2 fd
  rw [(answers fd file answer).2, Host.openFile, Host.setDescriptor_self] at same
  cases same

/-! ## Twenty open files -/

/-- `OpenAFile` of a file whose name is one character, on which the host opens the next descriptor. -/
def numbered (k : Fin 21) : OpenCall where
  name := ⟨[BitVec.ofNat 8 (k + 1)], List.cons_ne_nil _ _, by rw [List.length_singleton]; decide, by revert k; decide⟩
  stack := [0, 0]
  behind := []
  fd := 3 + k

/-- `k` slots are in use, with the first `k` of these names, and the descriptors behind are free. -/
structure Stacked (k : ℕ) (s : Holdings) : Prop where
  count : (Finset.univ.filter fun i => (s.stub.table.openFileTable i).isSome).card = k
  sound : ∃ passed, Session.Sound ⟨s.stub.table, passed⟩ ∧
    ∀ i, (s.stub.table.openFileTable i).isSome → ∃ j < k, passed i = [BitVec.ofNat 8 (j + 1)]
  free : ∀ fd, 3 + (k : ℤ) ≤ fd → s.stub.host.descriptors fd = none

theorem Stacked.full_iff {k : ℕ} (h : s.Stacked k) : s.stub.table.Full ↔ k = 20 := by
  have whole := Finset.card_eq_iff_eq_univ (Finset.univ.filter fun i => (s.stub.table.openFileTable i).isSome)
  rw [Fintype.card_fin, h.count, Finset.filter_eq_self] at whole
  rw [whole]
  exact ⟨fun full i _ => full i, fun full i => full i (Finset.mem_univ i)⟩

theorem Stacked.not_isOpen {k : Fin 21} (h : s.Stacked k) : ¬ s.stub.table.IsOpen (numbered k).name.chars := by
  rintro ⟨i, some, recorded⟩
  obtain ⟨passed, sound, names⟩ := h.sound
  obtain ⟨j, lt, name⟩ := names i some
  have same : [BitVec.ofNat 8 (k + 1)] = [BitVec.ofNat 8 (j + 1)] := recorded.symm.trans ((sound.passed i some).trans name)
  have value := congrArg BitVec.toNat (List.singleton_inj.1 same)
  rw [BitVec.toNat_ofNat, BitVec.toNat_ofNat] at value
  omega

theorem numbered_fd (k : Fin 21) : (numbered k).fd ≠ -1 := by
  change 3 + (k : ℤ) ≠ -1
  omega

theorem numbered_answer (k : Fin 21) : ((numbered k).named 0).answer = some (3 + (k : ℤ), 0) := by
  rw [OpenCall.named, if_neg (numbered_fd k), numbered]

theorem Stacked.answers {k : Fin 21} (h : s.Stacked k) : s.Answers ((numbered k).named 0) := by
  intro fd file answer
  rw [numbered_answer, Option.some.injEq, Prod.mk.injEq] at answer
  obtain ⟨rfl, -⟩ := answer
  exact ⟨by omega, h.free _ le_rfl⟩

theorem Stacked.new {k : Fin 21} (h : s.Stacked k) : s.stub.duplicate ((numbered k).named 0) = false := by
  obtain ⟨passed, sound, -⟩ := h.sound
  have ended : cstr (numbered k).newArr = (numbered k).name.chars := OpenCall.ended_iff.1 rfl
  rw [← Bool.not_eq_true]
  intro found
  have found : s.stub.table.duplicate (numbered k) = true := found
  rw [sound.duplicate_iff, ended] at found
  obtain present | behind := found
  · exact h.not_isOpen present
  · cases behind

theorem Stacked.fill {k : Fin 21} (h : s.Stacked k) (vacant : s.stub.table.openFileTable i = none) :
    Stacked (k + 1) ⟨⟨(s.stub.table.setFile i (some ⟨3 + k⟩)).strcpy i (numbered k).newArr, s.stub.host.openFile (3 + k) 0⟩,
      insert (3 + (k : ℤ)) s.opened⟩ := by
  obtain ⟨passed, sound, names⟩ := h.sound
  constructor
  · have more : (Finset.univ.filter fun j => (Function.update s.stub.table.openFileTable i (some ⟨3 + k⟩) j).isSome) =
        insert i (Finset.univ.filter fun j => (s.stub.table.openFileTable j).isSome) := by
      ext j
      by_cases eq : j = i
      · simp [eq]
      · simp [eq]
    have fresh : i ∉ Finset.univ.filter fun j => (s.stub.table.openFileTable j).isSome := by
      simp [vacant]
    exact (congrArg Finset.card more).trans ((Finset.card_insert_of_notMem fresh).trans (congrArg (· + 1) h.count))
  · refine ⟨_, sound.fill (f := ⟨3 + k⟩) h.not_isOpen rfl, fun j used => ?_⟩
    by_cases eq : j = i
    · subst eq
      exact ⟨k, Nat.lt_succ_self _, Function.update_self ..⟩
    · have old : (s.stub.table.openFileTable j).isSome := by
        rw [← Function.update_of_ne eq (some (⟨3 + k⟩ : OpenFile)) s.stub.table.openFileTable]
        exact used
      obtain ⟨l, lt, name⟩ := names j old
      exact ⟨l, Nat.lt_succ_of_lt lt, (Function.update_of_ne eq ..).trans name⟩
  · intro fd behind
    have ne : fd ≠ 3 + (k : ℤ) := by omega
    exact (Host.setDescriptor_of_ne ne).trans (h.free fd (by omega))

/-- One more. -/
theorem Stacked.next {k : Fin 21} (h : s.Stacked k) (few : k.val < 20) :
    ∃ s', holdings.step s (.openAFile ((numbered k).named 0)) s' ∧ s.RoomFor ((numbered k).named 0) ∧ s'.Stacked (k + 1) := by
  have vacant : ¬ s.stub.table.Full := fun full => by
    have := h.full_iff.1 full
    omega
  have room : s.RoomFor ((numbered k).named 0) := ⟨(numbered k).name.short.le, .inr (.inr vacant)⟩
  have possible : s.Opens ((numbered k).named 0) (s.opens ((numbered k).named 0)).1 (s.opens ((numbered k).named 0)).2 :=
    ⟨h.answers, fun _ => rfl⟩
  refine ⟨_, ⟨_, possible⟩, room, ?_⟩
  have way := opened_of_opens possible room.1
  revert way
  generalize (s.opens ((numbered k).named 0)).1 = r
  generalize (s.opens ((numbered k).named 0)).2 = s'
  rintro (found | ⟨fd, file, i, free, answer, vacant⟩ | ⟨fd, file, -, -, -, full⟩)
  · rw [h.new, numbered_answer] at found
    simp at found
  · rw [numbered_answer, Option.some.injEq, Prod.mk.injEq] at answer
    obtain ⟨rfl, rfl⟩ := answer
    exact h.fill vacant
  · exact absurd full vacant

/-- A file system at the start. -/
def fresh (contents : ℕ → List Byte) : Holdings := ⟨⟨.construct Session.blank, contents, fun _ => none⟩, ∅⟩

theorem reach_fresh (contents : ℕ → List Byte) : Reach holdings Roomy (fresh contents) := .init ⟨⟨Session.blank, rfl⟩, rfl⟩

theorem fresh_vacant (contents : ℕ → List Byte) (i : Fin 20) : (fresh contents).stub.table.openFileTable i = none :=
  (FileSystem.cleared_construct Session.blank i).1

theorem stacked_fresh (contents : ℕ → List Byte) : (fresh contents).Stacked 0 := by
  refine ⟨?_, ⟨fun _ => [], Session.sound_construct rfl, fun i used => ?_⟩, fun _ _ => rfl⟩
  · apply Finset.card_eq_zero.2
    apply Finset.filter_eq_empty_iff.2
    intro i _
    rw [fresh_vacant]
    exact Bool.false_ne_true
  · rw [fresh_vacant] at used
    cases used

/-- All slots can come to be in use. -/
theorem exists_stacked : ∃ s, Reach holdings Roomy s ∧ s.Stacked 20 := by
  have upTo (k : ℕ) (few : k ≤ 20) : ∃ s, Reach holdings Roomy s ∧ s.Stacked k := by
    induction k with
    | zero => exact ⟨_, reach_fresh fun _ => [], stacked_fresh _⟩
    | succ k ih =>
      obtain ⟨s, reach, stacked⟩ := ih (by omega)
      obtain ⟨s', t, room, next⟩ := Stacked.next (k := ⟨k, by omega⟩) stacked few
      exact ⟨s', reach.step (a := Event.openAFile _) room t, next⟩
  exact upTo 20 le_rfl

/-- **The descriptors of `OpenAFile`.** In the runs in which no file is opened without a slot for it, they are
those in the table; a further call keeps it so, and leaves everything as it was if it fails, exactly
when it does not open a file without a slot either. -/
theorem descriptors_owned (reach : Reach holdings Roomy s) :
    (∀ fd ∈ s.opened, s.stub.host.IsOpen fd) ∧ s.Owned ∧ ∀ c, s.Answers c → (s.Accountable c ↔ s.RoomFor c) := by
  have owned := Owned.of_reach reach
  have live := Live.of_reach (reach.mono fun _ _ _ => Roomy.short)
  refine ⟨live.isOpen, owned, fun c answers => ⟨fun accountable => ?_, fun room r s' opens => ?_⟩⟩
  · refine ⟨accountable.short answers, ?_⟩
    by_contra without
    obtain ⟨new, without⟩ := not_or.1 without
    obtain ⟨opens, full⟩ := not_or.1 without
    obtain ⟨⟨fd, file⟩, answer⟩ := Option.ne_none_iff_exists'.1 opens
    exact full (accountable.vacant answers (Bool.eq_false_of_not_eq_true new) answer)
  · obtain ⟨kept, same⟩ := room.owned owned (opened_of_opens opens room.1)
    refine ⟨kept, fun failed => ?_⟩
    rw [same failed]
    exact ⟨rfl, rfl⟩

/-- The table is full, and the next file would be opened for nothing. -/
theorem descriptors_owned_full : ∃ s, Reach holdings Roomy s ∧ s.Owned ∧ ¬ s.Accountable ((numbered 20).named 0) := by
  obtain ⟨s, reach, stacked⟩ := exists_stacked
  obtain ⟨-, owned, exactly⟩ := descriptors_owned reach
  refine ⟨s, reach, owned, fun accountable => ?_⟩
  obtain ⟨-, found | fails | vacant⟩ := (exactly _ (Stacked.answers (k := 20) stacked)).1 accountable
  · rw [Stacked.new (k := 20) stacked] at found
    cases found
  · rw [numbered_answer] at fails
    cases fails
  · exact vacant (stacked.full_iff.2 rfl)

/-- With 20 open files a call for another one returns -1 and keeps its descriptor. -/
theorem descriptor_lost : ¬ ∀ s, Reach holdings Short s → s.Owned ∧
    ∀ c, c.name.length < 100 → s.Answers c → s.Accountable c := by
  intro claim
  obtain ⟨s, reach, stacked⟩ := exists_stacked
  have answers := Stacked.answers (k := 20) stacked
  have accountable := (claim s (reach.mono fun _ _ _ => Roomy.short)).2 _ (numbered 20).name.short answers
  exact accountable.vacant answers (Stacked.new (k := 20) stacked) (numbered_answer 20) (stacked.full_iff.2 rfl)

end Holdings

end Nachos.Mp1
