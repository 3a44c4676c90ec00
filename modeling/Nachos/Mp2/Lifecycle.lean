import Nachos.Mp2.Spaces

/-!
# The life of a user thread

`threads/thread.cc`, `threads/scheduler.cc` and `Kernel::ExecAll` of MP2: the main thread forks
a thread for every program and finishes; the threads begin, load their programs, run, are
preempted, sleep and finish, and are deleted by the thread that runs next. Code between
disabling and enabling interrupts is one step.
-/

namespace Nachos.Mp2
open Bytes Transition

/-- Thread `exec i` runs program number `i`. They are numbered without a bound; the arrays of the
code hold ten. -/
inductive ThreadId where
  | main
  | postal
  | exec (i : ℕ)
  deriving DecidableEq

/-- Where a thread stands. -/
inductive Place where
  /-- Not created yet. -/
  | unborn
  /-- On its new stack: the first switch to it calls `Begin`. -/
  | forked
  /-- In `Begin`, before the increment of `execRunningNum`. -/
  | beginning
  /-- Before the `Load` of `ForkExecute`. -/
  | begun
  /-- In its program or a system call. -/
  | running
  /-- Asleep on a semaphore. -/
  | blocked
  /-- `Load` has returned FALSE. -/
  | returned
  /-- In the `Sleep` of `Finish`. -/
  | finished
  | deleted
  deriving DecidableEq

/-- What the processor does. -/
inductive Phase where
  | running
  /-- The current thread is in the loop of `Sleep`. -/
  | sleeping (finishing : Bool)
  /-- Behind `SWITCH`, before `CheckToBeDestroyed`. -/
  | switched
  deriving DecidableEq

structure Kernel where
  currentThread : ThreadId
  readyList : List ThreadId
  toBeDestroyed : Option ThreadId
  phase : Phase
  place : ThreadId → Place
  /-- The programs that `ExecAll` has passed to `Exec`. -/
  started : ℕ
  execfileNum : ℕ
  execExit : Bool
  execRunningNum : ℤ
  /-- `Finish` has called `Halt`. -/
  halted : Bool
  spaces : Spaces ℕ

/-- An access of the running program to its memory. -/
inductive Access where
  | readMem (addr : Word) (size : ℕ)
  | writeMem (addr : Word) (size : ℕ) (value : Word)
  /-- The host fills a buffer for `SC_Read`. -/
  | store (addr : ℤ) (bytes : List Byte)

inductive Event where
  /-- `Exec`, for the next program. -/
  | exec
  /-- The rest of `Begin`. -/
  | begin
  | load (exe : Option Executable)
  | access (x : Access)
  /-- A timer interrupt: the current thread yields. -/
  | yield
  /-- `Sleep` on a semaphore. -/
  | block
  | wake (t : ThreadId)
  | finish
  /-- The loop of `Sleep` finds a thread to run. -/
  | dispatch
  | check

def ThreadId.isExec : ThreadId → Bool
  | .exec _ => true
  | .main | .postal => false

namespace Kernel

def setPlace (k : Kernel) (t : ThreadId) (p : Place) : Kernel := { k with place := Function.update k.place t p }

/-- The current thread executes, at the given place. -/
def At (k : Kernel) (p : Place) : Prop := k.phase = .running ∧ k.place k.currentThread = p

instance (k : Kernel) (p : Place) : Decidable (k.At p) := inferInstanceAs (Decidable (_ ∧ _))

/-- `Exec` in the main thread. -/
def exec (k : Kernel) : Option Kernel :=
  if k.At .running ∧ k.currentThread = .main ∧ k.started < k.execfileNum then
    some { k.setPlace (.exec k.started) .forked with
      readyList := k.readyList ++ [.exec k.started]
      started := k.started + 1 }
  else none

/-- `Begin` from the return of `Enable` on. -/
def begin (k : Kernel) : Option Kernel :=
  if k.At .beginning then
    if k.currentThread.isExec then
      some { k.setPlace k.currentThread .begun with
        execRunningNum := if k.execExit then k.execRunningNum + 1 else k.execRunningNum }
    else some (k.setPlace k.currentThread .running)
  else none

/-- `Load` in `ForkExecute`. -/
def load (k : Kernel) (exe : Option Executable) : Option Kernel :=
  match k.currentThread with
  | .exec i =>
    if k.At .begun then
      (k.spaces.load i exe).map fun spaces =>
        { k.setPlace (.exec i) (if (spaces.space i).isSome then .running else .returned) with spaces := spaces }
    else none
  | _ => none

def access (k : Kernel) (x : Access) : Option Kernel :=
  match k.currentThread with
  | .exec i =>
    if k.At .running then
      match x with
      | .readMem addr size => (k.spaces.readMem i addr size).map fun spaces => { k with spaces := spaces }
      | .writeMem addr size value => (k.spaces.writeMem i addr size value).map fun spaces => { k with spaces := spaces }
      | .store addr bytes => some { k with spaces := k.spaces.store addr bytes }
    else none
  | _ => none

/-- `Scheduler::Run` up to `SWITCH`. The `ASSERT` on `toBeDestroyed` fails with `none`. -/
def run (k : Kernel) (next : ThreadId) (finishing : Bool) : Option Kernel :=
  if finishing ∧ k.toBeDestroyed ≠ none then none
  else some { k.setPlace next (if k.place next = .forked then .beginning else k.place next) with
    toBeDestroyed := if finishing then some k.currentThread else k.toBeDestroyed
    currentThread := next
    phase := .switched }

/-- `Yield`. -/
def yield (k : Kernel) : Option Kernel :=
  if k.At .running ∨ k.At .beginning then
    match k.readyList with
    | [] => some k
    | next :: rest => { k with readyList := rest ++ [k.currentThread] }.run next false
  else none

/-- A thread goes to sleep on a semaphore. -/
def block (k : Kernel) : Option Kernel :=
  if k.At .running ∧ k.currentThread ≠ .main then
    some { k.setPlace k.currentThread .blocked with phase := .sleeping false }
  else none

/-- A `V`, in an interrupt handler or in the running thread. -/
def wake (k : Kernel) (t : ThreadId) : Option Kernel :=
  if k.phase ≠ .switched ∧ k.place t = .blocked then
    some { k.setPlace t .running with readyList := k.readyList ++ [t] }
  else none

/-- The thread calls `Finish`: the program exits, or was not found, or `ExecAll` is done. -/
def finishes (k : Kernel) : Bool :=
  match k.currentThread with
  | .main => k.At .running ∧ k.started = k.execfileNum
  | .postal => false
  | .exec _ => k.At .running ∨ k.At .returned

/-- `Finish`, up to the loop of `Sleep`. -/
def finish (k : Kernel) : Option Kernel :=
  if k.finishes then
    if k.execExit ∧ k.currentThread.isExec then
      some { k.setPlace k.currentThread .finished with
        execRunningNum := k.execRunningNum - 1
        halted := decide (k.execRunningNum - 1 = 0)
        phase := .sleeping true }
    else some { k.setPlace k.currentThread .finished with phase := .sleeping true }
  else none

/-- `FindNextToRun` in the loop of `Sleep`. -/
def dispatch (k : Kernel) : Option Kernel :=
  match k.phase, k.readyList with
  | .sleeping finishing, next :: rest => { k with readyList := rest }.run next finishing
  | _, _ => none

/-- `CheckToBeDestroyed`: the thread is deleted, its address space is not. -/
def checkToBeDestroyed (k : Kernel) : Option Kernel :=
  if k.phase = .switched then
    match k.toBeDestroyed with
    | none => some { k with phase := .running }
    | some t =>
      if t = k.currentThread then none
      else some { k.setPlace t .deleted with toBeDestroyed := none, phase := .running }
  else none

def step (k : Kernel) (e : Event) : Option Kernel :=
  if k.halted then none
  else match e with
    | .exec => k.exec
    | .begin => k.begin
    | .load exe => k.load exe
    | .access x => k.access x
    | .yield => k.yield
    | .block => k.block
    | .wake t => k.wake t
    | .finish => k.finish
    | .dispatch => k.dispatch
    | .check => k.checkToBeDestroyed

/-- The main thread before `ExecAll`; the postal worker has been forked. -/
def initial (execfileNum : ℕ) (execExit : Bool) (spaces : Spaces ℕ) : Kernel where
  currentThread := .main
  readyList := [.postal]
  toBeDestroyed := none
  phase := .running
  place
    | .main => .running
    | .postal => .forked
    | .exec _ => .unborn
  started := 0
  execfileNum := execfileNum
  execExit := execExit
  execRunningNum := 0
  halted := false
  spaces := spaces

end Kernel

/-- The runs of the kernel with its programs, from an all-free frame table. -/
def lifecycle (execExit : Bool) : System Kernel Event where
  init k := ∃ n spaces, k = .initial n execExit spaces ∧
    spaces.memory.frameTableStatus = (fun _ => false) ∧ ∀ i, spaces.space i = none
  step k e k' := k.step e = some k'

end Nachos.Mp2
