import Mathlib.Data.Finset.Basic
import Mathlib.Logic.Function.Basic
import Mathlib.Tactic.Simps.Basic
import Nachos.Base.Queue
import Nachos.Mp3.Thread

/-!
# The scheduler

`threads/scheduler.cc` on a state that holds the thread objects, the three ready queues,
the semaphores and the point at which the kernel stands. A thread is known by its address.
A list node holds one thread and a thread stands in a list at most once, so that the
iterators of `UpdatePriority` are items; `Next` on a node that was just removed gives the
node that stood behind it.
-/

namespace Nachos.Mp3

/-- The `ASSERT`s, and a loop that does not end. -/
inductive Failure where
  | isInList
  | notInList
  | isEmpty
  | toBeDestroyed
  | currentThread
  | diverges
  deriving DecidableEq, Repr

abbrev Exec := Except Failure

/-- The address of a thread. -/
abbrev ThreadPtr := Nat

/-- The address of a semaphore. -/
abbrev SemaphorePtr := Nat

/-! ## Lists (`lib/list.cc`) -/

/-- `List::Append`. -/
def append (l : List ThreadPtr) (item : ThreadPtr) : Exec (List ThreadPtr) :=
  if item ∈ l then throw .isInList else pure (l ++ [item])

/-- `List::RemoveFront`. -/
def removeFront : List ThreadPtr → Exec (ThreadPtr × List ThreadPtr)
  | [] => throw .isEmpty
  | item :: l => pure (item, l)

/-- `List::Remove`. -/
def remove (l : List ThreadPtr) (item : ThreadPtr) : Exec (List ThreadPtr) :=
  if item ∈ l then pure (l.erase item) else throw .notInList

/-- `SortedList::Insert`. -/
def sortedInsert (compare : ThreadPtr → ThreadPtr → Int) (l : List ThreadPtr) (item : ThreadPtr) : Exec (List ThreadPtr) :=
  if item ∈ l then throw .isInList else pure (l.orderedInsert (fun a b => compare a b < 0) item)

theorem append_eq {l : List ThreadPtr} {item : ThreadPtr} (h : item ∉ l) : append l item = .ok (l ++ [item]) := if_neg h

theorem remove_eq {l : List ThreadPtr} {item : ThreadPtr} (h : item ∈ l) : remove l item = .ok (l.erase item) := if_pos h

theorem sortedInsert_eq {compare : ThreadPtr → ThreadPtr → Int} {l : List ThreadPtr} {item : ThreadPtr} (h : item ∉ l) :
    sortedInsert compare l item = .ok (l.orderedInsert (fun a b => compare a b < 0) item) := if_neg h

/-! ## The state -/

/-- The ready queues, `readyList_L1` to `readyList_L3`. -/
inductive Level where
  | L1
  | L2
  | L3
  deriving DecidableEq, Repr

def Level.index : Level → Nat
  | .L1 => 1
  | .L2 => 2
  | .L3 => 3

structure Semaphore where
  value : Int
  queue : List ThreadPtr

/-- Where a thread goes on when it is switched to. -/
inductive Resume where
  /-- In `Begin`, at the start of a forked thread. -/
  | start
  /-- In `Yield`, behind `Run`. -/
  | yield
  /-- In the loop of `P`, behind `Sleep`. -/
  | wait (s : SemaphorePtr)

/-- Where the kernel stands. -/
inductive Phase where
  /-- The current thread runs with interrupts enabled. -/
  | running
  /-- The current thread is in the loop of `Sleep`, in `Idle`. -/
  | idling (finishing : Bool)
  /-- The current thread was just switched to. -/
  | switched
  deriving DecidableEq, Repr

structure Kernel where
  threads : ThreadPtr → Thread
  live : Finset ThreadPtr
  readyList : Level → List ThreadPtr
  toBeDestroyed : Option ThreadPtr
  currentThread : ThreadPtr
  totalTicks : Nat
  semaphores : SemaphorePtr → Semaphore
  resume : ThreadPtr → Resume
  phase : Phase
  yieldOnReturn : Bool

namespace Kernel

@[simps] def modify (k : Kernel) (t : ThreadPtr) (f : Thread → Thread) : Kernel :=
  { k with threads := Function.update k.threads t (f (k.threads t)) }

@[simps] def setList (k : Kernel) (ℓ : Level) (l : List ThreadPtr) : Kernel :=
  { k with readyList := Function.update k.readyList ℓ l }

@[simps] def setSemaphore (k : Kernel) (s : SemaphorePtr) (v : Semaphore) : Kernel :=
  { k with semaphores := Function.update k.semaphores s v }

@[simps] def setResume (k : Kernel) (t : ThreadPtr) (r : Resume) : Kernel :=
  { k with resume := Function.update k.resume t r }

/-- The order of the queue `L1`. -/
def compareBurst (k : Kernel) (a b : ThreadPtr) : Int := cmpBurstTime (k.threads a) (k.threads b)

/-- The order of the queue `L2`. -/
def comparePriority (k : Kernel) (a b : ThreadPtr) : Int := cmpPriority (k.threads a) (k.threads b)

/-- What `ReadyToRun` writes to a thread. -/
@[simps!] def markReady (k : Kernel) (t : ThreadPtr) : Kernel :=
  k.modify t fun th => { th with status := .ready, waitStartTime := k.totalTicks }

/-- `Scheduler::ReadyToRun`. -/
def readyToRun (k : Kernel) (t : ThreadPtr) : Exec Kernel := do
  let k := k.markReady t
  if (k.threads t).priority ≥ 100 then
    pure (k.setList .L1 (← sortedInsert k.compareBurst (k.readyList .L1) t))
  else if (k.threads t).priority ≥ 50 then
    pure (k.setList .L2 (← sortedInsert k.comparePriority (k.readyList .L2) t))
  else pure (k.setList .L3 (← append (k.readyList .L3) t))

/-- `Scheduler::FindNextToRun`. -/
def findNextToRun (k : Kernel) : Exec (Option ThreadPtr × Kernel) := do
  if ¬ (k.readyList .L1).isEmpty then
    let (t, l) ← removeFront (k.readyList .L1)
    pure (some t, k.setList .L1 l)
  else if ¬ (k.readyList .L2).isEmpty then
    let (t, l) ← removeFront (k.readyList .L2)
    pure (some t, k.setList .L2 l)
  else if ¬ (k.readyList .L3).isEmpty then
    let (t, l) ← removeFront (k.readyList .L3)
    pure (some t, k.setList .L3 l)
  else pure (none, k)

/-- What `Run` does behind its `ASSERT`. -/
@[simps!] def switch (k : Kernel) (nextThread : ThreadPtr) : Kernel :=
  { k.modify nextThread fun th => { th with status := .running, burstStartTime := k.totalTicks, waitTime := 0 } with
    currentThread := nextThread, phase := .switched }

/-- `Scheduler::Run` up to the context switch. -/
def run (k : Kernel) (nextThread : ThreadPtr) (finishing : Bool) : Exec Kernel :=
  let oldThread := k.currentThread
  if finishing then
    if k.toBeDestroyed ≠ none then throw .toBeDestroyed
    else pure ({ k with toBeDestroyed := some oldThread }.switch nextThread)
  else pure (k.switch nextThread)

/-- `Scheduler::CheckToBeDestroyed`, with the destructor's `ASSERT`. -/
def checkToBeDestroyed (k : Kernel) : Exec Kernel :=
  match k.toBeDestroyed with
  | none => pure k
  | some t =>
    if t = k.currentThread then throw .currentThread
    else pure { k with live := k.live.erase t, toBeDestroyed := none }

/-! ## `Scheduler::UpdatePriority` -/

/-- Calls `aging` on a thread with the time it has waited. -/
def aging (k : Kernel) (t : ThreadPtr) : Kernel × Bool :=
  let (th, upgrade) := (k.threads t).aging k.totalTicks ((k.totalTicks : Int) - (k.threads t).waitStartTime)
  (k.modify t fun _ => th, upgrade)

/-- Takes a thread out of its queue and makes it ready again. -/
def requeue (k : Kernel) (ℓ : Level) (t : ThreadPtr) : Exec Kernel := do
  let l ← remove (k.readyList ℓ) t
  (k.setList ℓ l).readyToRun t

/-- The body of the loop over `L1`. -/
def visitL1 (t : ThreadPtr) (k : Kernel) : Exec Kernel := pure (k.aging t).1

/-- The body of the loop over `L2`. -/
def visitL2 (t : ThreadPtr) (k : Kernel) : Exec Kernel :=
  let (k, upgrade) := k.aging t
  if upgrade then
    if (k.threads t).ID > 0 then k.requeue .L2 t else pure k
  else k.requeue .L2 t

/-- The body of the loop over `L3`. -/
def visitL3 (t : ThreadPtr) (k : Kernel) : Exec Kernel :=
  let (k, upgrade) := k.aging t
  if upgrade then
    if (k.threads t).ID > 0 then k.requeue .L3 t else pure k
  else pure k

def visit : Level → ThreadPtr → Kernel → Exec Kernel
  | .L1 => visitL1
  | .L2 => visitL2
  | .L3 => visitL3

/-- The loop over one queue. A list of `n` threads takes less than `(n + 1)²` rounds. -/
def pass (k : Kernel) (ℓ : Level) : Exec Kernel :=
  if (k.readyList ℓ).isEmpty then pure k
  else
    let n := (k.readyList ℓ).length
    Queue.walk (fun k => k.readyList ℓ) (visit ℓ) .diverges ((n + 1) * (n + 1)) (k.readyList ℓ).head? k

def updatePriority (k : Kernel) : Exec Kernel := do
  let k ← k.pass .L1
  let k ← k.pass .L2
  k.pass .L3

end Kernel

end Nachos.Mp3
