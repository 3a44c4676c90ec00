import Nachos.Base.Transition
import Nachos.Mp3.Scheduler

/-!
# Runs of the kernel

The operations of `threads/thread.cc`, `threads/synch.cc` and `threads/alarm.cc` between
two points at which interrupts are enabled, and the runs they make up. A context switch
ends a step: the next step is the thread switched to going on where it left off. In the
loop of `Sleep` only interrupt handlers run, until one of them has made a thread ready.
-/

namespace Nachos.Mp3
open Transition

namespace Kernel

/-! ## `threads/thread.cc` -/

/-- `Thread::Fork` on a new thread. -/
def fork (k : Kernel) (t : ThreadPtr) (threadID : Nat) (P : Int) : Exec Kernel :=
  let k := { k with live := insert t k.live }
  let k := (k.modify t fun _ => Thread.create threadID P).setResume t .start
  k.readyToRun t

/-- `Thread::Yield` up to the context switch. -/
def yield (k : Kernel) : Exec Kernel := do
  let this := k.currentThread
  let k := k.modify this fun th =>
    { th with useTime := th.useTime + (k.totalTicks - th.burstStartTime), waitStartTime := k.totalTicks }
  match ← k.findNextToRun with
  | (none, k) => pure k
  | (some nextThread, k) => do
    let k ← k.readyToRun this
    (k.setResume this .yield).run nextThread false

/-- The test of the loop of `Sleep`, and `Run` behind the loop. -/
def poll (k : Kernel) (finishing : Bool) : Exec Kernel := do
  match ← k.findNextToRun with
  | (none, k) => pure { k with phase := .idling finishing }
  | (some nextThread, k) => k.run nextThread finishing

/-- What `Sleep` does to the thread that calls it. -/
def asleep (totalTicks : Nat) (th : Thread) : Thread :=
  let th := { th with useTime := th.useTime + (totalTicks - th.burstStartTime) }
  let th := { th with burstTime := 0.5 * th.burstTime + 0.5 * th.useTime }
  { th with useTime := 0, status := .blocked }

/-- `Thread::Sleep` up to the context switch. -/
def sleep (k : Kernel) (finishing : Bool) : Exec Kernel :=
  (k.modify k.currentThread (asleep k.totalTicks)).poll finishing

/-- `Thread::Finish`. -/
def finish (k : Kernel) : Exec Kernel := k.sleep true

/-! ## `threads/synch.cc` -/

/-- `Semaphore::P`, from the test of its loop on. -/
def semaphoreP (k : Kernel) (s : SemaphorePtr) : Exec Kernel := do
  let v := k.semaphores s
  if v.value = 0 then
    let queue ← append v.queue k.currentThread
    ((k.setSemaphore s { v with queue := queue }).setResume k.currentThread (.wait s)).sleep false
  else pure (k.setSemaphore s { v with value := v.value - 1 })

/-- `Semaphore::V`. -/
def semaphoreV (k : Kernel) (s : SemaphorePtr) : Exec Kernel := do
  let k ← if ¬ (k.semaphores s).queue.isEmpty then do
      let (t, queue) ← removeFront (k.semaphores s).queue
      (k.setSemaphore s { k.semaphores s with queue := queue }).readyToRun t
    else pure k
  pure (k.setSemaphore s { k.semaphores s with value := (k.semaphores s).value + 1 })

/-- The thread that was switched to goes on. -/
def switchedTo (k : Kernel) : Exec Kernel := do
  let k ← k.checkToBeDestroyed
  let k := { k with phase := .running }
  match k.resume k.currentThread with
  | .start | .yield => pure k
  | .wait s => k.semaphoreP s

/-! ## `threads/alarm.cc` -/

/-- The conversion of a `double` to an `int`. -/
def truncate (q : ℚ) : Int := q.num.tdiv q.den

/-- `Scheduler::L1_Front_Remain`. -/
def L1FrontRemain (k : Kernel) : Int :=
  match k.readyList .L1 with
  | [] => -1
  | t :: _ => truncate ((k.threads t).burstTime - (k.threads t).useTime)

/-- The `label` of `Alarm::CallBack`: whether the current thread is to yield. -/
def preempts (k : Kernel) : Bool :=
  let th := k.threads k.currentThread
  if th.priority < 50 then
    ¬ (k.readyList .L1).isEmpty ∨ ¬ (k.readyList .L2).isEmpty ∨ (k.totalTicks : ℚ) - th.burstStartTime ≥ 100
  else if th.priority ≥ 50 ∧ th.priority < 100 then ¬ (k.readyList .L1).isEmpty
  else
    let currentRemain := truncate (th.burstTime - th.useTime - (k.totalTicks - th.burstStartTime))
    ¬ (k.readyList .L1).isEmpty ∧ currentRemain > k.L1FrontRemain

/-- `Alarm::CallBack`. The machine is idle in the loop of `Sleep` only. -/
def callBack (k : Kernel) : Exec Kernel := do
  let k ← k.updatePriority
  if k.preempts ∧ k.phase = .running then pure { k with yieldOnReturn := true } else pure k

/-- The end of `Interrupt::OneTick`. -/
def interruptReturn (k : Kernel) : Exec Kernel :=
  if k.yieldOnReturn then { k with yieldOnReturn := false }.yield else pure k

end Kernel

/-! ## Runs -/

/-- What can happen next. `V` and the alarm also come from interrupt handlers. -/
inductive Event where
  | tick (n : Nat)
  | fork (t : ThreadPtr) (threadID : Nat) (P : Int)
  | newSemaphore (s : SemaphorePtr) (initialValue : Int)
  | semaphoreP (s : SemaphorePtr)
  | semaphoreV (s : SemaphorePtr)
  | yield
  | finish
  | alarm
  | interruptReturn
  | poll
  | switchedTo
  deriving DecidableEq

namespace Kernel

/-- What can happen where the kernel stands. The allocator returns unused addresses, and
no semaphore is deleted while a thread waits on it. -/
def Enabled (k : Kernel) : Event → Prop
  | .tick _ | .semaphoreV _ | .alarm => k.phase ≠ .switched
  | .fork t _ _ => k.phase = .running ∧ t ∉ k.live
  | .newSemaphore s _ => k.phase = .running ∧ (k.semaphores s).queue = []
  | .semaphoreP _ | .yield | .finish | .interruptReturn => k.phase = .running
  | .poll => ∃ finishing, k.phase = .idling finishing
  | .switchedTo => k.phase = .switched

/-- One step. -/
def step (k : Kernel) : Event → Exec Kernel
  | .tick n => pure { k with totalTicks := k.totalTicks + n }
  | .fork t threadID P => k.fork t threadID P
  | .newSemaphore s initialValue => pure (k.setSemaphore s { value := initialValue, queue := [] })
  | .semaphoreP s => k.semaphoreP s
  | .semaphoreV s => k.semaphoreV s
  | .yield => k.yield
  | .finish => k.finish
  | .alarm => k.callBack
  | .interruptReturn => k.interruptReturn
  | .poll => k.poll (k.phase = .idling true)
  | .switchedTo => k.switchedTo

instance (k : Kernel) (e : Event) : Decidable (k.Enabled e) :=
  match e with
  | .tick _ | .semaphoreV _ | .alarm => inferInstanceAs (Decidable (_ ≠ _))
  | .fork _ _ _ | .newSemaphore _ _ => inferInstanceAs (Decidable (_ ∧ _))
  | .semaphoreP _ | .yield | .finish | .interruptReturn | .switchedTo => inferInstanceAs (Decidable (_ = _))
  | .poll => inferInstanceAs (Decidable (∃ finishing, _ = Phase.idling finishing))

/-- One step, where it can happen and returns. -/
def exec (k : Kernel) (e : Event) : Option Kernel := if k.Enabled e then (k.step e).toOption else none

theorem exec_some {k k' : Kernel} {e : Event} (done : k.exec e = some k') : k.Enabled e ∧ k.step e = .ok k' := by
  obtain ⟨enabled, done⟩ := Option.ite_none_right_eq_some.1 done
  cases run : k.step e with
  | error f =>
    rw [run] at done
    cases done
  | ok next =>
    rw [run] at done
    cases done
    exact ⟨enabled, rfl⟩

/-- `Kernel::Initialize`: the main thread runs, and no other thread is there. -/
def initial (main : ThreadPtr) (values : SemaphorePtr → Int) : Kernel where
  threads := Function.update (fun _ => Thread.create 0 0) main { Thread.create 0 0 with status := .running }
  live := {main}
  readyList _ := []
  toBeDestroyed := none
  currentThread := main
  totalTicks := 0
  semaphores s := { value := values s, queue := [] }
  resume _ := .start
  phase := .running
  yieldOnReturn := false

end Kernel

/-- The runs of the kernel. -/
def kernelSystem : Transition.System Kernel Event where
  init k := ∃ main values, k = Kernel.initial main values
  step k e k' := k.Enabled e ∧ k.step e = .ok k'

/-- The states of all runs. -/
abbrev Reachable : Kernel → Prop := Reach kernelSystem fun _ _ => True

theorem Reachable.next {k k' : Kernel} (reach : Reachable k) (e : Event) (enabled : k.Enabled e) (run : k.step e = .ok k') :
    Reachable k' := .step reach trivial ⟨enabled, run⟩

end Nachos.Mp3
