import Mathlib.Data.Finset.Option
import Mathlib.Data.Int.Notation
import Mathlib.Tactic.Simps.Basic
import Nachos.Base.Condition
import Nachos.Base.Transition

/-!
# Semaphores, locks and condition variables

`threads/synch.cc`, for any number of threads. The code of `P` and `V` with interrupts off is
one step, where `P` ends a step each time it calls `Sleep`; everywhere else a thread can be
preempted between any two statements, and any thread that is awake may run. What a thread has
still to execute is a list of statements.
-/

namespace Nachos.Mp3.Synch
open Transition

/-- A semaphore with its history: the threads in its queue and those that `V` has removed from
there and that have not tested the value again, and how often `P` and `V` were completed. -/
structure Semaphore (τ : Type) where
  value : ℤ
  queue : List τ
  waiters : Condition τ
  passed : ℕ
  raised : ℕ

/-- The semaphores of a program: its own, those in its locks, and those that `Condition::Wait`
makes, by number. -/
inductive SemaphorePtr (σ κ : Type) where
  | user (s : σ)
  | lock (l : κ)
  | waiter (n : ℕ)
  deriving DecidableEq

/-- The statements of `Semaphore`, `Lock` and `Condition`; `l` is the lock, or the argument
`conditionLock`. -/
inductive Statement (σ κ γ : Type) where
  | P (x : SemaphorePtr σ κ)
  | V (x : SemaphorePtr σ κ)
  /-- `ASSERT(IsHeldByCurrentThread())`. -/
  | assertHeld (l : κ)
  /-- `lockHolder = kernel->currentThread`. -/
  | setHolder (l : κ)
  /-- `lockHolder = NULL`. -/
  | clearHolder (l : κ)
  /-- `waiter = new Semaphore("condition", 0)`, and the rest of `Wait`. -/
  | newWaiter (c : γ) (l : κ)
  /-- `waitQueue->Append(waiter)`. -/
  | append (c : γ) (l : κ) (n : ℕ)
  /-- The test of `Signal`. -/
  | isEmpty (c : γ) (l : κ)
  /-- `waiter = waitQueue->RemoveFront()`, and the rest of `Signal`. -/
  | removeFront (c : γ) (l : κ)
  /-- The loop of `Broadcast`. -/
  | broadcast (c : γ) (l : κ)
  deriving DecidableEq

/-- Where a call of `Wait` is: its semaphore was made, is in the queue, was removed by a thread
in `Signal`, or that thread has called `V`. -/
inductive Phase (τ : Type) where
  | made
  | queued
  | removed (t : τ)
  | freed

/-- A call of `Condition::Wait`. -/
structure Wait (τ γ : Type) where
  thread : τ
  cond : γ
  phase : Phase τ

/-- `held` are the locks that a thread is between `Acquire` and `Release` of, as its own
statements say; `next` numbers the calls of `Wait`. -/
structure State (τ σ κ γ : Type) where
  semaphore : SemaphorePtr σ κ → Semaphore τ
  lockHolder : κ → Option τ
  waitQueue : γ → List ℕ
  todo : τ → List (Statement σ κ γ)
  held : τ → Finset κ
  waits : ℕ → Option (Wait τ γ)
  next : ℕ

inductive Call (σ κ γ : Type) where
  | P (s : σ)
  | V (s : σ)
  | acquire (l : κ)
  | release (l : κ)
  | wait (c : γ) (l : κ)
  | signal (c : γ) (l : κ)
  | broadcast (c : γ) (l : κ)

/-- A thread calls a function, or takes its next step. -/
inductive Event (τ σ κ γ : Type) where
  | call (t : τ) (f : Call σ κ γ)
  | run (t : τ)

/-- The thread of an event. -/
def Event.thread {τ σ κ γ : Type} : Event τ σ κ γ → τ
  | .call t _ => t
  | .run t => t

section
variable {τ σ κ γ : Type}

/-- `Semaphore::Semaphore`. The value of a semaphore is never negative. -/
def Semaphore.new (initialValue : ℕ) : Semaphore τ := ⟨initialValue, [], .idle, 0, 0⟩

/-- What the semaphores are made with. -/
def SemaphorePtr.initialValue (user : σ → ℕ) : SemaphorePtr σ κ → ℕ
  | .user s => user s
  | .lock _ => 1
  | .waiter _ => 0

/-! ## The functions -/

/-- `Lock::Acquire`. -/
def acquire (l : κ) : List (Statement σ κ γ) := [.P (.lock l), .setHolder l]

/-- `Lock::Release`. -/
def release (l : κ) : List (Statement σ κ γ) := [.assertHeld l, .clearHolder l, .V (.lock l)]

/-- `Condition::Wait`, up to `new`. -/
def wait (c : γ) (l : κ) : List (Statement σ κ γ) := [.assertHeld l, .newWaiter c l]

/-- `Condition::Wait` behind `new`. `delete` gives back memory only. -/
def waitOn (c : γ) (l : κ) (n : ℕ) : List (Statement σ κ γ) :=
  .append c l n :: (release l ++ (.P (.waiter n) :: acquire l))

/-- `Condition::Signal`. -/
def signal (c : γ) (l : κ) : List (Statement σ κ γ) := [.assertHeld l, .isEmpty c l]

def Call.body : Call σ κ γ → List (Statement σ κ γ)
  | .P s => [.P (.user s)]
  | .V s => [.V (.user s)]
  | .acquire l => Synch.acquire l
  | .release l => Synch.release l
  | .wait c l => Synch.wait c l
  | .signal c l => Synch.signal c l
  | .broadcast c l => [.broadcast c l]

/-! ## Steps -/

section
namespace State

@[simps] def setPhase (s : State τ σ κ γ) (n : ℕ) (p : Phase τ) : State τ σ κ γ :=
  { s with waits := Function.update s.waits n ((s.waits n).map fun w => { w with phase := p }) }

/-- The next private semaphore. It is as `new` makes it: nobody has called `P` or `V` on it. -/
@[simps] def newWait (s : State τ σ κ γ) (t : τ) (c : γ) : State τ σ κ γ :=
  { s with waits := Function.update s.waits s.next (some ⟨t, c, .made⟩), next := s.next + 1 }

/-- `V` on the semaphore of a call of `Wait` is what frees the call. -/
def free (s : State τ σ κ γ) : SemaphorePtr σ κ → State τ σ κ γ
  | .waiter n => s.setPhase n .freed
  | .user _ | .lock _ => s

variable {s : State τ σ κ γ} (x : SemaphorePtr σ κ)

@[simp] theorem free_semaphore : (s.free x).semaphore = s.semaphore := by cases x <;> rfl
@[simp] theorem free_lockHolder : (s.free x).lockHolder = s.lockHolder := by cases x <;> rfl
@[simp] theorem free_waitQueue : (s.free x).waitQueue = s.waitQueue := by cases x <;> rfl
@[simp] theorem free_todo : (s.free x).todo = s.todo := by cases x <;> rfl
@[simp] theorem free_held : (s.free x).held = s.held := by cases x <;> rfl
@[simp] theorem free_next : (s.free x).next = s.next := by cases x <;> rfl

end State
end

variable [DecidableEq τ] [DecidableEq σ] [DecidableEq κ] [DecidableEq γ]

namespace Semaphore

/-- `P` on a value of 0. -/
@[simps] def sleep (v : Semaphore τ) (t : τ) : Semaphore τ where
  value := v.value
  queue := v.queue ++ [t]
  waiters := v.waiters.wait t
  passed := v.passed
  raised := v.raised

/-- `P` on another value. -/
@[simps] def take (v : Semaphore τ) (t : τ) : Semaphore τ where
  value := v.value - 1
  queue := v.queue
  waiters := v.waiters.tested t
  passed := v.passed + 1
  raised := v.raised

/-- `V`: the front of the queue, if there is one, is made ready. -/
@[simps] def V (v : Semaphore τ) : Semaphore τ where
  value := v.value + 1
  queue := v.queue.tail
  waiters := v.waiters.signal v.queue.head?.toFinset
  passed := v.passed
  raised := v.raised + 1

end Semaphore

namespace State

@[simps] def setSemaphore (s : State τ σ κ γ) (x : SemaphorePtr σ κ) (v : Semaphore τ) : State τ σ κ γ :=
  { s with semaphore := Function.update s.semaphore x v }

@[simps] def setTodo (s : State τ σ κ γ) (t : τ) (rest : List (Statement σ κ γ)) : State τ σ κ γ :=
  { s with todo := Function.update s.todo t rest }

@[simps] def setHolder (s : State τ σ κ γ) (t : τ) (l : κ) : State τ σ κ γ :=
  { s with lockHolder := Function.update s.lockHolder l (some t), held := Function.update s.held t (insert l (s.held t)) }

@[simps] def clearHolder (s : State τ σ κ γ) (t : τ) (l : κ) : State τ σ κ γ :=
  { s with lockHolder := Function.update s.lockHolder l none, held := Function.update s.held t ((s.held t).erase l) }

@[simps] def setWaitQueue (s : State τ σ κ γ) (c : γ) (queue : List ℕ) : State τ σ κ γ :=
  { s with waitQueue := Function.update s.waitQueue c queue }

section
variable {s : State τ σ κ γ} {t u : τ} {rest : List (Statement σ κ γ)}

omit [DecidableEq σ] [DecidableEq κ] [DecidableEq γ]

theorem setTodo_self : (s.setTodo t rest).todo t = rest := by
  rw [setTodo_todo, Function.update_self]

theorem setTodo_of_ne (ne : u ≠ t) : (s.setTodo t rest).todo u = s.todo u := by
  rw [setTodo_todo, Function.update_of_ne ne]

end

/-- A thread executes a statement, with `rest` behind it. It cannot while it sleeps, if an
`ASSERT` fails, or when `RemoveFront` finds the list empty. -/
def exec (s : State τ σ κ γ) (t : τ) (rest : List (Statement σ κ γ)) : Statement σ κ γ → Option (State τ σ κ γ)
  | .P x =>
    if t ∈ (s.semaphore x).queue then none
    else if (s.semaphore x).value = 0 then some (s.setSemaphore x ((s.semaphore x).sleep t))
    else some ((s.setSemaphore x ((s.semaphore x).take t)).setTodo t rest)
  | .V x => some (((s.setSemaphore x (s.semaphore x).V).free x).setTodo t rest)
  | .assertHeld l => if s.lockHolder l = some t then some (s.setTodo t rest) else none
  | .setHolder l => some ((s.setHolder t l).setTodo t rest)
  | .clearHolder l => some ((s.clearHolder t l).setTodo t rest)
  | .newWaiter c l => some ((s.newWait t c).setTodo t (waitOn c l s.next ++ rest))
  | .append c _ n => some (((s.setWaitQueue c (s.waitQueue c ++ [n])).setPhase n .queued).setTodo t rest)
  | .isEmpty c l => some (s.setTodo t (if s.waitQueue c = [] then rest else .removeFront c l :: rest))
  | .removeFront c _ =>
    match s.waitQueue c with
    | [] => none
    | n :: ns => some (((s.setWaitQueue c ns).setPhase n (.removed t)).setTodo t (.V (.waiter n) :: rest))
  | .broadcast c l =>
    some (s.setTodo t (if s.waitQueue c = [] then rest else signal c l ++ .broadcast c l :: rest))

/-- A thread takes its next step. -/
def run (s : State τ σ κ γ) (t : τ) : Option (State τ σ κ γ) :=
  match s.todo t with
  | [] => none
  | i :: rest => s.exec t rest i

def step (s : State τ σ κ γ) : Event τ σ κ γ → Option (State τ σ κ γ)
  | .call t f => if s.todo t = [] then some (s.setTodo t f.body) else none
  | .run t => s.run t

/-- No thread is inside a function. -/
def initial (user : σ → ℕ) : State τ σ κ γ where
  semaphore x := .new (x.initialValue user)
  lockHolder _ := none
  waitQueue _ := []
  todo _ := []
  held _ := ∅
  waits _ := none
  next := 0

end State

/-- The runs of a program whose own semaphores are made with the given values. -/
def program (user : σ → ℕ) : Transition.System (State τ σ κ γ) (Event τ σ κ γ) where
  init s := s = .initial user
  step s e s' := s.step e = some s'

/-! ## What a step can do -/

section
variable {s s' : State τ σ κ γ} {t u : τ} {rest : List (Statement σ κ γ)} {i : Statement σ κ γ}

/-- The ways a statement goes. -/
inductive Ran (s : State τ σ κ γ) (t : τ) (rest : List (Statement σ κ γ)) : Statement σ κ γ → State τ σ κ γ → Prop where
  | sleep (x : SemaphorePtr σ κ) (awake : t ∉ (s.semaphore x).queue) (zero : (s.semaphore x).value = 0) :
    Ran s t rest (.P x) (s.setSemaphore x ((s.semaphore x).sleep t))
  | take (x : SemaphorePtr σ κ) (awake : t ∉ (s.semaphore x).queue) (value : (s.semaphore x).value ≠ 0) :
    Ran s t rest (.P x) ((s.setSemaphore x ((s.semaphore x).take t)).setTodo t rest)
  | V (x : SemaphorePtr σ κ) : Ran s t rest (.V x) (((s.setSemaphore x (s.semaphore x).V).free x).setTodo t rest)
  | assertHeld (l : κ) (holder : s.lockHolder l = some t) : Ran s t rest (.assertHeld l) (s.setTodo t rest)
  | setHolder (l : κ) : Ran s t rest (.setHolder l) ((s.setHolder t l).setTodo t rest)
  | clearHolder (l : κ) : Ran s t rest (.clearHolder l) ((s.clearHolder t l).setTodo t rest)
  | newWaiter (c : γ) (l : κ) :
    Ran s t rest (.newWaiter c l) ((s.newWait t c).setTodo t (waitOn c l s.next ++ rest))
  | append (c : γ) (l : κ) (n : ℕ) :
    Ran s t rest (.append c l n) (((s.setWaitQueue c (s.waitQueue c ++ [n])).setPhase n .queued).setTodo t rest)
  | noWaiter (c : γ) (l : κ) (none : s.waitQueue c = []) : Ran s t rest (.isEmpty c l) (s.setTodo t rest)
  | someWaiter (c : γ) (l : κ) (some : s.waitQueue c ≠ []) :
    Ran s t rest (.isEmpty c l) (s.setTodo t (.removeFront c l :: rest))
  | removeFront (c : γ) (l : κ) (n : ℕ) (ns : List ℕ) (front : s.waitQueue c = n :: ns) :
    Ran s t rest (.removeFront c l)
      (((s.setWaitQueue c ns).setPhase n (.removed t)).setTodo t (.V (.waiter n) :: rest))
  | done (c : γ) (l : κ) (none : s.waitQueue c = []) : Ran s t rest (.broadcast c l) (s.setTodo t rest)
  | again (c : γ) (l : κ) (some : s.waitQueue c ≠ []) :
    Ran s t rest (.broadcast c l) (s.setTodo t (signal c l ++ .broadcast c l :: rest))

theorem ran_of_exec (h : s.exec t rest i = some s') : Ran s t rest i s' := by
  cases i with
  | P x =>
    rw [State.exec] at h
    split_ifs at h with asleep zero
    · cases h
      exact .sleep x asleep zero
    · cases h
      exact .take x asleep zero
  | V x =>
    cases h
    exact .V x
  | assertHeld l =>
    rw [State.exec] at h
    split_ifs at h with holder
    cases h
    exact .assertHeld l holder
  | setHolder l =>
    cases h
    exact .setHolder l
  | clearHolder l =>
    cases h
    exact .clearHolder l
  | newWaiter c l =>
    cases h
    exact .newWaiter c l
  | append c l n =>
    cases h
    exact .append c l n
  | isEmpty c l =>
    rw [State.exec] at h
    cases h
    split_ifs with empty
    · exact .noWaiter c l empty
    · exact .someWaiter c l empty
  | removeFront c l =>
    rw [State.exec] at h
    cases front : s.waitQueue c with
    | nil => simp [front] at h
    | cons n ns =>
      rw [front] at h
      cases h
      exact .removeFront c l n ns front
  | broadcast c l =>
    rw [State.exec] at h
    cases h
    split_ifs with empty
    · exact .done c l empty
    · exact .again c l empty

/-- A step is a call, or a statement of its thread. -/
theorem step_cases {e : Event τ σ κ γ} (h : s.step e = some s') :
    (∃ t f, e = .call t f ∧ s.todo t = [] ∧ s' = s.setTodo t f.body) ∨
      ∃ t i rest, e = .run t ∧ s.todo t = i :: rest ∧ Ran s t rest i s' := by
  cases e with
  | call t f =>
    rw [State.step] at h
    split_ifs at h with idle
    cases h
    exact .inl ⟨t, f, rfl, idle, rfl⟩
  | run t =>
    rw [State.step, State.run] at h
    cases todo : s.todo t with
    | nil => simp [todo] at h
    | cons i rest =>
      rw [todo] at h
      exact .inr ⟨t, i, rest, rfl, todo, ran_of_exec h⟩

end

end

end Nachos.Mp3.Synch
