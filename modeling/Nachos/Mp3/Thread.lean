import Mathlib.Algebra.Order.Ring.Rat
import Mathlib.Data.Prod.Lex
import Mathlib.Tactic.Common
import Mathlib.Tactic.Linarith

/-!
# Threads of the scheduling kernel

The part of a thread control block the scheduler works on (`threads/thread.h`), `aging`,
and the two comparison functions of the sorted queues (`threads/scheduler.cc`). Burst times
are rationals. Both comparison functions never return 0: `compare a b < 0` is a total
preorder, the order of a key.
-/

namespace Nachos.Mp3

inductive ThreadStatus where
  | justCreated
  | running
  | ready
  | blocked
  | zombie
  deriving DecidableEq, Repr

/-- Identifiers count up from 0, the main thread's. -/
structure Thread where
  ID : Nat
  priority : Int
  burstTime : ℚ
  burstStartTime : ℚ
  useTime : ℚ
  waitTime : Int
  waitStartTime : Nat
  status : ThreadStatus
  deriving DecidableEq, Repr

namespace Thread

/-- `Thread::Thread`; without a priority argument the priority is 0. -/
def create (threadID : Nat) (P : Int) : Thread where
  ID := threadID
  priority := P
  burstTime := 0
  burstStartTime := 0
  useTime := 0
  waitTime := 0
  waitStartTime := 0
  status := .justCreated

/-- The next priority of a thread that has waited long enough. -/
def raised (priority : Int) : Int := if priority + 10 > 149 then 149 else priority + 10

/-- `Thread::aging`, with whether the thread is to change queues. -/
def aging (totalTicks : Nat) (T : Int) (t : Thread) : Thread × Bool :=
  let t := { t with waitTime := T }
  if t.waitTime < 1500 then (t, false)
  else
    let t := { t with waitStartTime := totalTicks }
    let oldPriority := t.priority
    let newPriority := raised oldPriority
    let t := if newPriority ≠ oldPriority then { t with waitTime := 0, priority := newPriority } else t
    (t, (oldPriority < 100 ∧ newPriority ≥ 100) ∨ (oldPriority < 50 ∧ newPriority ≥ 50))

/-- The time a thread is still expected to use, as `cmp_BurstTime` takes it. -/
def remaining (t : Thread) : ℚ := if t.burstTime - t.useTime < 0 then 0 else t.burstTime - t.useTime

variable {t u : Thread} {now : Nat} {T : Int}

theorem le_raised {p q : Int} (hq : q ≤ 149) (h : q ≤ p) : q ≤ raised p := by
  unfold raised
  split <;> omega

theorem raised_le (p : Int) : raised p ≤ 149 := by
  unfold raised
  split <;> omega

theorem aging_early (h : T < 1500) : aging now T t = ({ t with waitTime := T }, false) := if_pos h

/-- What `aging` does to a thread that has waited long enough, its `wait_Time` apart. -/
theorem aging_late (h : 1500 ≤ T) : ∃ w, aging now T t =
    ({ t with waitTime := w, waitStartTime := now, priority := raised t.priority },
      decide ((t.priority < 100 ∧ raised t.priority ≥ 100) ∨ (t.priority < 50 ∧ raised t.priority ≥ 50))) := by
  rw [aging, if_neg (not_lt.2 h)]
  by_cases e : raised t.priority = t.priority
  · exact ⟨T, by simp [e]⟩
  · exact ⟨0, by simp [e]⟩

/-- What `aging` writes. -/
theorem aging_eq (now : Nat) (T : Int) (t : Thread) : ∃ w n p, (aging now T t).1 = { t with waitTime := w, waitStartTime := n, priority := p } := by
  rcases lt_or_ge T 1500 with h | h
  · exact ⟨T, t.waitStartTime, t.priority, by rw [aging_early h]⟩
  · obtain ⟨w, eq⟩ := aging_late h
    exact ⟨w, now, raised t.priority, by rw [eq]⟩

@[simp] theorem aging_ID : (aging now T t).1.ID = t.ID := by
  obtain ⟨w, n, p, eq⟩ := aging_eq now T t
  rw [eq]

@[simp] theorem aging_status : (aging now T t).1.status = t.status := by
  obtain ⟨w, n, p, eq⟩ := aging_eq now T t
  rw [eq]

@[simp] theorem aging_remaining : (aging now T t).1.remaining = t.remaining := by
  obtain ⟨w, n, p, eq⟩ := aging_eq now T t
  rw [eq]
  rfl

theorem aging_priority : (aging now T t).1.priority = if T < 1500 then t.priority else raised t.priority := by
  rcases lt_or_ge T 1500 with h | h
  · rw [aging_early h, if_pos h]
  · obtain ⟨w, eq⟩ := aging_late h
    rw [eq, if_neg (not_lt.2 h)]

theorem aging_waitStartTime : (aging now T t).1.waitStartTime = if T < 1500 then t.waitStartTime else now := by
  rcases lt_or_ge T 1500 with h | h
  · rw [aging_early h, if_pos h]
  · obtain ⟨w, eq⟩ := aging_late h
    rw [eq, if_neg (not_lt.2 h)]

/-- A thread is to change queues when its priority passes 50 or 100. -/
theorem aging_upgrade : (aging now T t).2 = true ↔
    (t.priority < 100 ∧ 100 ≤ (aging now T t).1.priority) ∨ (t.priority < 50 ∧ 50 ≤ (aging now T t).1.priority) := by
  rcases lt_or_ge T 1500 with h | h
  · rw [aging_early h]
    simp only [Bool.false_eq_true, false_iff]
    omega
  · obtain ⟨w, eq⟩ := aging_late h
    rw [eq]
    simp only [ge_iff_le, decide_eq_true_eq]

end Thread

/-! ## The comparison functions -/

/-- `cmp_BurstTime`. -/
def cmpBurstTime (a b : Thread) : Int :=
  if a.remaining > b.remaining then 1
  else if a.remaining < b.remaining then -1
  else if a.ID > b.ID then 1
  else -1

/-- `cmp_Priority`. -/
def cmpPriority (a b : Thread) : Int :=
  if a.priority > b.priority then -1
  else if a.priority < b.priority then 1
  else if a.ID > b.ID then 1
  else -1

/-- Shorter remaining time first, then the smaller identifier. -/
def burstKey (t : Thread) : ℚ ×ₗ ℕ := toLex (t.remaining, t.ID)

/-- Higher priority first, then the smaller identifier. -/
def priorityKey (t : Thread) : ℤ ×ₗ ℕ := toLex (-t.priority, t.ID)

theorem cmpBurstTime_neg {a b : Thread} : cmpBurstTime a b < 0 ↔ burstKey a ≤ burstKey b := by
  rw [burstKey, burstKey, Prod.Lex.toLex_le_toLex, cmpBurstTime]
  split
  · next h => simp [not_lt_of_gt h, ne_of_gt h]
  split
  · next h => simp [h]
  · next h1 h2 =>
    have eq : a.remaining = b.remaining := le_antisymm (not_lt.1 h1) (not_lt.1 h2)
    simp only [eq, lt_irrefl, true_and, false_or]
    split <;> omega

theorem cmpPriority_neg {a b : Thread} : cmpPriority a b < 0 ↔ priorityKey a ≤ priorityKey b := by
  rw [priorityKey, priorityKey, Prod.Lex.toLex_le_toLex, cmpPriority]
  simp only
  split
  · omega
  split
  · omega
  split <;> omega

theorem remaining_le {a b : Thread} (h : cmpBurstTime a b < 0) : a.remaining ≤ b.remaining := by
  rw [cmpBurstTime_neg, burstKey, burstKey, Prod.Lex.toLex_le_toLex] at h
  exact h.elim le_of_lt fun h => le_of_eq h.1

theorem priority_le {a b : Thread} (h : cmpPriority a b < 0) : b.priority ≤ a.priority := by
  rw [cmpPriority_neg, priorityKey, priorityKey, Prod.Lex.toLex_le_toLex] at h
  simp only at h
  omega

end Nachos.Mp3
