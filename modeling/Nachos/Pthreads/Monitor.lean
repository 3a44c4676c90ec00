import Nachos.Base.Condition
import Nachos.Base.Transition
import Nachos.Pthreads.TSQueue

/-!
# Threads at the blocking queue

Any number of threads that call `enqueue` and `dequeue`. A mutex-protected section is one
step, from the lock, or the return of `pthread_cond_wait`, to the unlock or the next wait.
`Monitor.Sound` is the invariant of every interleaving: the buffer represents the items
accepted and not yet returned, and neither condition variable has lost a wake-up.
-/

namespace Nachos.Pthreads
open Transition

/-- The call a thread is inside of. -/
inductive Call (α : Type) where
  | enqueue (item : α)
  | dequeue

/-- The queue with its condition variables, the threads inside its functions, and what has
passed through it. -/
structure Monitor (τ α : Type) where
  queue : TSQueue α
  condEnqueue : Condition τ
  condDequeue : Condition τ
  calls : τ → Option (Call α)
  accepted : List α
  returned : List α

namespace Monitor

variable {τ α : Type} {m m' : Monitor τ α} {t : τ} {item : α} {woken : Finset τ} {bufferSize : ℤ}

@[simps] def initial (bufferSize : ℤ) (garbage : ℤ → α) : Monitor τ α where
  queue := .new bufferSize garbage
  condEnqueue := .idle
  condDequeue := .idle
  calls _ := none
  accepted := []
  returned := []

/-- The thread is inside a function and blocked. -/
def Sleeps (m : Monitor τ α) (t : τ) : Prop := t ∈ m.condEnqueue.sleeping ∨ t ∈ m.condDequeue.sleeping

/-- The wait loop of the call that thread `t` is inside of would end. -/
def CanProceed (m : Monitor τ α) (t : τ) : Prop :=
  (∃ item, m.calls t = some (.enqueue item) ∧ m.queue.size ≠ m.queue.bufferSize) ∨
    (m.calls t = some .dequeue ∧ m.queue.size ≠ 0)

structure Sound (bufferSize : ℤ) (m : Monitor τ α) : Prop where
  bufferSize : m.queue.bufferSize = bufferSize
  holds : ∃ items, m.queue.Holds items ∧ m.accepted = m.returned ++ items
  enqueueing : ∀ t, m.condEnqueue.Concerns t → ∃ item, m.calls t = some (.enqueue item)
  dequeueing : ∀ t, m.condDequeue.Concerns t → m.calls t = some .dequeue
  items : m.condDequeue.Covered m.queue.size
  slots : m.condEnqueue.Covered (m.queue.bufferSize - m.queue.size)

theorem sound_initial (positive : 1 ≤ bufferSize) (garbage : ℤ → α) : (initial bufferSize garbage : Monitor τ α).Sound bufferSize where
  bufferSize := rfl
  holds := ⟨[], TSQueue.holds_new positive garbage, rfl⟩
  enqueueing _ h := (Condition.not_concerns_idle h).elim
  dequeueing _ h := (Condition.not_concerns_idle h).elim
  items := Condition.covered_idle
  slots := Condition.covered_idle

namespace Sound

variable (h : m.Sound bufferSize)

include h

theorem sleeps_enqueue (inside : m.calls t = some (.enqueue item)) (sleeps : m.Sleeps t) : t ∈ m.condEnqueue.sleeping := by
  rcases sleeps with here | there
  · exact here
  · rw [h.dequeueing t (.inl there)] at inside
    cases inside

theorem sleeps_dequeue (inside : m.calls t = some .dequeue) (sleeps : m.Sleeps t) : t ∈ m.condDequeue.sleeping := by
  rcases sleeps with there | here
  · obtain ⟨item, other⟩ := h.enqueueing t (.inl there)
    rw [inside] at other
    cases other
  · exact here

/-- A signalled thread is inside a function, and awake. -/
theorem signalled_enqueue_eq_empty (asleep : ∀ t, m.calls t ≠ none → m.Sleeps t) : m.condEnqueue.signalled = ∅ := by
  rw [Finset.eq_empty_iff_forall_notMem]
  intro u comes
  obtain ⟨item, inside⟩ := h.enqueueing u (.inr comes)
  have sleeps := h.sleeps_enqueue inside (asleep u (by rw [inside]; exact Option.some_ne_none _))
  exact Finset.disjoint_left.1 m.condEnqueue.disjoint sleeps comes

theorem signalled_dequeue_eq_empty (asleep : ∀ t, m.calls t ≠ none → m.Sleeps t) : m.condDequeue.signalled = ∅ := by
  rw [Finset.eq_empty_iff_forall_notMem]
  intro u comes
  have inside := h.dequeueing u (.inr comes)
  have sleeps := h.sleeps_dequeue inside (asleep u (by rw [inside]; exact Option.some_ne_none _))
  exact Finset.disjoint_left.1 m.condDequeue.disjoint sleeps comes

end Sound

variable [DecidableEq τ]

@[simps] def call (m : Monitor τ α) (t : τ) (c : Call α) : Monitor τ α where
  queue := m.queue
  condEnqueue := m.condEnqueue
  condDequeue := m.condDequeue
  calls := Function.update m.calls t (some c)
  accepted := m.accepted
  returned := m.returned

@[simps] def setCondEnqueue (m : Monitor τ α) (c : Condition τ) : Monitor τ α where
  queue := m.queue
  condEnqueue := c
  condDequeue := m.condDequeue
  calls := m.calls
  accepted := m.accepted
  returned := m.returned

@[simps] def setCondDequeue (m : Monitor τ α) (c : Condition τ) : Monitor τ α where
  queue := m.queue
  condEnqueue := m.condEnqueue
  condDequeue := c
  calls := m.calls
  accepted := m.accepted
  returned := m.returned

/-- `enqueue` returns: the item is stored and one waiter of `cond_dequeue` is signalled. -/
@[simps] def enqueue (m : Monitor τ α) (t : τ) (item : α) (woken : Finset τ) : Monitor τ α where
  queue := m.queue.enqueue item
  condEnqueue := m.condEnqueue.tested t
  condDequeue := m.condDequeue.signal woken
  calls := Function.update m.calls t none
  accepted := m.accepted ++ [item]
  returned := m.returned

/-- `dequeue` returns: the front item is taken and one waiter of `cond_enqueue` is signalled. -/
@[simps] def dequeue (m : Monitor τ α) (t : τ) (woken : Finset τ) : Monitor τ α where
  queue := m.queue.dequeue
  condEnqueue := m.condEnqueue.signal woken
  condDequeue := m.condDequeue.tested t
  calls := Function.update m.calls t none
  accepted := m.accepted
  returned := m.returned ++ [m.queue.front]

/-- The steps of thread `t`. A thread that calls a function, was signalled or woke up takes
the mutex in any order with the others, so that an item can be gone before a signalled thread
tests its condition again. -/
inductive Step (m : Monitor τ α) (t : τ) : Monitor τ α → Prop where
  | call (c : Call α) : m.calls t = none → Step m t (m.call t c)
  | waitEnqueue (item : α) : m.calls t = some (.enqueue item) → t ∉ m.condEnqueue.sleeping →
      m.queue.size = m.queue.bufferSize → Step m t (m.setCondEnqueue (m.condEnqueue.wait t))
  | enqueue (item : α) (woken : Finset τ) : m.calls t = some (.enqueue item) → t ∉ m.condEnqueue.sleeping →
      m.queue.size ≠ m.queue.bufferSize → m.condDequeue.Signals woken → Step m t (m.enqueue t item woken)
  | waitDequeue : m.calls t = some .dequeue → t ∉ m.condDequeue.sleeping →
      m.queue.size = 0 → Step m t (m.setCondDequeue (m.condDequeue.wait t))
  | dequeue (woken : Finset τ) : m.calls t = some .dequeue → t ∉ m.condDequeue.sleeping →
      m.queue.size ≠ 0 → m.condEnqueue.Signals woken → Step m t (m.dequeue t woken)
  | wakeEnqueue : t ∈ m.condEnqueue.sleeping → Step m t (m.setCondEnqueue (m.condEnqueue.wake t))
  | wakeDequeue : t ∈ m.condDequeue.sleeping → Step m t (m.setCondDequeue (m.condDequeue.wake t))

/-- The interleavings of the threads `τ` at a queue of `bufferSize` places. -/
def interleavings (τ α : Type) [DecidableEq τ] (bufferSize : ℤ) : System (Monitor τ α) τ where
  init m := ∃ garbage, m = initial bufferSize garbage
  step := Step

namespace Sound

theorem call (h : m.Sound bufferSize) (outside : m.calls t = none) (c : Call α) : (m.call t c).Sound bufferSize := by
  refine ⟨h.bufferSize, h.holds, ?_, ?_, h.items, h.slots⟩
  · intro u hu
    obtain ⟨item, inside⟩ := h.enqueueing u hu
    have ne : u ≠ t := by
      rintro rfl
      rw [outside] at inside
      contradiction
    exact ⟨item, by rw [call_calls, Function.update_of_ne ne, inside]⟩
  · intro u hu
    have inside := h.dequeueing u hu
    have ne : u ≠ t := by
      rintro rfl
      rw [outside] at inside
      contradiction
    rw [call_calls, Function.update_of_ne ne, inside]

theorem waitEnqueue (h : m.Sound bufferSize) (inside : m.calls t = some (.enqueue item))
    (full : m.queue.size = m.queue.bufferSize) : (m.setCondEnqueue (m.condEnqueue.wait t)).Sound bufferSize := by
  refine ⟨h.bufferSize, h.holds, ?_, h.dequeueing, h.items, ?_⟩
  · intro u hu
    rcases Condition.concerns_wait hu with rfl | hu
    · exact ⟨item, inside⟩
    · exact h.enqueueing u hu
  · apply Condition.covered_of_nonpos
    rw [setCondEnqueue_queue, full, sub_self]

theorem waitDequeue (h : m.Sound bufferSize) (inside : m.calls t = some .dequeue)
    (empty : m.queue.size = 0) : (m.setCondDequeue (m.condDequeue.wait t)).Sound bufferSize := by
  refine ⟨h.bufferSize, h.holds, h.enqueueing, ?_, ?_, h.slots⟩
  · intro u hu
    rcases Condition.concerns_wait hu with rfl | hu
    · exact inside
    · exact h.dequeueing u hu
  · apply Condition.covered_of_nonpos
    rw [setCondDequeue_queue, empty]

theorem enqueue (h : m.Sound bufferSize) (inside : m.calls t = some (.enqueue item)) (awake : t ∉ m.condEnqueue.sleeping)
    (room : m.queue.size ≠ m.queue.bufferSize) (signals : m.condDequeue.Signals woken) :
    (m.enqueue t item woken).Sound bufferSize := by
  obtain ⟨items, holds, eq⟩ := h.holds
  refine ⟨h.bufferSize, ⟨items ++ [item], holds.enqueue room item, ?_⟩, ?_, ?_, h.items.signal signals, ?_⟩
  · rw [enqueue_accepted, enqueue_returned, eq, List.append_assoc]
  · intro u hu
    have ne : u ≠ t := by
      rintro rfl
      exact Condition.not_concerns_tested awake hu
    obtain ⟨other, calling⟩ := h.enqueueing u (Condition.concerns_tested hu)
    exact ⟨other, by rw [enqueue_calls, Function.update_of_ne ne, calling]⟩
  · intro u hu
    have calling := h.dequeueing u (Condition.concerns_signal hu)
    have ne : u ≠ t := by
      rintro rfl
      rw [inside] at calling
      cases calling
    rw [enqueue_calls, Function.update_of_ne ne, calling]
  · rw [enqueue_queue, TSQueue.enqueue_bufferSize, TSQueue.enqueue_size, ← sub_sub]
    exact h.slots.tested

theorem dequeue (h : m.Sound bufferSize) (inside : m.calls t = some .dequeue) (awake : t ∉ m.condDequeue.sleeping)
    (filled : m.queue.size ≠ 0) (signals : m.condEnqueue.Signals woken) : (m.dequeue t woken).Sound bufferSize := by
  obtain ⟨items, holds, eq⟩ := h.holds
  obtain ⟨item, rest, rfl⟩ := List.exists_cons_of_ne_nil (holds.ne_nil filled)
  refine ⟨h.bufferSize, ⟨rest, holds.dequeue.2, ?_⟩, ?_, ?_, h.items.tested, ?_⟩
  · rw [dequeue_accepted, dequeue_returned, eq, holds.dequeue.1, List.append_assoc, List.singleton_append]
  · intro u hu
    obtain ⟨other, calling⟩ := h.enqueueing u (Condition.concerns_signal hu)
    have ne : u ≠ t := by
      rintro rfl
      rw [inside] at calling
      cases calling
    exact ⟨other, by rw [dequeue_calls, Function.update_of_ne ne, calling]⟩
  · intro u hu
    have ne : u ≠ t := by
      rintro rfl
      exact Condition.not_concerns_tested awake hu
    rw [dequeue_calls, Function.update_of_ne ne, h.dequeueing u (Condition.concerns_tested hu)]
  · have more : m.queue.bufferSize - (m.queue.size - 1) = m.queue.bufferSize - m.queue.size + 1 := by omega
    rw [dequeue_queue, TSQueue.dequeue_bufferSize, TSQueue.dequeue_size, more]
    exact h.slots.signal signals

theorem step (h : m.Sound bufferSize) (s : Step m t m') : m'.Sound bufferSize := by
  cases s with
  | call c outside => exact h.call outside c
  | waitEnqueue item inside _ full => exact h.waitEnqueue inside full
  | enqueue item woken inside awake room signals => exact h.enqueue inside awake room signals
  | waitDequeue inside _ empty => exact h.waitDequeue inside empty
  | dequeue woken inside awake filled signals => exact h.dequeue inside awake filled signals
  | wakeEnqueue _ =>
    exact ⟨h.bufferSize, h.holds, fun u hu => h.enqueueing u (Condition.concerns_wake hu), h.dequeueing, h.items, h.slots.wake⟩
  | wakeDequeue _ =>
    exact ⟨h.bufferSize, h.holds, h.enqueueing, fun u hu => h.dequeueing u (Condition.concerns_wake hu), h.items.wake, h.slots⟩

theorem of_reach (positive : 1 ≤ bufferSize) (h : Reach (interleavings τ α bufferSize) (fun _ _ => True) m) :
    m.Sound bufferSize := by
  refine h.invariant _ ?_ fun _ _ _ sound _ s => sound.step s
  rintro _ ⟨garbage, rfl⟩
  exact sound_initial positive garbage

end Sound

/-- **The queue is a bounded FIFO.** The indices stay in bounds, and what has been returned,
followed by what the buffer holds from `head` on, is what has been accepted. -/
theorem bounded_fifo (positive : 1 ≤ bufferSize) (h : Reach (interleavings τ α bufferSize) (fun _ _ => True) m) :
    m.queue.bufferSize = bufferSize ∧ (0 ≤ m.queue.size ∧ m.queue.size ≤ bufferSize) ∧
      (0 ≤ m.queue.head ∧ m.queue.head < bufferSize) ∧
      m.queue.tail ≡ m.queue.head + m.queue.size - 1 [ZMOD bufferSize] ∧
      m.accepted = m.returned ++ m.queue.contents ∧ m.returned <+: m.accepted := by
  have sound := Sound.of_reach positive h
  obtain ⟨items, holds, eq⟩ := sound.holds
  have nonneg : 0 ≤ m.queue.size := by
    rw [holds.size]
    exact Int.natCast_nonneg _
  rw [← sound.bufferSize]
  refine ⟨rfl, ⟨nonneg, holds.room⟩, ⟨holds.head_nonneg, holds.head_lt⟩, holds.tail, ?_, ?_⟩
  · rw [holds.contents, eq]
  · exact ⟨items, eq.symm⟩

/-- Two threads at a queue of one place, after both indices have wrapped around. -/
theorem bounded_fifo_wrapped : ∃ m : Monitor ℕ ℕ, Reach (interleavings ℕ ℕ 1) (fun _ _ => True) m ∧
    m.returned = [7] ∧ m.queue.contents = [8] ∧
    m.queue.bufferSize = 1 ∧ (0 ≤ m.queue.size ∧ m.queue.size ≤ 1) ∧ (0 ≤ m.queue.head ∧ m.queue.head < 1) ∧
    m.queue.tail ≡ m.queue.head + m.queue.size - 1 [ZMOD 1] ∧
    m.accepted = m.returned ++ m.queue.contents ∧ m.returned <+: m.accepted := by
  have start : Reach (interleavings ℕ ℕ 1) (fun _ _ => True) (initial 1 fun _ => 0) := .init ⟨_, rfl⟩
  have first := (start.step (a := 0) trivial (.call (.enqueue 7) rfl)).step (a := 0) trivial
    (.enqueue 7 ∅ rfl (by decide) (by decide) (by decide))
  have taken := (first.step (a := 1) trivial (.call .dequeue rfl)).step (a := 1) trivial
    (.dequeue ∅ rfl (by decide) (by decide) (by decide))
  have second := (taken.step (a := 0) trivial (.call (.enqueue 8) rfl)).step (a := 0) trivial
    (.enqueue 8 ∅ rfl (by decide) (by decide) (by decide))
  exact ⟨_, second, rfl, rfl, bounded_fifo (by decide) second⟩

/-- **No wake-up is lost.** While a thread sleeps unsignalled, every item, or every free place,
has a signalled thread that has not tested its condition again; so the threads inside the
functions are never all asleep while one of them could proceed. -/
theorem no_lost_wakeup (positive : 1 ≤ bufferSize) (h : Reach (interleavings τ α bufferSize) (fun _ _ => True) m) :
    (m.condDequeue.sleeping.Nonempty → m.queue.size ≤ m.condDequeue.signalled.card) ∧
      (m.condEnqueue.sleeping.Nonempty → bufferSize - m.queue.size ≤ m.condEnqueue.signalled.card) ∧
      ¬ ((∀ t, m.calls t ≠ none → m.Sleeps t) ∧ ∃ t, m.CanProceed t) := by
  have sound := Sound.of_reach positive h
  obtain ⟨items, holds, -⟩ := sound.holds
  have slots := sound.slots
  rw [sound.bufferSize] at slots
  refine ⟨sound.items, slots, ?_⟩
  rintro ⟨asleep, t, ⟨item, inside, room⟩ | ⟨inside, filled⟩⟩
  · have sleeps := asleep t (by rw [inside]; exact Option.some_ne_none _)
    have here : m.condEnqueue.sleeping.Nonempty := ⟨t, sound.sleeps_enqueue inside sleeps⟩
    have nobody := sound.signalled_enqueue_eq_empty asleep
    have covered := sound.slots here
    have bound := holds.room
    rw [nobody, Finset.card_empty, Nat.cast_zero] at covered
    omega
  · have sleeps := asleep t (by rw [inside]; exact Option.some_ne_none _)
    have here : m.condDequeue.sleeping.Nonempty := ⟨t, sound.sleeps_dequeue inside sleeps⟩
    have nobody := sound.signalled_dequeue_eq_empty asleep
    have covered := sound.items here
    have bound := holds.size
    rw [nobody, Finset.card_empty, Nat.cast_zero] at covered
    omega

/-- Two threads sleep on the empty queue, and an item arrives: one of them is signalled. -/
theorem no_lost_wakeup_signalled : ∃ m : Monitor ℕ ℕ, Reach (interleavings ℕ ℕ 1) (fun _ _ => True) m ∧
    m.queue.size = 1 ∧ m.condDequeue.sleeping = {2} ∧ m.condDequeue.signalled = {1} ∧
    (m.condDequeue.sleeping.Nonempty → m.queue.size ≤ m.condDequeue.signalled.card) ∧
    (m.condEnqueue.sleeping.Nonempty → 1 - m.queue.size ≤ m.condEnqueue.signalled.card) ∧
    ¬ ((∀ t, m.calls t ≠ none → m.Sleeps t) ∧ ∃ t, m.CanProceed t) := by
  have start : Reach (interleavings ℕ ℕ 1) (fun _ _ => True) (initial 1 fun _ => 0) := .init ⟨_, rfl⟩
  have one := (start.step (a := 1) trivial (.call .dequeue rfl)).step (a := 1) trivial
    (.waitDequeue rfl (by decide) rfl)
  have two := (one.step (a := 2) trivial (.call .dequeue rfl)).step (a := 2) trivial
    (.waitDequeue rfl (by decide) rfl)
  have arrived := (two.step (a := 0) trivial (.call (.enqueue 7) rfl)).step (a := 0) trivial
    (.enqueue 7 {1} rfl (by decide) (by decide) (by decide))
  exact ⟨_, arrived, rfl, by decide, by decide, no_lost_wakeup (by decide) arrived⟩

end Monitor

end Nachos.Pthreads
