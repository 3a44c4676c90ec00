import Nachos.Pthreads.Starvation

/-!
# Scaling up and down

With more lines than a consumer is created for, the worker queue can be filled before the controller
looks at it, and emptied by one of two consumers.
-/

namespace Nachos.Pthreads.Pipeline
open Transition

variable {s : Pipeline} {n w : ℕ} {input : List Item}

/-- Two consumers, both at the heads of their loops, and `w` of `n` items in the worker queue. -/
structure Draining (n w : ℕ) (s : Pipeline) : Prop where
  controller : s.controller = ⟨[0, 1], none, none⟩
  consumers : s.consumers = [.new, .new]
  workerQueue : s.workerQueue.size = w
  outputQueue : s.outputQueue.size = n - w

/-- The controller finds the worker queue full and scales up twice. -/
theorem Filled.draining (h : s.Filled n n) (many : 160 < n) (reach : Reach (pipeline n input) (Controlled 20 80) s) :
    ∃ s', Reach (pipeline n input) (Controlled 20 80) s' ∧ s'.Draining n n := by
  have size := (Sound.of_reach reach).workerSize
  have full : (80 : ℤ) * s.workerQueue.bufferSize < 100 * s.workerQueue.size := by
    rw [size, h.workerQueue]
    omega
  have idle : s.controller.cancelling = none := by rw [h.controller]
  have measured : Reach (pipeline n input) (Controlled 20 80) s.measure :=
    reach.step (a := .measure) (show s.controller.measured = none by rw [h.controller]) rfl
  have first : Reach (pipeline n input) (Controlled 20 80) s.measure.create :=
    measured.step (a := .create) ⟨_, rfl, full⟩ (if_pos idle)
  have again : Reach (pipeline n input) (Controlled 20 80) s.measure.create.measure :=
    first.step (a := .measure) (show s.measure.create.controller.measured = none from rfl) rfl
  have second : Reach (pipeline n input) (Controlled 20 80) s.measure.create.measure.create :=
    again.step (a := .create) ⟨_, rfl, full⟩ (if_pos idle)
  refine ⟨_, second, ?_, ?_, h.workerQueue, ?_⟩
  · simp [create, measure, h.controller, h.consumers]
  · simp [create, measure, h.consumers]
  · rw [sub_self]
    exact h.outputQueue

variable (bound : n ≤ input.length) (opcodes : ∀ item ∈ input.take n, item.WellFormed)

include bound opcodes

/-- The first consumer passes one item on. -/
theorem Draining.next (h : s.Draining n (w + 1)) (few : n < 4000) (reach : Reach (pipeline n input) (Controlled 20 80) s) :
    ∃ s', Reach (pipeline n input) (Controlled 20 80) s' ∧ s'.Draining n w := by
  have sound := Sound.of_reach reach
  have filled : 0 < s.workerQueue.size := by
    rw [h.workerQueue]
    omega
  let at' (work : Work) : List Consumer := [⟨false, false, false, .body work⟩, .new]
  have tested : Reach (pipeline n input) (Controlled 20 80) { s with consumers := [⟨false, false, true, .disable⟩, .new] } :=
    reach.step (a := .consumer 0) trivial (by simp [pipeline, step, stepConsumer, h.consumers, Consumer.new, setConsumer])
  have entered : Reach (pipeline n input) (Controlled 20 80) { s with consumers := at' .getSize } :=
    tested.step (a := .consumer 0) trivial (by simp [pipeline, step, stepConsumer, setConsumer, at'])
  have asked : Reach (pipeline n input) (Controlled 20 80) { s with consumers := at' .dequeue } :=
    entered.step (a := .consumer 0) trivial (by simp [pipeline, step, stepConsumer, Work.step, filled, at'])
  have taken : Reach (pipeline n input) (Controlled 20 80)
      { s with workerQueue := s.workerQueue.dequeue, consumers := at' (.transform s.workerQueue.front) } :=
    asked.step (a := .consumer 0) trivial (by simp [pipeline, step, stepConsumer, Work.step, filled.ne', at'])
  have known := half_transformed (Sound.of_reach taken) bound opcodes s.workerQueue.front
    (by simp [half, at', Consumer.taken, ConsumerPhase.taken, Work.taken])
  obtain ⟨p, made⟩ := Option.isSome_iff_exists.1 known
  have transformed : Reach (pipeline n input) (Controlled 20 80)
      { s with workerQueue := s.workerQueue.dequeue, consumers := at' (.enqueue p) } :=
    taken.step (a := .consumer 0) trivial (by simp [pipeline, step, stepConsumer, Work.step, made, at'])
  have room : s.outputQueue.size ≠ s.outputQueue.bufferSize := by
    rw [h.outputQueue, sound.outputSize]
    omega
  have passed : Reach (pipeline n input) (Controlled 20 80)
      { s with
        workerQueue := s.workerQueue.dequeue, outputQueue := s.outputQueue.enqueue p, consumers := at' .done } :=
    transformed.step (a := .consumer 0) trivial (by simp [pipeline, step, stepConsumer, Work.step, room, at'])
  have around : Reach (pipeline n input) (Controlled 20 80)
      { s with
        workerQueue := s.workerQueue.dequeue, outputQueue := s.outputQueue.enqueue p, consumers := [.new, .new] } :=
    passed.step (a := .consumer 0) trivial (by simp [pipeline, step, stepConsumer, setConsumer, Consumer.new, at'])
  refine ⟨_, around, h.controller, rfl, ?_, ?_⟩
  · rw [TSQueue.dequeue_size, h.workerQueue, Nat.cast_add, Nat.cast_one, add_sub_cancel_right]
  · rw [TSQueue.enqueue_size, h.outputQueue]
    omega

/-- **The controller can come to cancel a consumer** that has not begun to work. -/
theorem exists_cancelling (many : 160 < n) (few : n ≤ 200) : ∃ s, Reach (pipeline n input) (Controlled 20 80) s ∧
    s.controller.cancelling = some 1 ∧ s.consumers[1]? = some ⟨true, false, true, .loop⟩ := by
  have drained (d : ℕ) (hd : d ≤ n) : ∃ s, Reach (pipeline n input) (Controlled 20 80) s ∧ s.Draining n (n - d) := by
    induction d with
    | zero =>
      obtain ⟨s, reach, full⟩ := exists_filled bound opcodes few
      exact full.draining many reach
    | succ d ih =>
      obtain ⟨s, reach, draining⟩ := ih (by omega)
      have left : n - d = n - (d + 1) + 1 := by omega
      exact (left ▸ draining).next bound opcodes (by omega) reach
  obtain ⟨s, reach, draining⟩ := drained n le_rfl
  have empty : s.workerQueue.size = 0 := by
    rw [draining.workerQueue, Nat.sub_self, Nat.cast_zero]
  have size := (Sound.of_reach reach).workerSize
  have measured : Reach (pipeline n input) (Controlled 20 80) s.measure :=
    reach.step (a := .measure) (show s.controller.measured = none by rw [draining.controller]) rfl
  obtain ⟨s', t, target, found⟩ : ∃ s', s.measure.step .cancel = some s' ∧ s'.controller.cancelling = some 1 ∧
      s'.consumers[1]? = some ⟨true, false, true, .loop⟩ := by
    simp [step, cancel, draining.controller, draining.consumers, Consumer.new, setConsumer]
  refine ⟨s', measured.step (a := .cancel) ⟨s.workerQueue.size, rfl, ?_, ?_, ?_⟩ t, target, found⟩
  · rw [measure_workerQueue, empty, size]
    decide
  · rw [measure_workerQueue, empty, size]
    decide
  · simp [draining.controller]

end Nachos.Pthreads.Pipeline
