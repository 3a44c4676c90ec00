import Nachos.Pthreads.Progress

/-!
# Too few lines for a consumer

With at most 160 lines all items can come to lie in the worker queue, and then no step but
the polling of producers and controller is left.
-/

namespace Nachos.Pthreads.Pipeline
open Transition

variable {s s' : Pipeline} {n k : ℕ} {input : List Item} {i : ℕ} {e : Event}

/-- All items lie in the worker queue, too few of them for a consumer. -/
structure Starved (s : Pipeline) : Prop where
  reader : s.reader.phase = .finished ∨ (s.reader.phase = .loop ∧ s.reader.expectedLines = 0)
  inputQueue : s.inputQueue.size = 0
  producers : ∀ w ∈ s.producers, w = .getSize ∨ w = .dequeue ∨ w = .done
  workerSize : s.workerQueue.bufferSize = 200
  workerQueue : s.workerQueue.size ≤ 160
  vector : s.controller.consumers = []
  measured : ∀ m, s.controller.measured = some m → m ≤ 160
  cancelling : s.controller.cancelling = none
  consumers : s.consumers = []
  outputQueue : s.outputQueue.size = 0
  writer : (s.writer.phase = .dequeue ∧ 0 ≤ s.writer.expectedLines) ∨ (s.writer.phase = .loop ∧ 0 < s.writer.expectedLines)

namespace Starved

theorem handlesItem (h : s.Starved) (handles : s.HandlesItem e) : s.step e = none := by
  cases e with
  | reader =>
    rcases h.reader with phase | ⟨phase, last⟩
    · simp [step, stepReader, phase]
    · simp [HandlesItem, phase, last, ReaderPhase.hand] at handles
  | producer i =>
    obtain ⟨w, found, handles⟩ := handles
    rcases h.producers w (List.mem_of_getElem? found) with rfl | rfl | rfl
    · exact handles.elim
    · simp [step, stepProducer, found, Work.step, h.inputQueue]
    · exact handles.elim
  | consumer i => simp [step, stepConsumer, h.consumers]
  | writer =>
    rcases h.writer with ⟨phase, -⟩ | ⟨phase, -⟩
    · simp [step, stepWriter, phase, h.outputQueue]
    · simp [HandlesItem, phase, WriterPhase.hand] at handles
  | cancellation i => exact handles.elim
  | measure => exact handles.elim
  | create => exact handles.elim
  | cancel => exact handles.elim
  | pthreadCancel => exact handles.elim
  | rest => exact handles.elim

theorem producer (h : s.Starved) (e : s.stepProducer i = some s') : s'.Starved := by
  obtain ⟨w, found, e⟩ := Option.bind_eq_some_iff.1 e
  have keep {w' : Work} (idle : w' = .getSize ∨ w' = .dequeue ∨ w' = .done) :
      ∀ v ∈ s.producers.set i w', v = .getSize ∨ v = .dequeue ∨ v = .done := by
    intro v hv
    rcases List.mem_or_eq_of_mem_set hv with hv | rfl
    · exact h.producers v hv
    · exact idle
  rcases h.producers w (List.mem_of_getElem? found) with rfl | rfl | rfl
  · simp only [reduceCtorEq, if_false, Work.step, Option.map_some, Option.some.injEq, h.inputQueue, lt_irrefl] at e
    subst e
    exact { h with producers := keep (.inr (.inr rfl)) }
  · simp [Work.step, h.inputQueue] at e
  · simp only [if_true, Option.some.injEq] at e
    subst e
    exact { h with producers := keep (.inl rfl) }

theorem step (h : s.Starved) (allowed : s.Controlled 20 80 e) (t : s.step e = some s') : s'.Starved := by
  cases e with
  | reader =>
    rcases h.reader with phase | ⟨phase, last⟩
    · simp [Pipeline.step, stepReader, phase] at t
    · simp only [Pipeline.step, stepReader, phase, last, if_true, Option.some.injEq] at t
      subst t
      exact { h with reader := .inl rfl }
  | producer i => exact h.producer t
  | consumer i => simp [Pipeline.step, stepConsumer, h.consumers] at t
  | writer =>
    rcases h.writer with ⟨phase, -⟩ | ⟨phase, more⟩
    · simp [Pipeline.step, stepWriter, phase, h.outputQueue] at t
    · simp only [Pipeline.step, stepWriter, phase, if_neg more.ne', Option.some.injEq] at t
      subst t
      exact { h with writer := .inl ⟨rfl, by simp only; omega⟩ }
  | cancellation i => simp [Pipeline.step, cancellation, h.consumers] at t
  | measure =>
    obtain rfl := Option.some.inj t
    exact { h with measured := fun m hm => Option.some.inj hm ▸ h.workerQueue }
  | create =>
    obtain ⟨m, measured, more⟩ := allowed
    have few := h.measured m measured
    rw [h.workerSize] at more
    omega
  | cancel => simp [Pipeline.step, cancel, h.vector] at t
  | pthreadCancel => simp [Pipeline.step, pthreadCancel, h.cancelling] at t
  | rest =>
    obtain rfl := Option.some.inj t
    exact { h with measured := fun m hm => (Option.some_ne_none m hm.symm).elim }

theorem runs (h : s.Starved) (more : Relation.ReflTransGen ((pipeline n input).Next (Controlled 20 80)) s s') :
    s'.Starved := by
  induction more with
  | refl => exact h
  | tail _ next ih =>
    obtain ⟨a, allowed, t⟩ := next
    exact ih.step allowed t

theorem stuck (h : s.Starved) : s.Stuck n input := by
  refine ⟨?_, fun s' more e handles => (h.runs more).handlesItem handles⟩
  rcases h.writer with ⟨phase, more⟩ | ⟨phase, more⟩
  · simp only [linesToWrite, phase]
    omega
  · simpa [linesToWrite, phase] using more

end Starved

/-- The first `k` lines lie in the worker queue, and every thread is at the head of its loop. -/
structure Filled (n k : ℕ) (s : Pipeline) : Prop where
  reader : s.reader = ⟨n - k, .loop⟩
  read : s.read = k
  inputQueue : s.inputQueue.size = 0
  producers : s.producers = [.getSize, .getSize, .getSize, .getSize]
  workerQueue : s.workerQueue.size = k
  controller : s.controller = ⟨[], none, none⟩
  consumers : s.consumers = []
  outputQueue : s.outputQueue.size = 0
  writer : s.writer = ⟨n, .loop⟩

theorem filled_initial (n : ℕ) (input : List Item) (garbage : ℤ → Piece) : (initial n input garbage).Filled n 0 :=
  ⟨by simp [initial], rfl, rfl, rfl, rfl, rfl, rfl, rfl, rfl⟩

theorem Filled.starved (h : s.Filled n n) (sound : s.Sound n input) (some : 0 < n) (few : n ≤ 160) : s.Starved where
  reader := .inr (by simp [h.reader])
  inputQueue := h.inputQueue
  producers w hw := by
    rw [h.producers] at hw
    simp only [List.mem_cons, List.not_mem_nil, or_false, or_self] at hw
    exact .inl hw
  workerSize := sound.workerSize
  workerQueue := by
    rw [h.workerQueue]
    omega
  vector := by rw [h.controller]
  measured := by simp [h.controller]
  cancelling := by rw [h.controller]
  consumers := h.consumers
  outputQueue := h.outputQueue
  writer := .inr (by simp [h.writer, some])

variable (bound : n ≤ input.length) (opcodes : ∀ item ∈ input.take n, item.WellFormed)

include bound opcodes

/-- Reader and first producer pass one more line on. -/
theorem Filled.next (h : s.Filled n k) (more : k < n) (few : k < 200) (reach : Reach (pipeline n input) (Controlled 20 80) s) :
    ∃ s', Reach (pipeline n input) (Controlled 20 80) s' ∧ s'.Filled n (k + 1) := by
  have sound := Sound.of_reach reach
  have left : (n : ℤ) - k ≠ 0 := by omega
  have inside : k < s.input.length := by
    rw [sound.file]
    omega
  let p : Piece := ⟨s.input[k], k⟩
  let others : List Work := [.getSize, .getSize, .getSize]
  let q := s.inputQueue.enqueue p
  have size : q.size = 1 := by
    rw [TSQueue.enqueue_size, h.inputQueue, zero_add]
  have reading : Reach (pipeline n input) (Controlled 20 80)
      { s with reader := ⟨n - k - 1, .enqueue p⟩, read := k + 1 } :=
    reach.step (a := .reader) trivial (by simp [pipeline, step, stepReader, h.reader, h.read, left, inside, p])
  have enqueued : Reach (pipeline n input) (Controlled 20 80)
      { s with inputQueue := q, reader := ⟨n - k - 1, .loop⟩, read := k + 1 } :=
    reading.step (a := .reader) trivial (by simp [pipeline, step, stepReader, h.inputQueue, sound.inputSize, q])
  have asked : Reach (pipeline n input) (Controlled 20 80)
      { s with inputQueue := q, reader := ⟨n - k - 1, .loop⟩, read := k + 1, producers := .dequeue :: others } :=
    enqueued.step (a := .producer 0) trivial (by simp [pipeline, step, stepProducer, h.producers, Work.step, size, others])
  have taken : Reach (pipeline n input) (Controlled 20 80)
      { s with inputQueue := q.dequeue, reader := ⟨n - k - 1, .loop⟩, read := k + 1, producers := .transform q.front :: others } :=
    asked.step (a := .producer 0) trivial (by simp [pipeline, step, stepProducer, Work.step, size, others])
  have known := raw_transformed (Sound.of_reach taken) bound opcodes q.front (by simp [raw, Work.taken])
  obtain ⟨p', made⟩ := Option.isSome_iff_exists.1 known
  have transformed : Reach (pipeline n input) (Controlled 20 80)
      { s with inputQueue := q.dequeue, reader := ⟨n - k - 1, .loop⟩, read := k + 1, producers := .enqueue p' :: others } :=
    taken.step (a := .producer 0) trivial (by simp [pipeline, step, stepProducer, Work.step, made, others])
  have room : s.workerQueue.size ≠ s.workerQueue.bufferSize := by
    rw [h.workerQueue, sound.workerSize]
    omega
  have passed : Reach (pipeline n input) (Controlled 20 80)
      { s with
        inputQueue := q.dequeue, reader := ⟨n - k - 1, .loop⟩, read := k + 1
        workerQueue := s.workerQueue.enqueue p', producers := .done :: others } :=
    transformed.step (a := .producer 0) trivial (by simp [pipeline, step, stepProducer, Work.step, room, others])
  have around : Reach (pipeline n input) (Controlled 20 80)
      { s with
        inputQueue := q.dequeue, reader := ⟨n - k - 1, .loop⟩, read := k + 1
        workerQueue := s.workerQueue.enqueue p', producers := .getSize :: others } :=
    passed.step (a := .producer 0) trivial (by simp [pipeline, step, stepProducer, others])
  refine ⟨_, around, ?_, rfl, ?_, rfl, ?_, h.controller, h.consumers, h.outputQueue, h.writer⟩
  · rw [Nat.cast_add, Nat.cast_one, sub_sub]
  · rw [TSQueue.dequeue_size, size, sub_self]
  · rw [TSQueue.enqueue_size, h.workerQueue, Nat.cast_add, Nat.cast_one]

/-- All lines can come to lie in the worker queue. -/
theorem exists_filled (few : n ≤ 200) : ∃ s, Reach (pipeline n input) (Controlled 20 80) s ∧ s.Filled n n := by
  have filled (k : ℕ) (hk : k ≤ n) : ∃ s, Reach (pipeline n input) (Controlled 20 80) s ∧ s.Filled n k := by
    induction k with
    | zero => exact ⟨_, .init ⟨fun _ => ⟨⟨0, 0, 'A'⟩, 0⟩, rfl⟩, filled_initial n input _⟩
    | succ k ih =>
      obtain ⟨s, reach, filled⟩ := ih (by omega)
      exact filled.next bound opcodes hk (by omega) reach
  exact filled n le_rfl

/-- **At most 160 lines can get stuck.** -/
theorem stuck_of_few (some : 0 < n) (few : n ≤ 160) : ∃ s, Reach (pipeline n input) (Controlled 20 80) s ∧ s.Stuck n input := by
  obtain ⟨s, reach, all⟩ := exists_filled bound opcodes (by omega)
  exact ⟨s, reach, (all.starved (Sound.of_reach reach) some few).stuck⟩

/-- **When the pipeline never gets stuck.** With four producers, queues of 200, 200 and 4000 places
and thresholds of 20 and 80 percent, exactly the numbers of lines between 1 and 160 can leave
the writer waiting for ever. -/
theorem never_stuck_iff : (∀ s, Reach (pipeline n input) (Controlled 20 80) s → ¬ s.Stuck n input) ↔ n = 0 ∨ 161 ≤ n := by
  constructor
  · intro never
    by_contra between
    obtain ⟨s, reach, stuck⟩ := stuck_of_few bound opcodes (by omega) (by omega)
    exact never s reach stuck
  · rintro (rfl | large) s reach
    · rintro ⟨expects, -⟩
      have writes := (Sound.of_reach reach).writes
      omega
    · exact not_stuck large bound opcodes reach

omit bound opcodes

theorem never_stuck_iff_enough : ¬ ∃ s, Reach (pipeline 161 (.replicate 161 ⟨7, 5, 'A'⟩)) (Controlled 20 80) s ∧
    s.Stuck 161 (.replicate 161 ⟨7, 5, 'A'⟩) := by
  rintro ⟨s, reach, stuck⟩
  refine (never_stuck_iff (List.length_replicate ▸ le_rfl) ?_).2 (.inr le_rfl) s reach stuck
  intro item hitem
  rw [List.eq_of_mem_replicate (List.mem_of_mem_take hitem)]
  exact List.mem_cons_self

/-- One line is too few. -/
theorem stuck_of_one : ∃ s, Reach (pipeline 1 [⟨7, 5, 'A'⟩]) (Controlled 20 80) s ∧ s.Stuck 1 [⟨7, 5, 'A'⟩] := by
  refine stuck_of_few (le_refl 1) ?_ (by decide) (by decide)
  intro item hitem
  rw [List.mem_singleton.1 hitem]
  exact List.mem_cons_self

end Nachos.Pthreads.Pipeline
