import Nachos.Pthreads.Conservation

/-!
# When the pipeline can always go on

The controller creates the first consumer when it finds more than 160 of the 200 places of
the worker queue taken. From there on one consumer is never cancelled (`Staffed`), and some
item can be moved until the writer has its lines. Fewer lines than that fill the queue too
little, and the writer waits for ever (`Starved`).
-/

namespace Nachos.Pthreads
open Transition

def Work.HandlesItem : Work → Prop
  | .dequeue | .transform _ | .enqueue _ => True
  | .getSize | .done => False

namespace Pipeline

variable {s s' : Pipeline} {n : ℕ} {input : List Item} {i : ℕ} {e : Event}

/-- The step reads, takes, transforms, hands over or writes an item. -/
def HandlesItem (s : Pipeline) : Event → Prop
  | .reader => s.reader.phase.hand ≠ 0 ∨ (s.reader.phase = .loop ∧ s.reader.expectedLines ≠ 0)
  | .producer i => ∃ w, s.producers[i]? = some w ∧ w.HandlesItem
  | .consumer i => ∃ c w, s.consumers[i]? = some c ∧ c.phase = .body w ∧ w.HandlesItem
  | .writer => s.writer.phase = .dequeue ∨ s.writer.phase.hand ≠ 0
  | _ => False

/-- However the run continues under `main`'s controller, no item is handled again. -/
def Halted (n : ℕ) (input : List Item) (s : Pipeline) : Prop :=
  ∀ s', Relation.ReflTransGen ((pipeline n input).Next (Controlled 20 80)) s s' → ∀ e, s'.HandlesItem e → s'.step e = none

/-- The writer expects lines, and nothing can be moved any more. -/
def Stuck (n : ℕ) (input : List Item) (s : Pipeline) : Prop := 0 < s.linesToWrite ∧ s.Halted n input

namespace Halted

theorem next (h : s.Halted n input) (allowed : s.Controlled 20 80 e) (t : s.step e = some s') : s'.Halted n input :=
  fun _ more => h _ (.head ⟨e, allowed, t⟩ more)

theorem elim (h : s.Halted n input) (handles : s.HandlesItem e) (enabled : (s.step e).isSome) : False := by
  rw [h s .refl e handles] at enabled
  cases enabled

/-- The writer waits for an empty queue. -/
theorem writer (h : s.Halted n input) (expects : 0 < s.linesToWrite) :
    s.outputQueue.size = 0 ∧ s.writer.phase.hand = 0 := by
  cases phase : s.writer.phase with
  | loop =>
    refine ⟨?_, rfl⟩
    by_contra filled
    have more : s.writer.expectedLines ≠ 0 := by
      simp only [linesToWrite, phase] at expects
      omega
    have waits := h.next (e := .writer) trivial (by rw [step, stepWriter, phase])
    apply waits.elim (e := .writer)
    · exact .inl (if_neg more)
    · simp [step, stepWriter, more, filled]
  | dequeue =>
    refine ⟨?_, rfl⟩
    by_contra filled
    apply h.elim (e := .writer)
    · exact .inl phase
    · simp [step, stepWriter, phase, filled]
  | write p =>
    exfalso
    apply h.elim (e := .writer)
    · exact .inr (by simp [phase, WriterPhase.hand])
    · simp [step, stepWriter, phase]
  | finished =>
    simp [linesToWrite, phase] at expects

/-- The reader has read all its lines, once there is room. -/
theorem reader (h : s.Halted n input) (sound : s.Sound n input) (bound : n ≤ input.length)
    (room : s.inputQueue.size ≠ s.inputQueue.bufferSize) : s.linesToRead = 0 ∧ s.reader.phase.hand = 0 := by
  cases phase : s.reader.phase with
  | loop =>
    refine ⟨?_, rfl⟩
    by_contra more
    have reads := sound.reads
    have toRead := sound.toRead
    simp only [linesToRead, phase, reduceCtorEq, if_false] at more reads toRead
    have inside : s.read < s.input.length := by
      rw [sound.file]
      omega
    apply h.elim (e := .reader)
    · exact .inr ⟨phase, more⟩
    · simp [step, stepReader, phase, more, inside]
  | enqueue p =>
    exfalso
    apply h.elim (e := .reader)
    · exact .inl (by simp [phase, ReaderPhase.hand])
    · simp [step, stepReader, phase, room]
  | finished =>
    exact ⟨by simp [linesToRead, phase], rfl⟩

/-- The producers hold nothing, once there is room. -/
theorem producers (h : s.Halted n input) (room : s.workerQueue.size ≠ s.workerQueue.bufferSize)
    (defined : ∀ p ∈ s.raw, (p.transformed producerTransform).isSome) : ∀ w ∈ s.producers, w.taken = 0 ∧ w.made = 0 := by
  intro w hw
  obtain ⟨i, found⟩ := List.getElem?_of_mem hw
  cases w with
  | transform p =>
    exfalso
    obtain ⟨rest, sum, -⟩ := sum_map_set Work.taken found
    have here : p ∈ s.raw := by
      rw [raw, sum]
      simp [Work.taken]
    apply h.elim (e := .producer i)
    · exact ⟨_, found, trivial⟩
    · simpa [step, stepProducer, found, Work.step] using defined p here
  | enqueue p =>
    exfalso
    apply h.elim (e := .producer i)
    · exact ⟨_, found, trivial⟩
    · simp [step, stepProducer, found, Work.step, room]
  | getSize | dequeue | done => exact ⟨rfl, rfl⟩

/-- A producer inside `dequeue` waits for an empty queue. -/
theorem inputQueue_of_dequeue (h : s.Halted n input) (found : s.producers[0]? = some .dequeue) : s.inputQueue.size ≤ 0 := by
  by_contra filled
  have size := (not_le.1 filled).ne'
  apply h.elim (e := .producer 0)
  · exact ⟨_, found, trivial⟩
  · simp [step, stepProducer, found, Work.step, size]

theorem inputQueue_of_getSize (h : s.Halted n input) (found : s.producers[0]? = some .getSize) : s.inputQueue.size ≤ 0 := by
  by_contra filled
  have inside := (List.getElem?_eq_some_iff.1 found).1
  have asked : ({ s with producers := s.producers.set 0 .dequeue } : Pipeline).Halted n input :=
    h.next (e := .producer 0) trivial (by simp [step, stepProducer, found, Work.step, not_le.1 filled])
  exact filled (asked.inputQueue_of_dequeue (by simp [inside]))

/-- A producer that holds nothing empties the input queue. -/
theorem inputQueue (h : s.Halted n input) {w : Work} (found : s.producers[0]? = some w) (taken : w.taken = 0)
    (made : w.made = 0) : s.inputQueue.size ≤ 0 := by
  cases w with
  | getSize => exact h.inputQueue_of_getSize found
  | dequeue => exact h.inputQueue_of_dequeue found
  | transform p => simp [Work.taken] at taken
  | enqueue p => simp [Work.made] at made
  | done =>
    have inside := (List.getElem?_eq_some_iff.1 found).1
    have around : ({ s with producers := s.producers.set 0 .getSize } : Pipeline).Halted n input :=
      h.next (e := .producer 0) trivial (by simp [step, stepProducer, found])
    exact around.inputQueue_of_getSize (by simp [inside])

/-- The consumers hold nothing, once there is room. -/
theorem consumers (h : s.Halted n input) (room : s.outputQueue.size ≠ s.outputQueue.bufferSize)
    (defined : ∀ p ∈ s.half, (p.transformed consumerTransform).isSome) : ∀ c ∈ s.consumers, c.taken = 0 ∧ c.made = 0 := by
  intro c hc
  obtain ⟨i, found⟩ := List.getElem?_of_mem hc
  rw [Consumer.taken, Consumer.made]
  cases phase : c.phase with
  | body w =>
    cases w with
    | transform p =>
      exfalso
      obtain ⟨rest, sum, -⟩ := sum_map_set Consumer.taken found
      have here : p ∈ s.half := by
        rw [half, sum]
        simp [Consumer.taken, phase, ConsumerPhase.taken, Work.taken]
      apply h.elim (e := .consumer i)
      · exact ⟨c, _, found, phase, trivial⟩
      · simpa [step, stepConsumer, found, phase, Work.step] using defined p here
    | enqueue p =>
      exfalso
      apply h.elim (e := .consumer i)
      · exact ⟨c, _, found, phase, trivial⟩
      · simp [step, stepConsumer, found, phase, Work.step, room]
    | getSize | dequeue | done => exact ⟨rfl, rfl⟩
  | loop | disable | left | cancelled => exact ⟨rfl, rfl⟩

section First

variable {c : Consumer}

theorem workerQueue_of_dequeue (h : s.Halted n input) (found : s.consumers[0]? = some c) (phase : c.phase = .body .dequeue) :
    s.workerQueue.size ≤ 0 := by
  by_contra filled
  have size := (not_le.1 filled).ne'
  apply h.elim (e := .consumer 0)
  · exact ⟨c, _, found, phase, trivial⟩
  · simp [step, stepConsumer, found, phase, Work.step, size]

theorem workerQueue_of_getSize (h : s.Halted n input) (found : s.consumers[0]? = some c) (phase : c.phase = .body .getSize) :
    s.workerQueue.size ≤ 0 := by
  by_contra filled
  have inside := (List.getElem?_eq_some_iff.1 found).1
  have asked : (s.setConsumer 0 { c with phase := .body .dequeue }).Halted n input :=
    h.next (e := .consumer 0) trivial (by simp [step, stepConsumer, found, phase, Work.step, not_le.1 filled, setConsumer])
  exact filled (asked.workerQueue_of_dequeue (List.getElem?_set_self inside) rfl)

theorem workerQueue_of_disable (h : s.Halted n input) (found : s.consumers[0]? = some c) (phase : c.phase = .disable) :
    s.workerQueue.size ≤ 0 := by
  have inside := (List.getElem?_eq_some_iff.1 found).1
  have entered : (s.setConsumer 0 { c with cancelEnabled := false, phase := .body .getSize }).Halted n input :=
    h.next (e := .consumer 0) trivial (by simp [step, stepConsumer, found, phase])
  exact entered.workerQueue_of_getSize (List.getElem?_set_self inside) rfl

theorem workerQueue_of_loop (h : s.Halted n input) (found : s.consumers[0]? = some c) (phase : c.phase = .loop)
    (stays : c.isCancel = false) : s.workerQueue.size ≤ 0 := by
  have inside := (List.getElem?_eq_some_iff.1 found).1
  have around : (s.setConsumer 0 { c with phase := .disable }).Halted n input :=
    h.next (e := .consumer 0) trivial (by simp [step, stepConsumer, found, phase, stays])
  exact around.workerQueue_of_disable (List.getElem?_set_self inside) rfl

/-- A consumer that stays and holds nothing empties the worker queue. -/
theorem workerQueue (h : s.Halted n input) (found : s.consumers[0]? = some c) (stays : c.isCancel = false)
    (left : c.phase ≠ .left) (cancelled : c.phase ≠ .cancelled) (taken : c.taken = 0) (made : c.made = 0) :
    s.workerQueue.size ≤ 0 := by
  rw [Consumer.taken] at taken
  rw [Consumer.made] at made
  cases phase : c.phase with
  | loop => exact h.workerQueue_of_loop found phase stays
  | disable => exact h.workerQueue_of_disable found phase
  | body w =>
    rw [phase] at taken made
    cases w with
    | getSize => exact h.workerQueue_of_getSize found phase
    | dequeue => exact h.workerQueue_of_dequeue found phase
    | transform p => simp [ConsumerPhase.taken, Work.taken] at taken
    | enqueue p => simp [ConsumerPhase.made, Work.made] at made
    | done =>
      have inside := (List.getElem?_eq_some_iff.1 found).1
      have around : (s.setConsumer 0 { c with cancelEnabled := true, phase := .loop }).Halted n input :=
        h.next (e := .consumer 0) trivial (by simp [step, stepConsumer, found, phase])
      exact around.workerQueue_of_loop (List.getElem?_set_self inside) rfl stays
  | left => exact absurd phase left
  | cancelled => exact absurd phase cancelled

end First

section Unmanned

variable {m : ℤ} (h : s.Halted n input) (size : s.workerQueue.bufferSize = 200) (empty : s.consumers = [])
  (idle : s.controller.cancelling = none)

include h size empty idle

theorem workerQueue_of_measured (measured : s.controller.measured = some m) (more : 160 < m) : s.workerQueue.size ≤ 0 := by
  have scaled : s.create.Halted n input :=
    h.next (e := .create) ⟨m, measured, by rw [size]; omega⟩ (by simp [step, idle])
  have first : s.create.consumers[0]? = some .new := by simp [empty]
  exact scaled.workerQueue_of_loop first rfl rfl

theorem workerQueue_of_asleep (asleep : s.controller.measured = none) : s.workerQueue.size ≤ 160 := by
  by_contra filled
  have measured : s.measure.Halted n input := h.next (e := .measure) asleep rfl
  have drained := measured.workerQueue_of_measured size empty idle rfl (not_le.1 filled)
  rw [measure_workerQueue] at drained
  omega

/-- Without consumers, the controller would create one if the worker queue were full enough. -/
theorem workerQueue_of_unmanned (vector : s.controller.consumers = []) : s.workerQueue.size ≤ 160 := by
  cases measured : s.controller.measured with
  | none => exact h.workerQueue_of_asleep size empty idle measured
  | some m =>
    by_cases more : 160 < m
    · have drained := h.workerQueue_of_measured size empty idle measured more
      omega
    · have asleep : s.rest.Halted n input :=
        h.next (e := .rest) ⟨idle, m, measured, by rw [size]; omega, by simp [vector]⟩ rfl
      exact asleep.workerQueue_of_asleep size empty idle rfl

end Unmanned

end Halted

/-- One consumer stays: the first in the controller's vector is never cancelled. -/
structure Staffed (s : Pipeline) : Prop where
  producers : 0 < s.producers.length
  vector : (s.controller.consumers = [] ∧ s.consumers = []) ∨ (∃ rest, s.controller.consumers = 0 :: rest ∧ 0 ∉ rest) ∧ s.consumers ≠ []
  cancelling : ∀ i, s.controller.cancelling = some i → i ≠ 0 ∧ 1 < s.controller.consumers.length
  first : ∀ c, s.consumers[0]? = some c → c.isCancel = false ∧ c.phase ≠ .left ∧ c.phase ≠ .cancelled
  unstaffed : s.consumers = [] → s.outputQueue.size = 0 ∧ s.writer.phase.hand = 0 ∧ s.written = []

namespace Staffed

theorem initial (n : ℕ) (input : List Item) (garbage : ℤ → Piece) : (Pipeline.initial n input garbage).Staffed where
  producers := Nat.succ_pos 3
  vector := .inl ⟨rfl, rfl⟩
  cancelling _ h := by cases h
  first _ h := by cases h
  unstaffed _ := ⟨rfl, rfl, rfl⟩

theorem reader (h : s.Staffed) (e : s.stepReader = some s') : s'.Staffed := by
  cases phase : s.reader.phase with
  | loop =>
    simp only [stepReader, phase] at e
    split at e
    · obtain rfl := Option.some.inj e
      exact { h with }
    · obtain ⟨item, -, rfl⟩ := Option.map_eq_some_iff.1 e
      exact { h with }
  | enqueue p =>
    simp only [stepReader, phase, Option.ite_none_left_eq_some, Option.some.injEq] at e
    obtain ⟨-, rfl⟩ := e
    exact { h with }
  | finished => simp only [stepReader, phase, reduceCtorEq] at e

theorem producer (h : s.Staffed) (e : s.stepProducer i = some s') : s'.Staffed := by
  have some := h.producers
  obtain ⟨w, -, e⟩ := Option.bind_eq_some_iff.1 e
  split at e
  · obtain rfl := Option.some.inj e
    exact { h with producers := by simpa using some }
  · obtain ⟨r, -, rfl⟩ := Option.map_eq_some_iff.1 e
    exact { h with producers := by simpa using some }

theorem writer (h : s.Staffed) (e : s.stepWriter = some s') : s'.Staffed := by
  have unstaffed := h.unstaffed
  cases phase : s.writer.phase with
  | loop =>
    simp only [stepWriter, phase, Option.some.injEq] at e
    subst e
    refine { h with unstaffed := fun empty => ⟨(unstaffed empty).1, ?_, (unstaffed empty).2.2⟩ }
    simp only
    split <;> rfl
  | dequeue =>
    simp only [stepWriter, phase, Option.ite_none_left_eq_some, Option.some.injEq] at e
    obtain ⟨filled, rfl⟩ := e
    exact { h with unstaffed := fun empty => absurd (unstaffed empty).1 filled }
  | write p =>
    simp only [stepWriter, phase, Option.some.injEq] at e
    subst e
    refine { h with unstaffed := fun empty => ?_ }
    have hand := (unstaffed empty).2.1
    simp [phase, WriterPhase.hand] at hand
  | finished => simp only [stepWriter, phase, reduceCtorEq] at e

/-- Another consumer, or the first one as it stays, may change. -/
theorem setConsumer {c c' : Consumer} (h : s.Staffed) (found : s.consumers[i]? = some c)
    (stays : i = 0 → c'.isCancel = false ∧ c'.phase ≠ .left ∧ c'.phase ≠ .cancelled) : (s.setConsumer i c').Staffed := by
  have inside := (List.getElem?_eq_some_iff.1 found).1
  have nonempty : s.consumers ≠ [] := List.ne_nil_of_length_pos (by omega)
  have still : s.consumers.set i c' ≠ [] := by simpa using nonempty
  refine ⟨h.producers, .inr ⟨(h.vector.resolve_left fun empty => nonempty empty.2).1, still⟩, h.cancelling, ?_,
    fun empty => absurd empty still⟩
  intro d hd
  obtain ⟨zero, rfl⟩ | ⟨-, hd⟩ := found_set found hd
  · exact stays zero.symm
  · exact h.first d hd

theorem consumer (h : s.Staffed) (e : s.stepConsumer i = some s') : s'.Staffed := by
  obtain ⟨c, found, e⟩ := Option.bind_eq_some_iff.1 e
  have first (zero : i = 0) := h.first c (zero ▸ found)
  cases phase : c.phase with
  | loop =>
    simp only [phase] at e
    obtain rfl := Option.some.inj e
    apply h.setConsumer found
    intro zero
    simp [(first zero).1]
  | disable =>
    simp only [phase] at e
    obtain rfl := Option.some.inj e
    exact h.setConsumer found fun zero => ⟨(first zero).1, nofun, nofun⟩
  | body w =>
    by_cases atEnd : w = .done
    · subst atEnd
      simp only [phase] at e
      obtain rfl := Option.some.inj e
      exact h.setConsumer found fun zero => ⟨(first zero).1, nofun, nofun⟩
    · simp only [phase] at e
      obtain ⟨⟨source', target', w'⟩, stepped, rfl⟩ := Option.map_eq_some_iff.1 e
      have moved : (s.setConsumer i { c with phase := .body w' }).Staffed :=
        h.setConsumer found fun zero => ⟨(first zero).1, nofun, nofun⟩
      have inside := (List.getElem?_eq_some_iff.1 found).1
      refine { moved with unstaffed := fun empty => ?_ }
      simp only [List.set_eq_nil_iff] at empty
      simp [empty] at inside
  | left =>
    simp only [phase, reduceCtorEq] at e
  | cancelled =>
    simp only [phase, reduceCtorEq] at e

theorem create (h : s.Staffed) : s.create.Staffed := by
  have still : s.consumers ++ [Consumer.new] ≠ [] := by simp
  refine ⟨h.producers, .inr ⟨?_, still⟩, ?_, ?_, fun empty => absurd empty still⟩
  · rcases h.vector with ⟨vector, none⟩ | ⟨⟨rest, vector, zero⟩, some⟩
    · exact ⟨[], by simp [vector, none], List.not_mem_nil⟩
    · refine ⟨rest ++ [s.consumers.length], by simp [vector], ?_⟩
      rw [List.mem_append, List.mem_singleton]
      rintro (inside | last)
      · exact zero inside
      · exact some (List.eq_nil_of_length_eq_zero last.symm)
  · intro i hi
    obtain ⟨ne, more⟩ := h.cancelling i hi
    have longer : (s.controller.consumers ++ [s.consumers.length]).length = s.controller.consumers.length + 1 := by simp
    exact ⟨ne, by rw [create_controller_consumers, longer]; omega⟩
  · intro c hc
    by_cases none : s.consumers = []
    · rw [create_consumers, none] at hc
      obtain rfl := Option.some.inj hc
      exact ⟨rfl, nofun, nofun⟩
    · rw [create_consumers, List.getElem?_append_left (List.length_pos_iff.2 none)] at hc
      exact h.first c hc

theorem cancel (h : s.Staffed) (more : 1 < s.controller.consumers.length) (e : s.cancel = some s') : s'.Staffed := by
  obtain ⟨i, last, e⟩ := Option.bind_eq_some_iff.1 e
  obtain ⟨c, found, rfl⟩ := Option.map_eq_some_iff.1 e
  obtain ⟨rest, vector, zero⟩ : ∃ rest, s.controller.consumers = 0 :: rest ∧ 0 ∉ rest := by
    rcases h.vector with ⟨none, -⟩ | ⟨some, -⟩
    · simp [none] at more
    · exact some
  have ne : i ≠ 0 := by
    rintro rfl
    rw [vector, List.length_cons] at more
    rw [vector, List.getLast?_cons, List.getLast?_eq_some_getLast (List.ne_nil_of_length_pos (by omega))] at last
    exact zero (Option.some.inj last ▸ List.getLast_mem _)
  have flagged : (s.setConsumer i { c with isCancel := true }).Staffed := h.setConsumer found fun eq => absurd eq ne
  exact { flagged with cancelling := fun j hj => ⟨Option.some.inj hj ▸ ne, more⟩ }

theorem pthreadCancel (h : s.Staffed) (e : s.pthreadCancel = some s') : s'.Staffed := by
  obtain ⟨i, target, e⟩ := Option.bind_eq_some_iff.1 e
  obtain ⟨c, found, rfl⟩ := Option.map_eq_some_iff.1 e
  obtain ⟨ne, more⟩ := h.cancelling i target
  have requested : (s.setConsumer i { c with cancelRequested := true }).Staffed := h.setConsumer found fun eq => absurd eq ne
  refine { requested with vector := ?_, cancelling := nofun }
  rcases requested.vector with ⟨none, -⟩ | ⟨⟨rest, vector, zero⟩, some⟩
  · rw [setConsumer_controller] at none
    simp [none] at more
  · refine .inr ⟨⟨rest.dropLast, ?_, fun inside => zero (List.dropLast_subset rest inside)⟩, some⟩
    rw [setConsumer_controller] at vector
    rw [vector, List.length_cons] at more
    simp only [vector]
    exact List.dropLast_cons_of_ne_nil (List.ne_nil_of_length_pos (by omega))

theorem step (h : s.Staffed) (sound : s.Sound n input) (allowed : s.Controlled 20 80 e) (t : s.step e = some s') :
    s'.Staffed := by
  cases e with
  | reader => exact h.reader t
  | producer i => exact h.producer t
  | consumer i => exact h.consumer t
  | writer => exact h.writer t
  | cancellation i =>
    rw [Pipeline.step, sound.cancellation] at t
    cases t
  | measure =>
    obtain rfl := Option.some.inj t
    exact { h with }
  | create =>
    obtain ⟨-, t⟩ := Option.ite_none_right_eq_some.1 t
    obtain rfl := Option.some.inj t
    exact h.create
  | cancel =>
    obtain ⟨-, t⟩ := Option.ite_none_right_eq_some.1 t
    obtain ⟨m, -, -, -, more⟩ := allowed
    exact h.cancel more t
  | pthreadCancel => exact h.pthreadCancel t
  | rest =>
    obtain rfl := Option.some.inj t
    exact { h with }

theorem of_reach (h : Reach (pipeline n input) (Controlled 20 80) s) : s.Staffed := by
  induction h with
  | init start =>
    obtain ⟨garbage, rfl⟩ := start
    exact initial n input garbage
  | step before allowed t ih => exact ih.step (Sound.of_reach before) allowed t

end Staffed

section Enough

variable (sound : s.Sound n input) (bound : n ≤ input.length) (opcodes : ∀ item ∈ input.take n, item.WellFormed)

include sound bound opcodes

/-- The lines in the pipeline are among the first `n`. -/
theorem wellFormed_of_mem {p : Piece} (hp : p ∈ s.raw + s.half + s.full) : ∃ item, input[p.line]? = some item ∧ item.WellFormed := by
  have line : p.line ∈ Multiset.range s.read := by
    rw [← ledger_read, ← sound.complete.lines]
    exact Multiset.mem_map_of_mem _ hp
  rw [Multiset.mem_range] at line
  have reads := sound.reads
  have toRead := sound.toRead
  have inside : p.line < input.length := by omega
  refine ⟨input[p.line], List.getElem?_eq_getElem inside, opcodes _ ?_⟩
  exact List.mem_take_iff_getElem.2 ⟨p.line, by omega, rfl⟩

theorem raw_transformed : ∀ p ∈ s.raw, (p.transformed producerTransform).isSome := by
  intro p hp
  obtain ⟨item, line, known⟩ := wellFormed_of_mem sound bound opcodes
    (Multiset.mem_add.2 (.inl (Multiset.mem_add.2 (.inl hp))))
  have same := sound.complete.raw p hp
  rw [line, Option.some.injEq] at same
  rw [Piece.transformed, Option.isSome_map, ← same]
  exact (transformed_isSome known).1

theorem half_transformed : ∀ p ∈ s.half, (p.transformed consumerTransform).isSome := by
  intro p hp
  obtain ⟨item, line, known⟩ := wellFormed_of_mem sound bound opcodes
    (Multiset.mem_add.2 (.inl (Multiset.mem_add.2 (.inr hp))))
  have same := sound.complete.half p hp
  rw [Ledger.produced, line, Option.bind_some] at same
  rw [Piece.transformed, Option.isSome_map]
  exact (transformed_isSome (known.transformed same)).2

end Enough

/-- The items in flight are counted by the lines read. -/
theorem Sound.card (h : s.Sound n input) : s.raw.card + s.half.card + s.full.card = s.read := by
  have := congrArg Multiset.card h.complete.lines
  simpa using this

theorem sum_map_eq_zero {β : Type} {f : β → Multiset Piece} {l : List β} (h : ∀ b ∈ l, f b = 0) : (l.map f).sum = 0 := by
  apply List.sum_eq_zero
  intro m hm
  obtain ⟨b, hb, rfl⟩ := List.mem_map.1 hm
  exact h b hb

/-- Once there is room in the worker queue, everything before it has been emptied. -/
theorem Halted.upstream (h : s.Halted n input) (sound : s.Sound n input) (staffed : s.Staffed) (bound : n ≤ input.length)
    (opcodes : ∀ item ∈ input.take n, item.WellFormed) (room : s.workerQueue.size ≠ s.workerQueue.bufferSize) :
    s.raw = 0 ∧ s.linesToRead = 0 ∧ (s.producers.map Work.made).sum = 0 := by
  have hands := h.producers room (raw_transformed sound bound opcodes)
  obtain ⟨w, found⟩ : ∃ w, s.producers[0]? = some w := ⟨_, List.getElem?_eq_getElem staffed.producers⟩
  have first := hands w (List.mem_of_getElem? found)
  have drained := h.inputQueue found first.1 first.2
  have count := sound.inputQueue.card_bag
  have size := sound.inputSize
  obtain ⟨read, hand⟩ := h.reader sound bound (by omega)
  refine ⟨?_, read, sum_map_eq_zero fun w hw => (hands w hw).2⟩
  rw [raw, hand, Multiset.card_eq_zero.1 (show s.inputQueue.bag.card = 0 by omega),
    sum_map_eq_zero fun w hw => (hands w hw).1]
  rfl

/-- **A pipeline with more than 160 lines can always go on.** -/
theorem not_stuck (large : 161 ≤ n) (bound : n ≤ input.length) (opcodes : ∀ item ∈ input.take n, item.WellFormed)
    (h : Reach (pipeline n input) (Controlled 20 80) s) : ¬ s.Stuck n input := by
  rintro ⟨expects, halted⟩
  have sound := Sound.of_reach h
  have staffed := Staffed.of_reach h
  have card := sound.card
  have reads := sound.reads
  have writes := sound.writes
  obtain ⟨noOutput, noWriting⟩ := halted.writer expects
  have upstream := halted.upstream sound staffed bound opcodes
  have halfKnown := half_transformed sound bound opcodes
  have outputBag : s.outputQueue.bag = 0 := by
    have := sound.outputQueue.card_bag
    exact Multiset.card_eq_zero.1 (by omega)
  have workerCount := sound.workerQueue.card_bag
  rcases staffed.vector with ⟨vector, empty⟩ | ⟨-, nonempty⟩
  · obtain ⟨-, -, nothing⟩ := staffed.unstaffed empty
    have idle : s.controller.cancelling = none := by
      by_contra busy
      obtain ⟨i, hi⟩ := Option.ne_none_iff_exists'.1 busy
      have := (staffed.cancelling i hi).2
      simp [vector] at this
    have few := halted.workerQueue_of_unmanned sound.workerSize empty idle vector
    have size := sound.workerSize
    obtain ⟨noRaw, read, noMade⟩ := upstream (by omega)
    have halfNow : s.half = s.workerQueue.bag := by
      rw [half, noMade, empty, List.map_nil, List.sum_nil, zero_add, add_zero]
    have fullNow : s.full = 0 := by
      rw [full, empty, outputBag, noWriting, nothing]
      rfl
    rw [noRaw, halfNow, fullNow] at card
    simp only [Multiset.card_zero, zero_add, add_zero] at card
    omega
  · have room : s.outputQueue.size ≠ s.outputQueue.bufferSize := by
      rw [noOutput, sound.outputSize]
      decide
    have hands := halted.consumers room halfKnown
    obtain ⟨c, found⟩ : ∃ c, s.consumers[0]? = some c := ⟨_, List.getElem?_eq_getElem (List.length_pos_iff.2 nonempty)⟩
    obtain ⟨stays, left, cancelled⟩ := staffed.first c found
    have hand := hands c (List.mem_of_getElem? found)
    have drained := halted.workerQueue found stays left cancelled hand.1 hand.2
    have size := sound.workerSize
    obtain ⟨noRaw, read, noMade⟩ := upstream (by omega)
    have halfNow : s.half = 0 := by
      rw [half, noMade, Multiset.card_eq_zero.1 (show s.workerQueue.bag.card = 0 by omega),
        sum_map_eq_zero fun c hc => (hands c hc).1]
      rfl
    have fullNow : s.full = s.written := by
      rw [full, outputBag, noWriting, sum_map_eq_zero fun c hc => (hands c hc).2]
      simp
    rw [noRaw, halfNow, fullNow] at card
    simp only [Multiset.card_zero, zero_add, Multiset.coe_card] at card
    omega

end Pipeline

end Nachos.Pthreads
