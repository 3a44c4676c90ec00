import Mathlib.Tactic.Abel
import Nachos.Pthreads.Ledger

/-!
# Items are neither lost nor duplicated

Each step of the pipeline makes one entry in the ledger (`Sound.step`), so that in every
reachable state each line read is in one place, as far transformed as the place says.
-/

namespace Nachos.Pthreads
open Transition

/-- The item a thread has taken from a queue and not transformed. -/
def Work.taken : Work → Multiset Piece
  | .transform p => {p}
  | _ => 0

/-- The item a thread has made and not handed over. -/
def Work.made : Work → Multiset Piece
  | .enqueue p => {p}
  | _ => 0

def ReaderPhase.hand : ReaderPhase → Multiset Piece
  | .enqueue p => {p}
  | _ => 0

def WriterPhase.hand : WriterPhase → Multiset Piece
  | .write p => {p}
  | _ => 0

def ConsumerPhase.taken : ConsumerPhase → Multiset Piece
  | .body w => w.taken
  | _ => 0

def ConsumerPhase.made : ConsumerPhase → Multiset Piece
  | .body w => w.made
  | _ => 0

def Consumer.taken (c : Consumer) : Multiset Piece := c.phase.taken

def Consumer.made (c : Consumer) : Multiset Piece := c.phase.made

/-- Replacing a member of a list in a sum. -/
theorem sum_map_set {β M : Type} [AddCommMonoid M] (f : β → M) : ∀ {l : List β} {i : ℕ} {b : β}, l[i]? = some b →
    ∃ rest, (l.map f).sum = rest + f b ∧ ∀ b', ((l.set i b').map f).sum = rest + f b'
  | a :: l, 0, b, h => by
    obtain rfl : a = b := by simpa using h
    exact ⟨(l.map f).sum, by simp [add_comm], fun b' => by simp [add_comm]⟩
  | a :: l, i + 1, b, h => by
    obtain ⟨rest, before, after⟩ := sum_map_set f (show l[i]? = some b by simpa using h)
    refine ⟨f a + rest, by simp [before, add_assoc], fun b' => ?_⟩
    rw [List.set_cons_succ, List.map_cons, List.sum_cons, after, add_assoc]

section Body

variable {w w' : Work} {transform : Item → Option Item} {source target source' target' : Queue}

/-- What one step of the loop body does to its two queues. -/
structure Work.Stepped (transform : Item → Option Item) (source target : Queue) (w : Work)
    (source' target' : Queue) (w' : Work) : Prop where
  sound : source'.Sound
  targetSound : target'.Sound
  sourceSize : source'.bufferSize = source.bufferSize
  targetSize : target'.bufferSize = target.bufferSize
  moved : (source'.bag + w'.taken = source.bag + w.taken ∧ w'.made + target'.bag = w.made + target.bag) ∨
    ∃ p p', p.transformed transform = some p' ∧ source.bag + w.taken = p ::ₘ (source'.bag + w'.taken) ∧
      w'.made + target'.bag = p' ::ₘ (w.made + target.bag)

theorem Work.step_spec (hs : source.Sound) (ht : target.Sound)
    (h : w.step transform source target = some (source', target', w')) :
    Work.Stepped transform source target w source' target' w' := by
  cases w with
  | getSize =>
    simp only [Work.step, Option.some.injEq, Prod.mk.injEq] at h
    obtain ⟨rfl, rfl, rfl⟩ := h
    refine ⟨hs, ht, rfl, rfl, .inl ?_⟩
    split
    · exact ⟨rfl, rfl⟩
    · exact ⟨rfl, rfl⟩
  | dequeue =>
    simp only [Work.step, Option.ite_none_left_eq_some, Option.some.injEq, Prod.mk.injEq] at h
    obtain ⟨filled, rfl, rfl, rfl⟩ := h
    obtain ⟨sound, front⟩ := hs.dequeue filled
    refine ⟨sound, ht, rfl, rfl, .inl ⟨?_, rfl⟩⟩
    simp only [Work.taken, front, add_zero]
    exact add_comm _ _
  | transform p =>
    simp only [Work.step, Option.map_eq_some_iff, Prod.mk.injEq] at h
    obtain ⟨p', made, rfl, rfl, rfl⟩ := h
    refine ⟨hs, ht, rfl, rfl, .inr ⟨p, p', made, ?_, ?_⟩⟩
    · simp only [Work.taken, add_zero]
      rw [add_comm, Multiset.singleton_add]
    · simp only [Work.made, zero_add, Multiset.singleton_add]
  | enqueue p =>
    simp only [Work.step, Option.ite_none_left_eq_some, Option.some.injEq, Prod.mk.injEq] at h
    obtain ⟨room, rfl, rfl, rfl⟩ := h
    obtain ⟨sound, back⟩ := ht.enqueue room p
    refine ⟨hs, sound, rfl, rfl, .inl ⟨rfl, ?_⟩⟩
    simp only [Work.made, back, zero_add]
    exact add_comm _ _
  | done => cases h

/-- The step in the sums that hold its two sides: both stay, or one piece crosses transformed. -/
theorem Work.Stepped.sums (spec : Work.Stepped transform source target w source' target' w')
    {rest rest' before after before' after' : Multiset Piece}
    (hb : before = rest + (source.bag + w.taken)) (ha : after = rest + (source'.bag + w'.taken))
    (hb' : before' = rest' + (w.made + target.bag)) (ha' : after' = rest' + (w'.made + target'.bag)) :
    (after = before ∧ after' = before') ∨
      ∃ p p', p.transformed transform = some p' ∧ before = p ::ₘ after ∧ after' = p' ::ₘ before' := by
  rcases spec.moved with ⟨same, same'⟩ | ⟨p, p', transformed, out, into⟩
  · exact .inl ⟨by rw [ha, hb, same], by rw [ha', hb', same']⟩
  · exact .inr ⟨p, p', transformed, by rw [hb, out, ha, Multiset.add_cons], by rw [ha', into, hb', Multiset.add_cons]⟩

end Body

namespace Pipeline

variable {s s' : Pipeline} {n : ℕ} {input : List Item} {i : ℕ} {e : Event}

def raw (s : Pipeline) : Multiset Piece :=
  s.reader.phase.hand + (s.inputQueue.bag + (s.producers.map Work.taken).sum)

def half (s : Pipeline) : Multiset Piece :=
  (s.producers.map Work.made).sum + s.workerQueue.bag + (s.consumers.map Consumer.taken).sum

def full (s : Pipeline) : Multiset Piece :=
  (s.consumers.map Consumer.made).sum + s.outputQueue.bag + s.writer.phase.hand + ↑s.written

/-- The items of a state, wherever they are. -/
@[simps] def ledger (s : Pipeline) : Ledger := ⟨s.raw, s.half, s.full, s.read⟩

/-- How many lines the reader has still to read. -/
def linesToRead (s : Pipeline) : ℤ := if s.reader.phase = .finished then 0 else s.reader.expectedLines

/-- How many lines the writer has still to write. -/
def linesToWrite (s : Pipeline) : ℤ :=
  match s.writer.phase with
  | .loop => s.writer.expectedLines
  | .dequeue | .write _ => s.writer.expectedLines + 1
  | .finished => 0

structure Sound (n : ℕ) (input : List Item) (s : Pipeline) : Prop where
  file : s.input = input
  inputQueue : s.inputQueue.Sound
  workerQueue : s.workerQueue.Sound
  outputQueue : s.outputQueue.Sound
  inputSize : s.inputQueue.bufferSize = 200
  workerSize : s.workerQueue.bufferSize = 200
  outputSize : s.outputQueue.bufferSize = 4000
  guarded : ∀ c ∈ s.consumers, ∀ w, c.phase = .body w → c.cancelEnabled = false
  complete : s.ledger.Complete input
  reads : s.read + s.linesToRead = n
  toRead : 0 ≤ s.linesToRead
  writes : s.written.length + s.linesToWrite = n
  toWrite : s.writer.phase ≠ .finished → 0 ≤ s.writer.expectedLines

theorem sound_initial (n : ℕ) (input : List Item) (garbage : ℤ → Piece) : (initial n input garbage).Sound n input where
  file := rfl
  inputQueue := TSQueue.sound_new (by decide) _
  workerQueue := TSQueue.sound_new (by decide) _
  outputQueue := TSQueue.sound_new (by decide) _
  inputSize := rfl
  workerSize := rfl
  outputSize := rfl
  guarded c hc := (List.not_mem_nil hc).elim
  complete := Ledger.complete_zero input
  reads := by simp [initial, linesToRead]
  toRead := Int.natCast_nonneg n
  writes := by simp [initial, linesToWrite]
  toWrite _ := Int.natCast_nonneg n

namespace Sound

theorem reader (h : s.Sound n input) (e : s.stepReader = some s') : s'.Sound n input := by
  have reads := h.reads
  have toRead := h.toRead
  cases phase : s.reader.phase with
  | loop =>
    simp only [stepReader, phase] at e
    simp only [linesToRead, phase, reduceCtorEq, if_false] at reads toRead
    split at e
    · rename_i last
      obtain rfl := Option.some.inj e
      refine { h with complete := ?_, reads := ?_, toRead := ?_ }
      · have same : ({ s with reader := ⟨s.reader.expectedLines - 1, .finished⟩ } : Pipeline).ledger = s.ledger := by
          simp only [ledger, raw, half, full, phase, ReaderPhase.hand]
        rw [same]
        exact h.complete
      · simp only [linesToRead, if_true]
        omega
      · simp [linesToRead]
    · rename_i more
      obtain ⟨item, line, rfl⟩ := Option.map_eq_some_iff.1 e
      refine { h with complete := ?_, reads := ?_, toRead := ?_ }
      · refine h.complete.entry (.read item (h.file ▸ line) ?_ rfl rfl rfl)
        simp only [ledger, raw, phase, ReaderPhase.hand, zero_add, Multiset.singleton_add]
      · simp only [linesToRead, reduceCtorEq, if_false]
        omega
      · simp only [linesToRead, reduceCtorEq, if_false]
        omega
  | enqueue p =>
    simp only [stepReader, phase, Option.ite_none_left_eq_some, Option.some.injEq] at e
    simp only [linesToRead, phase, reduceCtorEq, if_false] at reads toRead
    obtain ⟨room, rfl⟩ := e
    obtain ⟨sound, back⟩ := h.inputQueue.enqueue room p
    refine { h with inputQueue := sound, complete := ?_, reads := ?_, toRead := ?_ }
    · refine h.complete.entry (.nothing ?_ rfl rfl rfl)
      simp only [ledger, raw, phase, ReaderPhase.hand, back]
      abel
    · simp only [linesToRead, reduceCtorEq, if_false]
      omega
    · simp only [linesToRead, reduceCtorEq, if_false]
      omega
  | finished =>
    simp only [stepReader, phase, reduceCtorEq] at e

theorem producer (h : s.Sound n input) (e : s.stepProducer i = some s') : s'.Sound n input := by
  obtain ⟨w, found, e⟩ := Option.bind_eq_some_iff.1 e
  obtain ⟨taken, takenBefore, takenAfter⟩ := sum_map_set Work.taken found
  obtain ⟨made, madeBefore, madeAfter⟩ := sum_map_set Work.made found
  split at e
  · rename_i atEnd
    obtain rfl := Option.some.inj e
    refine { h with complete := h.complete.entry (.nothing ?_ ?_ rfl rfl) }
    · simp only [ledger, raw, takenAfter, takenBefore, atEnd, Work.taken]
    · simp only [ledger, half, madeAfter, madeBefore, atEnd, Work.made]
  · obtain ⟨⟨source', target', w'⟩, stepped, eq⟩ := Option.map_eq_some_iff.1 e
    have spec := Work.step_spec h.inputQueue h.workerQueue stepped
    have rawBefore : s.raw = s.reader.phase.hand + taken + (s.inputQueue.bag + w.taken) := by
      rw [raw, takenBefore]
      abel
    have rawAfter : s'.raw = s.reader.phase.hand + taken + (source'.bag + w'.taken) := by
      rw [← eq, raw, takenAfter]
      abel
    have halfBefore : s.half = made + (s.consumers.map Consumer.taken).sum + (w.made + s.workerQueue.bag) := by
      rw [half, madeBefore]
      abel
    have halfAfter : s'.half = made + (s.consumers.map Consumer.taken).sum + (w'.made + target'.bag) := by
      rw [← eq, half, madeAfter]
      abel
    have entry : Ledger.Entry input s.ledger s'.ledger := by
      rcases spec.sums rawBefore rawAfter halfBefore halfAfter with ⟨same, same'⟩ | ⟨p, p', transformed, out, into⟩
      · exact .nothing same same' (by rw [← eq]; rfl) (by rw [← eq]; rfl)
      · exact .produce p p' transformed out into (by rw [← eq]; rfl) (by rw [← eq]; rfl)
    subst eq
    exact { h with
      inputQueue := spec.sound
      workerQueue := spec.targetSound
      inputSize := spec.sourceSize.trans h.inputSize
      workerSize := spec.targetSize.trans h.workerSize
      complete := h.complete.entry entry }

theorem setConsumer {c c' : Consumer} (h : s.Sound n input) (found : s.consumers[i]? = some c)
    (taken : c'.taken = c.taken) (made : c'.made = c.made)
    (guarded : ∀ w, c'.phase = .body w → c'.cancelEnabled = false) : (s.setConsumer i c').Sound n input := by
  obtain ⟨restTaken, takenBefore, takenAfter⟩ := sum_map_set Consumer.taken found
  obtain ⟨restMade, madeBefore, madeAfter⟩ := sum_map_set Consumer.made found
  refine { h with guarded := ?_, complete := h.complete.entry (.nothing rfl ?_ ?_ rfl) }
  · intro d hd w
    rcases List.mem_or_eq_of_mem_set hd with hd | rfl
    · exact h.guarded d hd w
    · exact guarded w
  · simp only [ledger, Pipeline.setConsumer, half, takenAfter, takenBefore, taken]
  · simp only [ledger, Pipeline.setConsumer, full, madeAfter, madeBefore, made]

/-- A step of the loop body of a consumer. -/
theorem body {c : Consumer} {w w' : Work} {source' target' : Queue} (h : s.Sound n input)
    (found : s.consumers[i]? = some c) (phase : c.phase = .body w)
    (stepped : w.step consumerTransform s.workerQueue s.outputQueue = some (source', target', w'))
    (eq : { s with
      workerQueue := source', outputQueue := target', consumers := s.consumers.set i { c with phase := .body w' } } = s') :
    s'.Sound n input := by
  obtain ⟨taken, takenBefore, takenAfter⟩ := sum_map_set Consumer.taken found
  obtain ⟨made, madeBefore, madeAfter⟩ := sum_map_set Consumer.made found
  have spec := Work.step_spec h.workerQueue h.outputQueue stepped
  have takenNow : c.taken = w.taken := by rw [Consumer.taken, phase, ConsumerPhase.taken]
  have madeNow : c.made = w.made := by rw [Consumer.made, phase, ConsumerPhase.made]
  have halfBefore : s.half = (s.producers.map Work.made).sum + taken + (s.workerQueue.bag + w.taken) := by
    rw [half, takenBefore, takenNow]
    abel
  have halfAfter : s'.half = (s.producers.map Work.made).sum + taken + (source'.bag + w'.taken) := by
    rw [← eq, half, takenAfter, Consumer.taken, ConsumerPhase.taken]
    abel
  have fullBefore : s.full = made + s.writer.phase.hand + ↑s.written + (w.made + s.outputQueue.bag) := by
    rw [full, madeBefore, madeNow]
    abel
  have fullAfter : s'.full = made + s.writer.phase.hand + ↑s.written + (w'.made + target'.bag) := by
    rw [← eq, full, madeAfter, Consumer.made, ConsumerPhase.made]
    abel
  have entry : Ledger.Entry input s.ledger s'.ledger := by
    rcases spec.sums halfBefore halfAfter fullBefore fullAfter with ⟨same, same'⟩ | ⟨p, p', transformed, out, into⟩
    · exact .nothing (by rw [← eq]; rfl) same same' (by rw [← eq]; rfl)
    · exact .consume p p' transformed (by rw [← eq]; rfl) out into (by rw [← eq]; rfl)
  have disabled := h.guarded c (List.mem_of_getElem? found) w phase
  subst eq
  refine { h with
    workerQueue := spec.sound
    outputQueue := spec.targetSound
    workerSize := spec.sourceSize.trans h.workerSize
    outputSize := spec.targetSize.trans h.outputSize
    guarded := ?_
    complete := h.complete.entry entry }
  intro d hd v
  rcases List.mem_or_eq_of_mem_set hd with hd | rfl
  · exact h.guarded d hd v
  · exact fun _ => disabled

theorem consumer (h : s.Sound n input) (e : s.stepConsumer i = some s') : s'.Sound n input := by
  obtain ⟨c, found, e⟩ := Option.bind_eq_some_iff.1 e
  cases phase : c.phase with
  | loop =>
    simp only [phase] at e
    obtain rfl := Option.some.inj e
    apply h.setConsumer found
    · cases flag : c.isCancel <;> simp [Consumer.taken, ConsumerPhase.taken, phase]
    · cases flag : c.isCancel <;> simp [Consumer.made, ConsumerPhase.made, phase]
    · cases flag : c.isCancel <;> simp
  | disable =>
    simp only [phase] at e
    obtain rfl := Option.some.inj e
    apply h.setConsumer found
    · simp [Consumer.taken, ConsumerPhase.taken, Work.taken, phase]
    · simp [Consumer.made, ConsumerPhase.made, Work.made, phase]
    · exact fun _ _ => rfl
  | body w =>
    by_cases atEnd : w = .done
    · subst atEnd
      simp only [phase] at e
      obtain rfl := Option.some.inj e
      apply h.setConsumer found
      · simp [Consumer.taken, ConsumerPhase.taken, Work.taken, phase]
      · simp [Consumer.made, ConsumerPhase.made, Work.made, phase]
      · intro w eq
        cases eq
    · simp only [phase] at e
      obtain ⟨⟨source', target', w'⟩, stepped, eq⟩ := Option.map_eq_some_iff.1 e
      exact h.body found phase stepped eq
  | left =>
    simp only [phase, reduceCtorEq] at e
  | cancelled =>
    simp only [phase, reduceCtorEq] at e

theorem writer (h : s.Sound n input) (e : s.stepWriter = some s') : s'.Sound n input := by
  have writes := h.writes
  have toWrite := h.toWrite
  cases phase : s.writer.phase with
  | loop =>
    simp only [stepWriter, phase, Option.some.injEq] at e
    simp only [linesToWrite, phase] at writes
    have left := toWrite (by rw [phase]; nofun)
    subst e
    refine { h with complete := h.complete.entry (.nothing rfl rfl ?_ rfl), writes := ?_, toWrite := ?_ }
    · simp only [ledger, full, phase]
      split <;> rfl
    · by_cases last : s.writer.expectedLines = 0
      · simpa [linesToWrite, last] using writes
      · simpa [linesToWrite, last] using writes
    · by_cases last : s.writer.expectedLines = 0
      · simp [last]
      · intro _
        simp only
        omega
  | dequeue =>
    simp only [stepWriter, phase, Option.ite_none_left_eq_some, Option.some.injEq] at e
    simp only [linesToWrite, phase] at writes
    have left := toWrite (by rw [phase]; nofun)
    obtain ⟨filled, rfl⟩ := e
    obtain ⟨sound, front⟩ := h.outputQueue.dequeue filled
    refine { h with
      outputQueue := sound, complete := h.complete.entry (.nothing rfl rfl ?_ rfl), writes := writes, toWrite := fun _ => left }
    simp only [ledger, full, phase, front, WriterPhase.hand]
    abel
  | write p =>
    simp only [stepWriter, phase, Option.some.injEq] at e
    simp only [linesToWrite, phase] at writes
    have left := toWrite (by rw [phase]; nofun)
    subst e
    refine { h with complete := h.complete.entry (.nothing rfl rfl ?_ rfl), writes := ?_, toWrite := ?_ }
    · simp only [ledger, full, phase, WriterPhase.hand, ← Multiset.coe_add, Multiset.coe_singleton]
      abel
    · simp only [linesToWrite, List.length_append, List.length_singleton, Nat.cast_add, Nat.cast_one]
      omega
    · exact fun _ => left
  | finished =>
    simp only [stepWriter, phase, reduceCtorEq] at e

/-- A request never takes effect: at the cancellation points cancellation is disabled. -/
theorem cancellation (h : s.Sound n input) : s.cancellation i = none := by
  by_contra effect
  obtain ⟨s', e⟩ := Option.ne_none_iff_exists'.1 effect
  obtain ⟨c, found, e⟩ := Option.bind_eq_some_iff.1 e
  obtain ⟨⟨-, enabled, point⟩, -⟩ := Option.ite_none_right_eq_some.1 e
  cases phase : c.phase with
  | body w =>
    rw [h.guarded c (List.mem_of_getElem? found) w phase] at enabled
    contradiction
  | loop | disable | left | cancelled =>
    rw [phase] at point
    exact point

theorem controller (h : s.Sound n input) (k : Controller) : ({ s with controller := k } : Pipeline).Sound n input :=
  { h with }

theorem create (h : s.Sound n input) : s.create.Sound n input := by
  refine { h with guarded := ?_, complete := h.complete.entry (.nothing rfl ?_ ?_ rfl) }
  · intro c hc w phase
    rcases List.mem_append.1 hc with hc | hc
    · exact h.guarded c hc w phase
    · obtain rfl := List.mem_singleton.1 hc
      cases phase
  · simp [half, Pipeline.create, Consumer.new, Consumer.taken, ConsumerPhase.taken]
  · simp [full, Pipeline.create, Consumer.new, Consumer.made, ConsumerPhase.made]

theorem cancel (h : s.Sound n input) (e : s.cancel = some s') : s'.Sound n input := by
  obtain ⟨i, -, e⟩ := Option.bind_eq_some_iff.1 e
  obtain ⟨c, found, rfl⟩ := Option.map_eq_some_iff.1 e
  have flagged : (s.setConsumer i { c with isCancel := true }).Sound n input :=
    h.setConsumer found rfl rfl (h.guarded c (List.mem_of_getElem? found))
  exact flagged.controller _

theorem pthreadCancel (h : s.Sound n input) (e : s.pthreadCancel = some s') : s'.Sound n input := by
  obtain ⟨i, -, e⟩ := Option.bind_eq_some_iff.1 e
  obtain ⟨c, found, rfl⟩ := Option.map_eq_some_iff.1 e
  have requested : (s.setConsumer i { c with cancelRequested := true }).Sound n input :=
    h.setConsumer found rfl rfl (h.guarded c (List.mem_of_getElem? found))
  exact requested.controller _

theorem step (h : s.Sound n input) (t : s.step e = some s') : s'.Sound n input := by
  cases e with
  | reader => exact h.reader t
  | producer i => exact h.producer t
  | consumer i => exact h.consumer t
  | writer => exact h.writer t
  | cancellation i =>
    rw [Pipeline.step, h.cancellation] at t
    cases t
  | measure =>
    obtain rfl := Option.some.inj t
    exact h.controller _
  | create =>
    obtain ⟨-, t⟩ := Option.ite_none_right_eq_some.1 t
    obtain rfl := Option.some.inj t
    exact h.create
  | cancel =>
    obtain ⟨-, t⟩ := Option.ite_none_right_eq_some.1 t
    exact h.cancel t
  | pthreadCancel => exact h.pthreadCancel t
  | rest =>
    obtain rfl := Option.some.inj t
    exact h.controller _

theorem of_reach {allowed : Pipeline → Event → Prop} (h : Reach (pipeline n input) allowed s) : s.Sound n input := by
  refine h.invariant _ ?_ fun _ _ _ sound _ t => sound.step t
  rintro _ ⟨garbage, rfl⟩
  exact sound_initial n input garbage

end Sound

/-- The lines read are each in one place, as far transformed as the place says. When the writer
has finished, it has written the images of the first `n` lines. -/
structure Conserved (n : ℕ) (input : List Item) (s : Pipeline) : Prop where
  lines : (s.raw + s.half + s.full).map Piece.line = Multiset.range s.read
  raw : ∀ p ∈ s.raw, input[p.line]? = some p.item
  half : ∀ p ∈ s.half, input[p.line]?.bind producerTransform = some p.item
  full : ∀ p ∈ s.full, (input[p.line]?.bind producerTransform).bind consumerTransform = some p.item
  result : s.writer.phase = .finished → (s.written.map fun p => some p.item).Perm
    ((input.take n).map fun item => (producerTransform item).bind consumerTransform)

/-- **No item is lost, duplicated or half transformed**, wherever consumers are cancelled. -/
theorem conservation (bound : n ≤ input.length) (h : Reach (pipeline n input) (fun _ _ => True) s) :
    s.Conserved n input := by
  have sound := Sound.of_reach h
  refine ⟨sound.complete.lines, sound.complete.raw, sound.complete.half, sound.complete.full, ?_⟩
  intro finished
  have writes := sound.writes
  simp only [linesToWrite, finished] at writes
  have reads := sound.reads
  have toRead := sound.toRead
  have result := sound.complete.result (n := n) (by simp only [ledger_read]; omega) rfl
    (by rw [Multiset.coe_card]; omega) bound
  rw [Multiset.map_coe] at result
  exact Multiset.coe_eq_coe.1 result

/-- One item, with a consumer that is created for it and cancelled behind it. -/
theorem conservation_cancelled : ∃ s, Reach (pipeline 1 [⟨7, 5, 'A'⟩]) (fun _ _ => True) s ∧
    s.writer.phase = .finished ∧ s.consumers.map Consumer.phase = [.left] ∧ s.Conserved 1 [⟨7, 5, 'A'⟩] := by
  have start : Reach (pipeline 1 [⟨7, 5, 'A'⟩]) (fun _ _ => True) (initial 1 [⟨7, 5, 'A'⟩] fun _ => ⟨⟨0, 0, 'A'⟩, 0⟩) :=
    .init ⟨_, rfl⟩
  obtain ⟨s, reach, finished, left⟩ : ∃ s, Reach (pipeline 1 [⟨7, 5, 'A'⟩]) (fun _ _ => True) s ∧
      s.writer.phase = .finished ∧ s.consumers.map Consumer.phase = [.left] :=
    ⟨_, start.run step (fun _ _ _ t => t) [.reader, .reader, .producer 0, .producer 0, .producer 0, .producer 0, .create, .consumer 0, .consumer 0,
      .consumer 0, .consumer 0, .consumer 0, .cancel, .pthreadCancel, .consumer 0, .consumer 0, .consumer 0,
      .writer, .writer, .writer, .writer] rfl, rfl, rfl⟩
  exact ⟨s, reach, finished, left, conservation (by decide) reach⟩

end Pipeline

end Nachos.Pthreads
