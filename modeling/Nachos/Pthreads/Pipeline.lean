import Nachos.Base.Transition
import Nachos.Pthreads.TSQueue

/-!
# The thread pipeline

Reader, producers, consumers, the consumer controller and the writer, each as the loop of its
`process` function. A critical section of a queue is one step, and so is each piece of code
between two of them that looks at shared data: `get_size`, `is_cancel`, the cancelability
state. Items carry the number of the input line they stem from, which no step looks at.
-/

namespace Nachos.Pthreads
open Transition

/-- What a line of the input or output file says. -/
structure Item where
  key : ℤ
  val : UInt64
  opcode : Char
  deriving DecidableEq

structure TransformSpec where
  a : UInt64
  b : UInt64
  m : UInt64
  iterations : ℕ

/-- `Transformer::transform`. -/
@[irreducible] def TransformSpec.transform (spec : TransformSpec) (val : UInt64) : UInt64 :=
  (fun val => (val * spec.a + spec.b) % spec.m)^[spec.iterations] val

/-- The switch of `producer_transform`, whose default case is `assert(false)`. -/
def producerSpec : Char → Option TransformSpec
  | 'A' => some ⟨11, 1111, 1000000007, 10000000⟩
  | 'B' => some ⟨13, 1313, 1000000007, 10000000⟩
  | 'C' => some ⟨17, 1717, 1000000007, 10000000⟩
  | _ => none

/-- The switch of `consumer_transform`. -/
def consumerSpec : Char → Option TransformSpec
  | 'A' => some ⟨19, 1919, 1000000007, 10000000⟩
  | 'B' => some ⟨23, 2323, 1000000007, 10000000⟩
  | 'C' => some ⟨29, 2929, 1000000007, 10000000⟩
  | _ => none

/-- The item with its value transformed. Key and opcode are copied to a new item. -/
def Item.transformed (item : Item) (spec : Option TransformSpec) : Option Item :=
  spec.map fun spec => { item with val := spec.transform item.val }

def producerTransform (item : Item) : Option Item := item.transformed (producerSpec item.opcode)

def consumerTransform (item : Item) : Option Item := item.transformed (consumerSpec item.opcode)

/-- The transformations know the opcode. -/
def Item.WellFormed (item : Item) : Prop := item.opcode ∈ ['A', 'B', 'C']

theorem transformed_isSome {item : Item} (h : item.WellFormed) :
    (producerTransform item).isSome ∧ (consumerTransform item).isSome := by
  obtain ⟨key, val, opcode⟩ := item
  simp only [Item.WellFormed, List.mem_cons, List.not_mem_nil, or_false] at h
  rcases h with rfl | rfl | rfl
  · exact ⟨rfl, rfl⟩
  · exact ⟨rfl, rfl⟩
  · exact ⟨rfl, rfl⟩

theorem Item.WellFormed.transformed {item item' : Item} {spec : Option TransformSpec} (h : item.WellFormed)
    (t : item.transformed spec = some item') : item'.WellFormed := by
  obtain ⟨spec, -, rfl⟩ := Option.map_eq_some_iff.1 t
  exact h

/-- An item object. `line` is the input line it stems from. -/
structure Piece where
  item : Item
  line : ℕ
  deriving DecidableEq

def Piece.transformed (p : Piece) (transform : Item → Option Item) : Option Piece :=
  (transform p.item).map fun item => { p with item := item }

abbrev Queue := TSQueue Piece

/-- Where a producer or consumer is in the body of its loop. -/
inductive Work where
  | getSize
  | dequeue
  | transform (p : Piece)
  | enqueue (p : Piece)
  | done
  deriving DecidableEq

/-- The body of the loop, the same in `Producer::process` and `Consumer::process`. It is blocked
inside `dequeue` when the other threads have emptied the queue since `get_size`. -/
def Work.step (transform : Item → Option Item) (source target : Queue) : Work → Option (Queue × Queue × Work)
  | .getSize => some (source, target, if 0 < source.size then .dequeue else .done)
  | .dequeue => if source.size = 0 then none else some (source.dequeue, target, .transform source.front)
  | .transform p => (p.transformed transform).map fun p' => (source, target, .enqueue p')
  | .enqueue p => if target.size = target.bufferSize then none else some (source, target.enqueue p, .done)
  | .done => none

inductive ReaderPhase where
  | loop
  | enqueue (p : Piece)
  | finished
  deriving DecidableEq

structure Reader where
  expectedLines : ℤ
  phase : ReaderPhase

inductive WriterPhase where
  | loop
  | dequeue
  | write (p : Piece)
  | finished
  deriving DecidableEq

structure Writer where
  expectedLines : ℤ
  phase : WriterPhase

/-- Where a consumer is. It leaves its loop when it finds `is_cancel` set; `cancelled` is a
consumer that a cancellation request has ended at a cancellation point. -/
inductive ConsumerPhase where
  | loop
  | disable
  | body (w : Work)
  | left
  | cancelled
  deriving DecidableEq

/-- A consumer thread. The cancelability type is deferred, so that a request takes effect at
cancellation points only. -/
structure Consumer where
  isCancel : Bool
  cancelRequested : Bool
  cancelEnabled : Bool
  phase : ConsumerPhase

def Consumer.new : Consumer := ⟨false, false, true, .loop⟩

/-- The cancellation points of the loop are the `pthread_cond_wait` calls of the queues. -/
def ConsumerPhase.AtCancellationPoint : ConsumerPhase → Prop
  | .body .dequeue | .body (.enqueue _) => True
  | _ => False

/-- `consumers` is the vector of the controller, by thread numbers; `measured` is the size of the
worker queue that it has read in this period; `cancelling` is the consumer whose `is_cancel` it
has set and that it is about to cancel. -/
structure Controller where
  consumers : List ℕ
  measured : Option ℤ
  cancelling : Option ℕ

/-- The consumer threads are all that were ever created, in this order. -/
structure Pipeline where
  input : List Item
  read : ℕ
  reader : Reader
  inputQueue : Queue
  producers : List Work
  workerQueue : Queue
  controller : Controller
  consumers : List Consumer
  outputQueue : Queue
  writer : Writer
  written : List Piece

/-- The steps, by the thread that takes them and where it has a choice. -/
inductive Event where
  | reader
  | producer (i : ℕ)
  | consumer (i : ℕ)
  | writer
  | cancellation (i : ℕ)
  | measure
  | create
  | cancel
  | pthreadCancel
  | rest

namespace Pipeline

def stepReader (s : Pipeline) : Option Pipeline :=
  match s.reader.phase with
  | .loop =>
    if s.reader.expectedLines = 0 then
      some { s with reader := ⟨s.reader.expectedLines - 1, .finished⟩ }
    else
      s.input[s.read]?.map fun item =>
        { s with reader := ⟨s.reader.expectedLines - 1, .enqueue ⟨item, s.read⟩⟩, read := s.read + 1 }
  | .enqueue p =>
    if s.inputQueue.size = s.inputQueue.bufferSize then none
    else some { s with inputQueue := s.inputQueue.enqueue p, reader := ⟨s.reader.expectedLines, .loop⟩ }
  | .finished => none

def stepProducer (s : Pipeline) (i : ℕ) : Option Pipeline :=
  s.producers[i]?.bind fun w =>
    if w = .done then
      some { s with producers := s.producers.set i .getSize }
    else
      (w.step producerTransform s.inputQueue s.workerQueue).map fun r =>
        { s with inputQueue := r.1, workerQueue := r.2.1, producers := s.producers.set i r.2.2 }

@[simps] def setConsumer (s : Pipeline) (i : ℕ) (c : Consumer) : Pipeline := { s with consumers := s.consumers.set i c }

def stepConsumer (s : Pipeline) (i : ℕ) : Option Pipeline :=
  s.consumers[i]?.bind fun c =>
    match c.phase with
    | .loop => some (s.setConsumer i { c with phase := if c.isCancel then .left else .disable })
    | .disable => some (s.setConsumer i { c with cancelEnabled := false, phase := .body .getSize })
    | .body .done => some (s.setConsumer i { c with cancelEnabled := true, phase := .loop })
    | .body w =>
      (w.step consumerTransform s.workerQueue s.outputQueue).map fun r =>
        { s with workerQueue := r.1, outputQueue := r.2.1, consumers := s.consumers.set i { c with phase := .body r.2.2 } }
    | .left => none
    | .cancelled => none

def stepWriter (s : Pipeline) : Option Pipeline :=
  match s.writer.phase with
  | .loop =>
    some { s with writer := ⟨s.writer.expectedLines - 1, if s.writer.expectedLines = 0 then .finished else .dequeue⟩ }
  | .dequeue =>
    if s.outputQueue.size = 0 then none
    else some { s with outputQueue := s.outputQueue.dequeue, writer := ⟨s.writer.expectedLines, .write s.outputQueue.front⟩ }
  | .write p => some { s with written := s.written ++ [p], writer := ⟨s.writer.expectedLines, .loop⟩ }
  | .finished => none

instance (phase : ConsumerPhase) : Decidable phase.AtCancellationPoint :=
  match phase with
  | .body .dequeue => isTrue trivial
  | .body (.enqueue _) => isTrue trivial
  | .body .getSize => isFalse id
  | .body (.transform _) => isFalse id
  | .body .done => isFalse id
  | .loop => isFalse id
  | .disable => isFalse id
  | .left => isFalse id
  | .cancelled => isFalse id

/-- A pending request takes effect: the thread ends where it is. -/
def cancellation (s : Pipeline) (i : ℕ) : Option Pipeline :=
  s.consumers[i]?.bind fun c =>
    if c.cancelRequested ∧ c.cancelEnabled ∧ c.phase.AtCancellationPoint then
      some (s.setConsumer i { c with phase := .cancelled })
    else none

/-- The controller reads the size of the worker queue. -/
@[simps] def measure (s : Pipeline) : Pipeline :=
  { s with controller := { s.controller with measured := some s.workerQueue.size } }

@[simps] def create (s : Pipeline) : Pipeline :=
  { s with
    consumers := s.consumers ++ [.new]
    controller := { s.controller with consumers := s.controller.consumers ++ [s.consumers.length], measured := none } }

/-- `Consumer::cancel` of the last consumer, up to the flag. -/
def cancel (s : Pipeline) : Option Pipeline :=
  s.controller.consumers.getLast?.bind fun i => s.consumers[i]?.map fun c =>
    { s.setConsumer i { c with isCancel := true } with controller := { s.controller with cancelling := some i } }

/-- The rest of `Consumer::cancel`, and `pop_back`. -/
def pthreadCancel (s : Pipeline) : Option Pipeline :=
  s.controller.cancelling.bind fun i => s.consumers[i]?.map fun c =>
    { s.setConsumer i { c with cancelRequested := true } with controller := ⟨s.controller.consumers.dropLast, none, none⟩ }

/-- The period is over. -/
@[simps] def rest (s : Pipeline) : Pipeline := { s with controller := { s.controller with measured := none } }

/-- The controller creates and cancels consumers as it likes, one after the other. -/
def step (s : Pipeline) : Event → Option Pipeline
  | .reader => s.stepReader
  | .producer i => s.stepProducer i
  | .consumer i => s.stepConsumer i
  | .writer => s.stepWriter
  | .cancellation i => s.cancellation i
  | .measure => some s.measure
  | .create => if s.controller.cancelling = none then some s.create else none
  | .cancel => if s.controller.cancelling = none then s.cancel else none
  | .pthreadCancel => s.pthreadCancel
  | .rest => some s.rest

/-- `ConsumerController::process`, with its thresholds in percent of the queue's places. The size it
goes by can be out of date. -/
def Controlled (low high : ℤ) (s : Pipeline) : Event → Prop
  | .measure => s.controller.measured = none
  | .create => ∃ m, s.controller.measured = some m ∧ high * s.workerQueue.bufferSize < 100 * m
  | .cancel => ∃ m, s.controller.measured = some m ∧ 100 * m ≤ high * s.workerQueue.bufferSize ∧
      100 * m < low * s.workerQueue.bufferSize ∧ 1 < s.controller.consumers.length
  | .rest => s.controller.cancelling = none ∧ ∃ m, s.controller.measured = some m ∧ 100 * m ≤ high * s.workerQueue.bufferSize ∧
      ¬ (100 * m < low * s.workerQueue.bufferSize ∧ 1 < s.controller.consumers.length)
  | _ => True

/-- What `main` starts: no consumer, four producers, queues of 200, 200 and 4000 places. -/
def initial (n : ℕ) (input : List Item) (garbage : ℤ → Piece) : Pipeline where
  input := input
  read := 0
  reader := ⟨n, .loop⟩
  inputQueue := .new 200 garbage
  producers := [.getSize, .getSize, .getSize, .getSize]
  workerQueue := .new 200 garbage
  controller := ⟨[], none, none⟩
  consumers := []
  outputQueue := .new 4000 garbage
  writer := ⟨n, .loop⟩
  written := []

/-- A consumer after a change of one of them is that one, or stood there before. -/
theorem found_set {l : List Consumer} {i j : ℕ} {c c' d : Consumer} (found : l[i]? = some c) (found' : (l.set i c')[j]? = some d) :
    j = i ∧ d = c' ∨ j ≠ i ∧ l[j]? = some d := by
  by_cases eq : j = i
  · subst eq
    rw [List.getElem?_set_self (List.getElem?_eq_some_iff.1 found).1, Option.some.injEq] at found'
    exact .inl ⟨rfl, found'.symm⟩
  · rw [List.getElem?_set_ne (Ne.symm eq)] at found'
    exact .inr ⟨eq, found'⟩

end Pipeline

/-- The pipeline on `n` lines of a file. -/
def pipeline (n : ℕ) (input : List Item) : System Pipeline Event where
  init s := ∃ garbage, s = .initial n input garbage
  step s e s' := s.step e = some s'

end Nachos.Pthreads
