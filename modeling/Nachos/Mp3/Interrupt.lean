import Mathlib.Algebra.Group.Int.Defs
import Mathlib.Data.List.Range
import Nachos.Base.Queue
import Nachos.Base.Transition

/-!
# The interrupt queue

`machine/interrupt.cc`: `Schedule`, `OneTick`, `Idle`, `SetLevel` and the loop of `CheckIfDue`,
which calls handlers that may schedule further interrupts. The state keeps what was scheduled and
what was called beside the fields of the source. The `Yield` of `OneTick` and the assignment of
the old status behind it are later calls.
-/

namespace Nachos.Mp3

/-- Interrupts can be disabled or enabled. -/
inductive IntStatus where
  | intOff
  | intOn
  deriving DecidableEq, Repr

inductive MachineStatus where
  | idleMode
  | systemMode
  | userMode
  deriving DecidableEq, Repr

/-- The hardware device that generated an interrupt. -/
inductive IntType where
  | timerInt
  | diskInt
  | consoleWriteInt
  | consoleReadInt
  | networkSendInt
  | networkRecvInt
  deriving DecidableEq, Repr

/-- The address of an object with a `CallBack`. -/
abbrev CallBackObj := ℕ

/-- The objects of this class have their own addresses, which are counted. -/
structure PendingInterrupt where
  address : ℕ
  callOnInterrupt : CallBackObj
  when : ℤ
  type : IntType
  deriving DecidableEq, Repr

def pendingCompare (x y : PendingInterrupt) : ℤ :=
  if x.when < y.when then -1 else if y.when < x.when then 1 else 0

/-- The clocks of `machine/stats.h`. -/
structure Statistics where
  totalTicks : ℤ
  idleTicks : ℤ
  systemTicks : ℤ
  userTicks : ℤ
  deriving DecidableEq, Repr

def userTick : ℤ := 1

def systemTick : ℤ := 10

structure Interrupt where
  level : IntStatus
  pending : List PendingInterrupt
  inHandler : Bool
  yieldOnReturn : Bool
  status : MachineStatus
  deriving DecidableEq, Repr

/-- The interrupts and the clocks, with the objects that were scheduled and the calls of handlers, each with
the time at which it was made. -/
structure Interrupts extends Interrupt where
  stats : Statistics
  scheduled : List PendingInterrupt
  called : List (PendingInterrupt × ℤ)
  deriving DecidableEq, Repr

/-- What ends a run. -/
inductive Stop where
  | assertion
  /-- A sum does not fit in an `int`. -/
  | overflow
  /-- `Halt`. -/
  | halt
  | diverges
  deriving DecidableEq, Repr

/-- The value of an `int` expression. -/
def int (x : ℤ) : Except Stop ℤ := if -2 ^ 31 ≤ x ∧ x < 2 ^ 31 then pure x else throw .overflow

/-- What a handler does with the interrupts. -/
inductive HandlerCall where
  | schedule (toCall : CallBackObj) (fromNow : ℤ) (type : IntType)
  | yieldOnReturn
  | setLevel (now : IntStatus)
  deriving DecidableEq, Repr

/-- What the handlers do, which may depend on all that has happened. -/
abbrev Handlers := CallBackObj → Interrupts → List HandlerCall

namespace Interrupts

def initial : Interrupts where
  level := .intOff
  pending := []
  inHandler := false
  yieldOnReturn := false
  status := .systemMode
  stats := ⟨0, 0, 0, 0⟩
  scheduled := []
  called := []

def changeLevel (now : IntStatus) (s : Interrupts) : Interrupts := { s with level := now }

/-- The state behind `pending->Insert(toOccur)`. -/
def inserted (toOccur : PendingInterrupt) (s : Interrupts) : Interrupts :=
  { s with
    pending := s.pending.orderedInsert (fun x y => pendingCompare x y < 0) toOccur
    scheduled := s.scheduled ++ [toOccur] }

def schedule (toCall : CallBackObj) (fromNow : ℤ) (type : IntType) (s : Interrupts) : Except Stop Interrupts := do
  let time ← int (s.stats.totalTicks + fromNow)
  let toOccur : PendingInterrupt := ⟨s.scheduled.length, toCall, time, type⟩
  if fromNow ≤ 0 then throw .assertion
  -- the `ASSERT` of `Insert`
  else if toOccur.address ∈ s.pending.map PendingInterrupt.address then throw .assertion
  else pure (s.inserted toOccur)

/-- One call that a handler makes. -/
def handle (s : Interrupts) : HandlerCall → Except Stop Interrupts
  | .schedule toCall fromNow type => s.schedule toCall fromNow type
  | .yieldOnReturn => if s.inHandler then pure { s with yieldOnReturn := true } else throw .assertion
  -- interrupt handlers are prohibited from enabling interrupts
  | .setLevel .intOn => throw .assertion
  | .setLevel .intOff => pure (s.changeLevel .intOff)

/-- The body of the loop of `CheckIfDue`. -/
def callFront (handlers : Handlers) (s : Interrupts) : Except Stop Interrupts :=
  match s.pending with
  | [] => throw .assertion
  | next :: pending =>
    let s := { s with pending := pending, called := s.called ++ [(next, s.stats.totalTicks)] }
    (handlers next.callOnInterrupt s).foldlM handle s

/-- The condition of the loop. -/
def due (s : Interrupts) : Bool :=
  match s.pending with
  | [] => false
  | next :: _ => next.when ≤ s.stats.totalTicks

/-- The loop of `CheckIfDue`, for a number of rounds. -/
def callHandlers (handlers : Handlers) : ℕ → Interrupts → Except Stop Interrupts
  | 0, _ => throw .diverges
  | fuel + 1, s => do
    let s ← s.callFront handlers
    if s.due then callHandlers handlers fuel s else pure s

/-- The second half of `CheckIfDue`. An interrupt that is scheduled meanwhile is not due, so that the
interrupts that are pending bound the number of rounds. -/
def fire (handlers : Handlers) (s : Interrupts) : Except Stop (Bool × Interrupts) := do
  let s ← callHandlers handlers s.pending.length { s with inHandler := true }
  pure (true, { s with inHandler := false })

def checkIfDue (handlers : Handlers) (advanceClock : Bool) (s : Interrupts) : Except Stop (Bool × Interrupts) :=
  if s.level ≠ .intOff then throw .assertion else
  match s.pending with
  | [] => pure (false, s)
  | next :: _ =>
    if next.when > s.stats.totalTicks then
      if !advanceClock then pure (false, s)
      else do
        -- advance the clock to next interrupt
        let wait ← int (next.when - s.stats.totalTicks)
        let idleTicks ← int (s.stats.idleTicks + wait)
        fire handlers { s with stats := { s.stats with idleTicks := idleTicks, totalTicks := next.when } }
    else fire handlers s

/-- The first half of `OneTick`. -/
def advance (s : Interrupts) : Except Stop Interrupts :=
  if s.status = .systemMode then do
    let totalTicks ← int (s.stats.totalTicks + systemTick)
    let systemTicks ← int (s.stats.systemTicks + systemTick)
    pure { s with stats := { s.stats with totalTicks := totalTicks, systemTicks := systemTicks } }
  else do
    let totalTicks ← int (s.stats.totalTicks + userTick)
    let userTicks ← int (s.stats.userTicks + userTick)
    pure { s with stats := { s.stats with totalTicks := totalTicks, userTicks := userTicks } }

def oneTick (handlers : Handlers) (s : Interrupts) : Except Stop Interrupts := do
  let s ← s.advance
  let (_, s) ← (s.changeLevel .intOff).checkIfDue handlers false
  let s := s.changeLevel .intOn
  if s.yieldOnReturn then pure { s with yieldOnReturn := false, status := .systemMode } else pure s

def idle (handlers : Handlers) (s : Interrupts) : Except Stop Interrupts := do
  let (fired, s) ← ({ s with status := .idleMode } : Interrupts).checkIfDue handlers true
  if fired then pure { s with status := .systemMode } else throw .halt

def setLevel (handlers : Handlers) (now : IntStatus) (s : Interrupts) : Except Stop Interrupts :=
  if now = .intOn ∧ s.inHandler then throw .assertion
  else if now = .intOn ∧ s.level = .intOff then (s.changeLevel now).oneTick handlers
  else pure (s.changeLevel now)

/-- The calls from outside of the handlers. -/
inductive Call where
  | schedule (toCall : CallBackObj) (fromNow : ℤ) (type : IntType)
  | oneTick (handlers : Handlers)
  | idle (handlers : Handlers)
  | setLevel (handlers : Handlers) (now : IntStatus)
  | setStatus (st : MachineStatus)

def step (s : Interrupts) : Call → Except Stop Interrupts
  | .schedule toCall fromNow type => s.schedule toCall fromNow type
  | .oneTick handlers => s.oneTick handlers
  | .idle handlers => s.idle handlers
  | .setLevel handlers now => s.setLevel handlers now
  | .setStatus st => pure { s with status := st }

end Interrupts

/-- The calls that return, in any order. -/
def interrupts : Transition.System Interrupts Interrupts.Call where
  init s := s = .initial
  step s call s' := s.step call = .ok s'

end Nachos.Mp3
