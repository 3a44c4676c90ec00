import Mathlib.Algebra.Group.Int.Defs
import Mathlib.Algebra.Group.Nat.Defs
import Mathlib.Data.Int.Notation
import Mathlib.Data.List.GetD
import Mathlib.Data.List.TakeDrop
import Mathlib.Logic.Function.Basic
import Mathlib.Tactic.Simps.Basic
import Nachos.Base.Transition

/-!
# The synchronized console output

`userprog/synchconsole.cc` on the console device of `machine/console.cc` and the semaphore
and the lock of `threads/synch.cc`. Any number of threads call `PutChar` and `PutInt`. Code
between disabling and enabling interrupts is one step; everywhere else a thread can be
preempted, and the console-write interrupt can come, between any two statements.
-/

namespace Nachos.Mp1
open Transition

structure Semaphore (τ : Type) where
  value : ℤ
  queue : List τ

namespace Semaphore

variable {τ : Type}

/-- `P` on a value of 0: the thread goes to sleep. -/
@[simps] def sleep (s : Semaphore τ) (t : τ) : Semaphore τ := ⟨s.value, s.queue ++ [t]⟩

/-- `P` on another value. -/
@[simps] def take (s : Semaphore τ) : Semaphore τ := ⟨s.value - 1, s.queue⟩

/-- `V` wakes the first waiter, which tests the value again when it runs. -/
@[simps] def V (s : Semaphore τ) : Semaphore τ := ⟨s.value + 1, s.queue.tail⟩

end Semaphore

/-- A call of `SynchConsoleOutput`. -/
inductive Call where
  | putChar (ch : Char)
  | putInt (value : ℤ)
  deriving DecidableEq

namespace Call

/-- What the call is to write. -/
def text : Call → List Char
  | .putChar ch => [ch]
  | .putInt value => (toString value).toList ++ ['\n']

/-- What `sprintf` stores for the format `%d\n`: the text, and the byte that ends it. -/
def str (value : ℤ) : List Char := text (.putInt value) ++ ['\x00']

/-- The character given to the device. -/
def char : Call → ℕ → Char
  | .putChar ch, _ => ch
  | .putInt value, idx => (str value).getD idx '\x00'

/-- The test of the loop of `PutInt`. -/
def more : Call → ℕ → Bool
  | .putChar _, _ => false
  | .putInt value, idx => (str value).getD idx '\x00' ≠ '\x00'

end Call

/-- Where a thread stands. -/
inductive Place where
  | outside
  /-- In `semaphore->P()` of the lock. -/
  | acquire (c : Call)
  /-- Before `lockHolder = kernel->currentThread`. -/
  | acquired (c : Call)
  /-- Before the test of `putBusy` and the write to the device. -/
  | write (c : Call) (idx : ℕ)
  /-- Before `putBusy = TRUE`. -/
  | setBusy (c : Call) (idx : ℕ)
  /-- Before the interrupt is scheduled. -/
  | schedule (c : Call) (idx : ℕ)
  /-- In `waitFor->P()`. -/
  | wait (c : Call) (idx : ℕ)
  /-- Before the test of `lockHolder` in `Release`. -/
  | release (c : Call)
  /-- Before `semaphore->V()` of the lock. -/
  | signal (c : Call)
  deriving DecidableEq

/-- `pending` counts the console-write interrupts that are scheduled; `written` is what the
device has got; `calls` are the calls in the order in which they took the lock. -/
structure Console (τ : Type) where
  putBusy : Bool
  pending : ℕ
  written : List Char
  lock : Semaphore τ
  lockHolder : Option τ
  waitFor : Semaphore τ
  place : τ → Place
  calls : List Call

inductive Event (τ : Type) where
  | call (t : τ) (c : Call)
  | run (t : τ)
  | interrupt

namespace Console

variable {τ : Type} [DecidableEq τ]

def setPlace (s : Console τ) (t : τ) (p : Place) : Console τ := { s with place := Function.update s.place t p }

/-- The next step of a thread: none if it sleeps, or if an `ASSERT` fails. -/
def run (s : Console τ) (t : τ) : Option (Console τ) :=
  match s.place t with
  | .outside => none
  | .acquire c =>
    if t ∈ s.lock.queue then none
    else if s.lock.value = 0 then some { s with lock := s.lock.sleep t }
    else some { s.setPlace t (.acquired c) with lock := s.lock.take, calls := s.calls ++ [c] }
  | .acquired c => some { s.setPlace t (.write c 0) with lockHolder := some t }
  | .write c idx =>
    if s.putBusy then none
    else some { s.setPlace t (.setBusy c idx) with written := s.written ++ [c.char idx] }
  | .setBusy c idx => some { s.setPlace t (.schedule c idx) with putBusy := true }
  | .schedule c idx => some { s.setPlace t (.wait c (idx + 1)) with pending := s.pending + 1 }
  | .wait c idx =>
    if t ∈ s.waitFor.queue then none
    else if s.waitFor.value = 0 then some { s with waitFor := s.waitFor.sleep t }
    else some { s.setPlace t (if c.more idx then .write c idx else .release c) with waitFor := s.waitFor.take }
  | .release c => if s.lockHolder = some t then some { s.setPlace t (.signal c) with lockHolder := none } else none
  | .signal _ => some { s.setPlace t .outside with lock := s.lock.V }

/-- `ConsoleOutput::CallBack` and, from there, `SynchConsoleOutput::CallBack`. -/
def callBack (s : Console τ) : Option (Console τ) :=
  if s.pending = 0 then none
  else some { s with pending := s.pending - 1, putBusy := false, waitFor := s.waitFor.V }

def step (s : Console τ) : Event τ → Option (Console τ)
  | .call t c => if s.place t = .outside then some (s.setPlace t (.acquire c)) else none
  | .run t => s.run t
  | .interrupt => s.callBack

def initial : Console τ where
  putBusy := false
  pending := 0
  written := []
  lock := ⟨1, []⟩
  lockHolder := none
  waitFor := ⟨0, []⟩
  place _ := .outside
  calls := []

end Console

/-- The interleavings of the threads `τ`. -/
def console (τ : Type) [DecidableEq τ] : System (Console τ) (Event τ) where
  init s := s = .initial
  step s e s' := s.step e = some s'

namespace Call

variable {c : Call} {idx : ℕ} {value : ℤ}

/-- A decimal text has no zero byte. -/
theorem digit_ne (n : ℕ) : ∀ d ∈ n.repr.toList, d ≠ '\x00' := by
  intro d hd
  rw [Nat.toList_repr] at hd
  have digit := Nat.isDigit_of_mem_toDigits (by decide) (by decide) hd
  rintro rfl
  revert digit
  decide

theorem text_putInt_ne (value : ℤ) : ∀ d ∈ text (.putInt value), d ≠ '\x00' := by
  have decimal : ∀ d ∈ (toString value).toList, d ≠ '\x00' := by
    cases value with
    | ofNat n => exact digit_ne n
    | negSucc n =>
      intro d hd
      change d ∈ ("-" ++ Nat.repr (n + 1)).toList at hd
      rw [String.toList_append, List.mem_append] at hd
      rcases hd with sign | digits
      · obtain rfl := List.mem_singleton.1 sign
        decide
      · exact digit_ne (n + 1) d digits
  intro d hd
  rcases List.mem_append.1 hd with hd | hd
  · exact decimal d hd
  · obtain rfl := List.mem_singleton.1 hd
    decide

theorem text_ne_nil (c : Call) : c.text ≠ [] := by
  cases c with
  | putChar ch => exact List.cons_ne_nil _ _
  | putInt value => simp [text]

/-- The characters given to the device are those of the text. -/
theorem char_eq (inside : idx < c.text.length) : c.text.take (idx + 1) = c.text.take idx ++ [c.char idx] := by
  rw [List.take_succ_eq_append_getElem inside]
  congr 2
  cases c with
  | putChar ch =>
    have first : idx = 0 := by simpa [text] using inside
    subst first
    rfl
  | putInt value =>
    rw [char, str, List.getD_append _ _ _ _ inside, List.getD_eq_getElem _ _ inside]

/-- The loop ends behind the last character. -/
theorem more_iff (some : 0 < idx) (inside : idx ≤ c.text.length) : c.more idx = true ↔ idx < c.text.length := by
  cases c with
  | putChar ch =>
    have last : ¬ idx < (text (.putChar ch)).length := by simpa [text] using Nat.ne_of_gt some
    simp [more, last]
  | putInt value =>
    rcases Nat.lt_or_eq_of_le inside with less | last
    · have here : (text (.putInt value))[idx] ≠ '\x00' := text_putInt_ne value _ (List.getElem_mem less)
      rw [more, str, List.getD_append _ _ _ _ less, List.getD_eq_getElem _ _ less, decide_eq_true_iff]
      exact iff_of_true here less
    · simp [more, str, last]

end Call

end Nachos.Mp1
