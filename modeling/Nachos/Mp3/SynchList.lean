import Nachos.Base.Interleaving
import Nachos.Base.Service
import Nachos.Mp3.ListClients
import Nachos.Mp3.Permits

/-!
# Synchronized lists

`threads/synchlist.cc`: a list, a lock and a condition variable. Any number of threads call the functions
of any `SynchList` objects, and a thread can be preempted between any two statements: of the functions, of
`synch.cc`, and also between reading a list and storing what becomes of it.
-/

namespace Nachos.Mp3.SynchList
open Transition
open Synch (Statement Ran)

/-- The functions of the object `b`. -/
inductive Call (ι α : Type) where
  | append (b : ι) (item : α)
  | removeFront (b : ι)
  | apply (b : ι)
  deriving DecidableEq

/-- The statement before which a thread stands when it is in no function of `synch.cc`. -/
inductive Stage (α : Type) where
  /-- `lock->Acquire()`. -/
  | acquire
  /-- `list->Append(item)`, `list->Apply(func)`, or the test of the loop in `RemoveFront`. -/
  | list
  /-- `item = list->RemoveFront()`. -/
  | remove
  /-- In a function of `list`: it has read the list, will leave the items `xs`, and return. -/
  | store (xs : List α) (answer : ListAnswer α)
  /-- `listEmpty->Signal(lock)`. -/
  | signal (answer : ListAnswer α)
  /-- `lock->Release()`. -/
  | release (answer : ListAnswer α)
  /-- The end of the function. -/
  | leave (answer : ListAnswer α)

/-- `synch` are the locks and the condition variables `listEmpty`, by object. `log` are the changes of the
lists in their order; `results` is what the calls of a thread have returned. -/
structure State (τ ι α : Type) where
  synch : Synch.State τ Empty ι ι
  list : ι → List α
  place : τ → Option (Call ι α × Stage α)
  log : List (τ × Call ι α × ListAnswer α)
  results : τ → List (Call ι α × ListAnswer α)

inductive Event (τ ι α : Type) where
  | call (t : τ) (c : Call ι α)
  | run (t : τ)

variable {τ ι α : Type}

namespace Call

def object : Call ι α → ι
  | .append b _ | .removeFront b | .apply b => b

section
variable (b : ι) (item : α)

@[simp] theorem object_append : (append b item).object = b := rfl
@[simp] theorem object_removeFront : (removeFront b : Call ι α).object = b := rfl
@[simp] theorem object_apply : (apply b : Call ι α).object = b := rfl

end

/-- The function of `list`. -/
def onList : Call ι α → ListCall ι α
  | .append b item => .append b item
  | .removeFront b => .removeFront b
  | .apply b => .apply b

/-- What the function of `list` returns, and the items it leaves; `none` is a failed `ASSERT`. -/
def does [DecidableEq α] (xs : List α) : Call ι α → Option (ListAnswer α × List α)
  | .append _ item => if item ∈ xs then none else some (.done, xs ++ [item])
  | .removeFront _ =>
    match xs with
    | [] => none
    | x :: rest => some (.item x, rest)
  | .apply _ => some (.items xs, xs)

/-- The statement behind the function of `list`. -/
def after (answer : ListAnswer α) : Call ι α → Stage α
  | .append _ _ => .signal answer
  | .removeFront _ | .apply _ => .release answer

end Call

namespace State

def initial : State τ ι α where
  synch := .initial Empty.elim
  list _ := []
  place _ := none
  log := []
  results _ := []

variable [DecidableEq τ]

@[simps] def goto (s : State τ ι α) (t : τ) (c : Call ι α) (p : Stage α) : State τ ι α :=
  { s with place := Function.update s.place t (some (c, p)) }

/-- A function of `synch.cc` is called; the thread will stand at `p` when it has returned. -/
@[simps] def enter (s : State τ ι α) (t : τ) (c : Call ι α) (p : Stage α) (f : Synch.Call Empty ι ι) : State τ ι α :=
  { s with synch := s.synch.setTodo t f.body, place := Function.update s.place t (some (c, p)) }

@[simps] def store [DecidableEq ι] (s : State τ ι α) (t : τ) (c : Call ι α) (xs : List α) (a : ListAnswer α) : State τ ι α :=
  { s with
    list := Function.update s.list c.object xs
    place := Function.update s.place t (some (c, c.after a))
    log := s.log ++ [(t, c, a)] }

@[simps] def leave (s : State τ ι α) (t : τ) (c : Call ι α) (a : ListAnswer α) : State τ ι α :=
  { s with
    place := Function.update s.place t none
    results := Function.update s.results t (s.results t ++ [(c, a)]) }

/-- The list is read by its function. -/
def read [DecidableEq α] (s : State τ ι α) (t : τ) (c : Call ι α) : Option (State τ ι α) :=
  (c.does (s.list c.object)).map fun r => s.goto t c (.store r.2 r.1)

variable [DecidableEq ι] [DecidableEq α]

/-- The statements of `Append`, `RemoveFront` and `Apply`. -/
def next (s : State τ ι α) (t : τ) (c : Call ι α) : Stage α → Option (State τ ι α)
  | .acquire => some (s.enter t c .list (.acquire c.object))
  | .list =>
    match c with
    | .append _ _ | .apply _ => s.read t c
    | .removeFront b => some (if s.list b = [] then s.enter t c .list (.wait b b) else s.goto t c .remove)
  | .remove => s.read t c
  | .store xs a => some (s.store t c xs a)
  | .signal a => some (s.enter t c (.release a) (.signal c.object c.object))
  | .release a => some (s.enter t c (.leave a) (.release c.object))
  | .leave a => some (s.leave t c a)

/-- The next step of a thread: none if it sleeps, or if an `ASSERT` fails. -/
def run (s : State τ ι α) (t : τ) : Option (State τ ι α) :=
  match s.place t with
  | none => none
  | some (c, p) =>
    match s.synch.todo t with
    | [] => s.next t c p
    | _ :: _ => (s.synch.run t).map fun synch => { s with synch }

def step (s : State τ ι α) : Event τ ι α → Option (State τ ι α)
  | .call t c =>
    match s.place t with
    | none => some (s.goto t c .acquire)
    | some _ => none
  | .run t => s.run t

end State

/-- The interleavings of the threads `τ` on the objects `ι`. -/
def system (τ ι α : Type) [DecidableEq τ] [DecidableEq ι] [DecidableEq α] : System (State τ ι α) (Event τ ι α) where
  init s := s = .initial
  step s e s' := s.step e = some s'

/-! ## What a step can do -/

/-- The calls of functions of `synch.cc`, where the list holds `xs`. -/
inductive Enters (xs : List α) : Call ι α → Stage α → Stage α → Synch.Call Empty ι ι → Prop where
  | acquire (c : Call ι α) : Enters xs c .acquire .list (.acquire c.object)
  | wait (b : ι) (empty : xs = []) : Enters xs (.removeFront b) .list .list (.wait b b)
  | signal (c : Call ι α) (a : ListAnswer α) : Enters xs c (.signal a) (.release a) (.signal c.object c.object)
  | release (c : Call ι α) (a : ListAnswer α) : Enters xs c (.release a) (.leave a) (.release c.object)

section
variable [DecidableEq τ] [DecidableEq ι] [DecidableEq α] {s s' : State τ ι α} {t u : τ} {c : Call ι α} {p q : Stage α}
  {a : ListAnswer α} {xs : List α} {b : ι}

/-- The ways a step goes. -/
inductive Stepped (s : State τ ι α) : State τ ι α → Prop where
  | call (t : τ) (c : Call ι α) (outside : s.place t = none) : Stepped s (s.goto t c .acquire)
  | synch {t : τ} {c : Call ι α} {p : Stage α} {i : Statement Empty ι ι} {rest : List (Statement Empty ι ι)}
      {synch : Synch.State τ Empty ι ι} (place : s.place t = some (c, p)) (todo : s.synch.todo t = i :: rest)
      (run : s.synch.step (.run t) = some synch) (ran : Ran s.synch t rest i synch) : Stepped s { s with synch }
  | enter {t : τ} {c : Call ι α} {p q : Stage α} {f : Synch.Call Empty ι ι} (place : s.place t = some (c, p))
      (idle : s.synch.todo t = []) (enters : Enters (s.list c.object) c p q f) : Stepped s (s.enter t c q f)
  | test {t : τ} {b : ι} (place : s.place t = some (.removeFront b, .list)) (idle : s.synch.todo t = [])
      (some : s.list b ≠ []) : Stepped s (s.goto t (.removeFront b) .remove)
  | read {t : τ} {c : Call ι α} {p : Stage α} {a : ListAnswer α} {xs : List α} (place : s.place t = some (c, p))
      (idle : s.synch.todo t = []) (reads : p = .remove ∨ p = .list) (does : c.does (s.list c.object) = some (a, xs)) :
      Stepped s (s.goto t c (.store xs a))
  | store {t : τ} {c : Call ι α} {a : ListAnswer α} {xs : List α} (place : s.place t = some (c, .store xs a))
      (idle : s.synch.todo t = []) : Stepped s (s.store t c xs a)
  | leave {t : τ} {c : Call ι α} {a : ListAnswer α} (place : s.place t = some (c, .leave a))
      (idle : s.synch.todo t = []) : Stepped s (s.leave t c a)

theorem stepped_next (place : s.place t = some (c, p)) (idle : s.synch.todo t = []) (done : s.next t c p = some s') :
    Stepped s s' := by
  have read (reads : p = .remove ∨ p = .list) (done : s.read t c = some s') : Stepped s s' := by
    obtain ⟨⟨a, xs⟩, does, rfl⟩ := Option.map_eq_some_iff.1 done
    exact .read place idle reads does
  cases p with
  | acquire =>
    cases done
    exact .enter place idle (.acquire c)
  | list =>
    cases c with
    | append b item => exact read (.inr rfl) done
    | apply b => exact read (.inr rfl) done
    | removeFront b =>
      rw [State.next, Option.some.injEq] at done
      subst done
      split_ifs with empty
      · exact .enter place idle (.wait b empty)
      · exact .test place idle empty
  | remove => exact read (.inl rfl) done
  | store xs a =>
    cases done
    exact .store place idle
  | signal a =>
    cases done
    exact .enter place idle (.signal c a)
  | release a =>
    cases done
    exact .enter place idle (.release c a)
  | leave a =>
    cases done
    exact .leave place idle

theorem stepped {e : Event τ ι α} (done : s.step e = some s') : Stepped s s' := by
  cases e with
  | call t c =>
    rw [State.step] at done
    cases outside : s.place t with
    | none =>
      rw [outside] at done
      cases done
      exact .call t c outside
    | some r => simp [outside] at done
  | run t =>
    rw [State.step, State.run] at done
    cases place : s.place t with
    | none => simp [place] at done
    | some r =>
      obtain ⟨c, p⟩ := r
      simp only [place] at done
      cases todo : s.synch.todo t with
      | nil =>
        simp only [todo] at done
        exact stepped_next place todo done
      | cons i rest =>
        simp only [todo] at done
        obtain ⟨synch, run, rfl⟩ := Option.map_eq_some_iff.1 done
        refine .synch place todo run (Synch.ran_of_exec ?_)
        rwa [Synch.State.run, todo] at run

end

end Nachos.Mp3.SynchList
