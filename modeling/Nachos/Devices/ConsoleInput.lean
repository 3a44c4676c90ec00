import Nachos.Base.Bytes
import Nachos.Devices.Guarded

/-!
# The keyboard

`ConsoleInput` of `machine/console.cc` under `SynchConsoleInput` of `userprog/synchconsole.cc`. The device polls the
input until it has a character, and polls again when that has been read. It has no flag for
"nothing there" besides the value `EOF` of `incoming`, which the byte 255 of the input has too.
-/

namespace Nachos.Devices
open Bytes Transition
open Nachos.Mp1 (Semaphore)

/-- `EOF` as a `char`. -/
def eof : Byte := 255

/-- `pending` counts the polls that are scheduled; `input` is what is still to be read. -/
structure ConsoleInput (τ : Type) where
  incoming : Byte
  pending : ℕ
  input : List Byte
  waitFor : Semaphore τ

inductive ConsolePlace where
  /-- In `waitFor->P()`. -/
  | wait
  /-- Before `consoleInput->GetChar()`. -/
  | getChar

variable {τ : Type}

namespace ConsoleInput

def initial (input : List Byte) : ConsoleInput τ := ⟨eof, 1, input, ⟨0, []⟩⟩

/-- `ConsoleInput::GetChar`. -/
def getChar (s : ConsoleInput τ) : ConsoleInput τ × Byte :=
  ({ s with incoming := eof, pending := if s.incoming ≠ eof then s.pending + 1 else s.pending }, s.incoming)

/-- `SynchConsoleInput::GetChar` between `Acquire` and `Release`. -/
def run [DecidableEq τ] (s : ConsoleInput τ) (t : τ) : ConsolePlace → Option (ConsoleInput τ × (ConsolePlace ⊕ Byte))
  | .wait => (P s.waitFor t).map fun r => ({ s with waitFor := r.1 }, .inl (if r.2 then .getChar else .wait))
  | .getChar => some (s.getChar.1, .inr s.getChar.2)

/-- `ConsoleInput::CallBack`; `available` is the answer of `PollFile`. None if the `ASSERT` fails. -/
def callBack (s : ConsoleInput τ) (available : Bool) : Option (ConsoleInput τ) :=
  if s.pending = 0 ∨ s.incoming ≠ eof then none
  else if !available then some s
  else
    match s.input with
    | [] => some { s with pending := s.pending - 1, waitFor := s.waitFor.V }
    | c :: input => some ⟨c, s.pending - 1, input, s.waitFor.V⟩

end ConsoleInput

def consoleInput (τ : Type) [DecidableEq τ] (input : List Byte) : Service τ Unit ConsolePlace Byte (ConsoleInput τ) Bool where
  start s := s = .initial input
  first _ := .wait
  run s t _ := s.run t
  environment := ConsoleInput.callBack

/-- What can be read: the input up to its end or to the first byte 255, which reads as the end. -/
def typed : List Byte → List Byte
  | [] => [eof]
  | c :: input => if c = eof then [eof] else c :: typed input

theorem typed_append (read rest : List Byte) (some : eof ∉ read) : typed (read ++ rest) = read ++ typed rest := by
  induction read with
  | nil => rfl
  | cons c read ih =>
    rw [List.mem_cons, not_or] at some
    rw [List.cons_append, typed, if_neg (Ne.symm some.1), ih some.2, List.cons_append]

theorem typed_ne_nil (input : List Byte) : typed input ≠ [] := by
  cases input with
  | nil => exact List.cons_ne_nil _ _
  | cons c input =>
    rw [typed]
    split <;> exact List.cons_ne_nil _ _

/-! ## The device by the thread inside -/

/-- Nothing is there: a thread inside waits for it. -/
inductive Calm (s : ConsoleInput τ) : Option (τ × Unit × ConsolePlace) → Prop where
  | nobody (empty : s.incoming = eof) (down : s.waitFor = ⟨0, []⟩) : Calm s none
  | waits {t : τ} (empty : s.incoming = eof) (down : Down s.waitFor t) : Calm s (some (t, (), .wait))

/-- A character, or the end, is there and has been signalled: a thread inside can take it. -/
inductive Signalled (s : ConsoleInput τ) : Option (τ × Unit × ConsolePlace) → Prop where
  | nobody (up : s.waitFor = ⟨1, []⟩) : Signalled s none
  | waits {t : τ} (up : s.waitFor = ⟨1, []⟩) : Signalled s (some (t, (), .wait))
  | passed {t : τ} (down : s.waitFor = ⟨0, []⟩) : Signalled s (some (t, (), .getChar))

/-- How far the input has come when `read` has been delivered: it is polled, or what comes next is
there, or the end has been delivered. -/
inductive Stage (input read : List Byte) (s : ConsoleInput τ) (inside : Option (τ × Unit × ConsolePlace)) : Prop where
  | polling (rest : input = read ++ s.input) (some : eof ∉ read) (pending : s.pending = 1) (calm : Calm s inside)
  | available (next : input = read ++ s.incoming :: s.input ∨ input = read ∧ s.incoming = eof) (some : eof ∉ read)
      (pending : s.pending = 0) (signalled : Signalled s inside)
  | ended (all : read = typed input) (pending : s.pending = 0) (calm : Calm s inside)

section steps

variable {input read : List Byte} {s s' : ConsoleInput τ} {t : τ} {inside : Option (τ × Unit × ConsolePlace)}

theorem Calm.enter (h : Calm s none) (t : τ) : Calm s (some (t, (), .wait)) := by
  cases h with
  | nobody empty down =>
    refine .waits empty ?_
    rw [down]
    exact ⟨rfl, .inl rfl⟩

theorem Stage.enter (h : Stage input read s none) (t : τ) : Stage input read s (some (t, (), .wait)) := by
  cases h with
  | polling rest some pending calm => exact .polling rest some pending (calm.enter t)
  | available next some pending signalled =>
    cases signalled with
    | nobody up => exact .available next some pending (.waits up)
  | ended all pending calm => exact .ended all pending (calm.enter t)

/-- The thread in `waitFor->P()` sleeps, or passes when something is there. -/
theorem Stage.wait [DecidableEq τ] (h : Stage input read s (some (t, (), .wait))) {waitFor : Semaphore τ} {passed : Bool}
    (done : P s.waitFor t = some (waitFor, passed)) :
    Stage input read { s with waitFor } (some (t, (), if passed then .getChar else .wait)) := by
  have calmed (calm : Calm s (some (t, (), .wait))) : passed = false ∧ Calm { s with waitFor } (some (t, (), .wait)) := by
    cases calm with
    | waits empty down =>
      obtain ⟨rfl, -, down'⟩ | ⟨-, up, -⟩ := P_cases done (.inl down)
      · exact ⟨rfl, .waits empty down'⟩
      · rw [up] at down
        cases down.1
  cases h with
  | polling rest some pending calm =>
    obtain ⟨rfl, calm'⟩ := calmed calm
    exact .polling rest some pending calm'
  | available next some pending signalled =>
    cases signalled with
    | waits up =>
      obtain ⟨-, down, -⟩ | ⟨rfl, -, taken⟩ := P_cases done (.inr up)
      · rw [up] at down
        cases down.1
      · exact .available next some pending (.passed taken)
  | ended all pending calm =>
    obtain ⟨rfl, calm'⟩ := calmed calm
    exact .ended all pending calm'

/-- `GetChar` takes what is there; nothing is polled behind the end. -/
theorem Stage.getChar (h : Stage input read s (some (t, (), .getChar))) :
    Stage input (read ++ [s.getChar.2]) s.getChar.1 none := by
  cases h with
  | polling _ _ _ calm => cases calm
  | ended _ _ calm => cases calm
  | available next some pending signalled =>
    cases signalled with
    | passed down =>
      have calm : Calm s.getChar.1 (none : Option (τ × Unit × ConsolePlace)) := .nobody rfl down
      by_cases last : s.incoming = eof
      · refine .ended ?_ ?_ calm
        · change read ++ [s.incoming] = typed input
          obtain rest | ⟨rfl, -⟩ := next
          · rw [rest, typed_append _ _ some, typed, if_pos last, last]
          · have whole := typed_append input [] some
            rw [List.append_nil] at whole
            rw [whole, last]
            rfl
        · change (if s.incoming ≠ eof then s.pending + 1 else s.pending) = 0
          rw [if_neg (not_not.2 last), pending]
      · refine .polling ?_ ?_ ?_ calm
        · obtain rest | ⟨-, empty⟩ := next
          · change input = (read ++ [s.incoming]) ++ s.input
            rw [rest, List.append_assoc]
            rfl
          · exact absurd empty last
        · change eof ∉ read ++ [s.incoming]
          rw [List.mem_append, List.mem_singleton, not_or]
          exact ⟨some, Ne.symm last⟩
        · change (if s.incoming ≠ eof then s.pending + 1 else s.pending) = 1
          rw [if_pos last, pending]

/-- A poll. -/
theorem Stage.callBack (h : Stage input read s inside) {available : Bool} (done : s.callBack available = some s') :
    Stage input read s' inside := by
  rw [ConsoleInput.callBack, Option.ite_none_left_eq_some, not_or] at done
  obtain ⟨⟨scheduled, -⟩, done⟩ := done
  cases h with
  | available _ _ pending _ => exact absurd pending scheduled
  | ended _ pending _ => exact absurd pending scheduled
  | polling rest some pending calm =>
    have raised (s' : ConsoleInput τ) (up : s'.waitFor = s.waitFor.V) : Signalled s' inside := by
      cases calm with
      | nobody empty down => exact .nobody (by rw [up, down]; rfl)
      | waits empty down => exact .waits (up.trans down.V)
    have idle : s.incoming = eof := by cases calm <;> assumption
    split at done
    · obtain rfl := Option.some.inj done
      exact .polling rest some pending calm
    · split at done
      · rename_i none
        obtain rfl := Option.some.inj done
        refine .available (.inr ⟨?_, idle⟩) some ?_ (raised _ rfl)
        · rw [rest, none, List.append_nil]
        · change s.pending - 1 = 0
          rw [pending]
      · rename_i c later here
        obtain rfl := Option.some.inj done
        refine .available (.inl ?_) some ?_ (raised _ rfl)
        · rw [rest, here]
        · change s.pending - 1 = 0
          rw [pending]

theorem Stage.of_reach [DecidableEq τ] {u : Serving τ Unit ConsolePlace Byte (ConsoleInput τ)}
    (reach : Reach (consoleInput τ input).alone (Service.Enters fun _ => True) u) : Stage input (u.served.map Prod.snd) u.state u.inside := by
  refine Service.invariant (fun u => Stage input (u.served.map Prod.snd) u.state u.inside) ?_ (fun u u' h next => ?_) reach
  · rintro _ rfl
    exact .polling rfl List.not_mem_nil rfl (.nobody rfl rfl)
  · cases next with
    | enter t c free _ =>
      rw [free] at h
      exact h.enter t
    | @go t c p q state inside run =>
      rw [inside] at h
      cases p with
      | wait =>
        obtain ⟨⟨waitFor, passed⟩, done, eq⟩ := Option.map_eq_some_iff.1 run
        cases eq
        exact h.wait done
      | getChar => cases run
    | @done t c p answer state inside run =>
      rw [inside] at h
      cases p with
      | wait =>
        obtain ⟨⟨waitFor, passed⟩, done, eq⟩ := Option.map_eq_some_iff.1 run
        cases eq
      | getChar =>
        cases run
        rw [List.map_append]
        exact h.getChar
    | environment e run => exact h.callBack run

end steps

section threads

variable [DecidableEq τ] {input : List Byte} {s : Guarded τ Unit ConsolePlace Byte (ConsoleInput τ)}

/-- **The keyboard delivers each character once, in order.** In every interleaving no assertion fails; what the calls get
is the input up to its end or its first byte 255; and when that has been delivered, and only then, nothing will
wake the next call. -/
theorem consoleInput_inOrder (reach : Reach (guarded (consoleInput τ input)) (fun _ _ => True) s) :
    (s.state.pending ≠ 0 → s.state.incoming = eof) ∧
      (∀ t c ch, s.place t = .release c ch → s.lockHolder = some t) ∧
      s.served.map Prod.snd <+: typed input ∧
      (s.served.map Prod.snd = typed input ↔
        s.state.pending = 0 ∧ s.state.waitFor.value = 0 ∧ ∀ t, s.place t ≠ .inside () .getChar) := by
  obtain ⟨u, alone, serves⟩ := Guarded.serves_of_reach reach
  have stage := Stage.of_reach alone
  have quiet (calm : Calm u.state u.inside) : u.state.incoming = eof ∧ u.state.waitFor.value = 0 ∧ ∀ t, s.place t ≠ .inside () .getChar := by
    have out (t : τ) (at_t : s.place t = .inside () .getChar) : False := by
      rw [serves.inside at_t] at calm
      cases calm
    generalize u.inside = at_u at calm
    cases calm with
    | nobody empty down => exact ⟨empty, by rw [down], out⟩
    | waits empty down => exact ⟨empty, down.1, out⟩
  have short (rest : List Byte) (some : eof ∉ u.served.map Prod.snd) (split : input = u.served.map Prod.snd ++ rest) :
      u.served.map Prod.snd <+: typed input ∧ u.served.map Prod.snd ≠ typed input := by
    rw [split, typed_append _ _ some]
    refine ⟨List.prefix_append _ _, fun all => typed_ne_nil rest ?_⟩
    exact List.append_right_eq_self.1 all.symm
  rw [serves.served, serves.state]
  refine ⟨?_, fun t c ch at_t => serves.holder at_t, ?_⟩
  · intro scheduled
    cases stage with
    | polling _ _ _ calm => exact (quiet calm).1
    | available _ _ pending _ => exact absurd pending scheduled
    | ended _ pending _ => exact absurd pending scheduled
  · cases stage with
    | polling rest some pending calm =>
      obtain ⟨begun, ne⟩ := short _ some rest
      refine ⟨begun, iff_of_false ne fun dead => ?_⟩
      rw [pending] at dead
      exact Nat.one_ne_zero dead.1
    | available next some pending signalled =>
      obtain ⟨begun, ne⟩ : u.served.map Prod.snd <+: typed input ∧ u.served.map Prod.snd ≠ typed input := by
        obtain rest | ⟨all, -⟩ := next
        · exact short _ some rest
        · exact short [] some (by rw [List.append_nil]; exact all)
      refine ⟨begun, iff_of_false ne fun dead => ?_⟩
      generalize inside : u.inside = at_u at signalled
      cases signalled with
      | nobody up | waits up =>
        rw [up] at dead
        cases dead.2.1
      | passed down => exact dead.2.2 _ (serves.place inside)
    | ended all pending calm => exact ⟨⟨[], by rw [List.append_nil, all]⟩, iff_of_true all ⟨pending, (quiet calm).2⟩⟩

/-- Two threads read a byte 255 in the middle of the input: what follows is not delivered any more. -/
def typing : List (GuardedEvent Bool Unit Bool) :=
  [.call true (), .run true, .run true, .run true, .environment true, .call false (), .run true, .run true, .run true, .run true,
    .environment false, .environment true, .run false, .run false, .run false, .run false]

theorem consoleInput_inOrder_typing : ∃ s : Guarded Bool Unit ConsolePlace Byte (ConsoleInput Bool),
    s.served.map Prod.snd = typed [97, 255, 98] ∧ s.state.pending = 0 ∧ s.state.input = [98] := by
  have start : Reach (guarded (consoleInput Bool [97, 255, 98])) (fun _ _ => True) ⟨.initial _, ⟨1, []⟩, none, fun _ => .outside, []⟩ :=
    .init ⟨rfl, rfl, rfl, fun _ => rfl, rfl⟩
  obtain ⟨s, reach, served, input⟩ : ∃ s, Reach (guarded (consoleInput Bool [97, 255, 98])) (fun _ _ => True) s ∧
      s.served.map Prod.snd = typed [97, 255, 98] ∧ s.state.input = [98] :=
    ⟨_, start.run (Guarded.step _) (fun _ _ _ next => next) typing rfl, rfl, rfl⟩
  exact ⟨s, served, ((consoleInput_inOrder reach).2.2.2.1 served).1, input⟩

end threads

end Nachos.Devices
