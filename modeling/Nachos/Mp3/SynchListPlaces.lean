import Nachos.Mp3.SynchList

/-!
# Where the callers of synchronized lists stand

The statements that a thread has before it tell where it is in its function, which lock it holds and
what it knows of the list: what it has found there stays so until it gives the lock back.
-/

namespace Nachos.Mp3.SynchList
open Transition
open Synch (Statement Ran waitOn)

variable {τ ι α : Type}

/-- Where a thread stands in the function `c`, whether it holds the lock, and its statements of `synch.cc`. The list
holds `xs`, the condition variable has `queue`, and a call of `Wait` is on the condition variable `cond n`. -/
inductive Standing [DecidableEq α] (xs : List α) (queue : List ℕ) (cond : ℕ → Option ι) :
    Call ι α → Stage α → Bool → List (Statement Empty ι ι) → Prop where
  | entered (c : Call ι α) : Standing xs queue cond c .acquire false []
  | acquire (c : Call ι α) : Standing xs queue cond c .list false [.P (.lock c.object), .setHolder c.object]
  | acquired (c : Call ι α) : Standing xs queue cond c .list false [.setHolder c.object]
  | list (c : Call ι α) : Standing xs queue cond c .list true []
  | wait (b : ι) (empty : xs = []) : Standing xs queue cond (.removeFront b) .list true [.assertHeld b, .newWaiter b b]
  | new (b : ι) (empty : xs = []) : Standing xs queue cond (.removeFront b) .list true [.newWaiter b b]
  | append (b : ι) (n : ℕ) (mine : cond n = some b) (empty : xs = []) :
      Standing xs queue cond (.removeFront b) .list true [.append b b n, .assertHeld b, .clearHolder b, .V (.lock b),
        .P (.waiter n), .P (.lock b), .setHolder b]
  | unlock (b : ι) (n : ℕ) (mine : cond n = some b) : Standing xs queue cond (.removeFront b) .list true
      [.assertHeld b, .clearHolder b, .V (.lock b), .P (.waiter n), .P (.lock b), .setHolder b]
  | clear (b : ι) (n : ℕ) (mine : cond n = some b) : Standing xs queue cond (.removeFront b) .list true
      [.clearHolder b, .V (.lock b), .P (.waiter n), .P (.lock b), .setHolder b]
  | unlocked (b : ι) (n : ℕ) (mine : cond n = some b) : Standing xs queue cond (.removeFront b) .list false
      [.V (.lock b), .P (.waiter n), .P (.lock b), .setHolder b]
  | asleep (b : ι) (n : ℕ) (mine : cond n = some b) : Standing xs queue cond (.removeFront b) .list false
      [.P (.waiter n), .P (.lock b), .setHolder b]
  | remove (b : ι) (some : xs ≠ []) : Standing xs queue cond (.removeFront b) .remove true []
  | store (c : Call ι α) (ys : List α) (a : ListAnswer α) (does : c.does xs = some (a, ys)) :
      Standing xs queue cond c (.store ys a) true []
  | signal (b : ι) (item : α) (a : ListAnswer α) : Standing xs queue cond (.append b item) (.signal a) true []
  | signalled (b : ι) (item : α) (a : ListAnswer α) :
      Standing xs queue cond (.append b item) (.release a) true [.assertHeld b, .isEmpty b b]
  | test (b : ι) (item : α) (a : ListAnswer α) : Standing xs queue cond (.append b item) (.release a) true [.isEmpty b b]
  | front (b : ι) (item : α) (a : ListAnswer α) (some : queue ≠ []) :
      Standing xs queue cond (.append b item) (.release a) true [.removeFront b b]
  | free (b : ι) (item : α) (a : ListAnswer α) (n : ℕ) (mine : cond n = some b) :
      Standing xs queue cond (.append b item) (.release a) true [.V (.waiter n)]
  | release (c : Call ι α) (a : ListAnswer α) : Standing xs queue cond c (.release a) true []
  | leaving (c : Call ι α) (a : ListAnswer α) :
      Standing xs queue cond c (.leave a) true [.assertHeld c.object, .clearHolder c.object, .V (.lock c.object)]
  | cleared (c : Call ι α) (a : ListAnswer α) :
      Standing xs queue cond c (.leave a) true [.clearHolder c.object, .V (.lock c.object)]
  | permit (c : Call ι α) (a : ListAnswer α) : Standing xs queue cond c (.leave a) false [.V (.lock c.object)]
  | left (c : Call ι α) (a : ListAnswer α) : Standing xs queue cond c (.leave a) false []

/-- The locks that a thread holds. -/
def holding [DecidableEq ι] (c : Call ι α) (h : Bool) : Finset ι := if h then {c.object} else ∅

/-- The condition variable of a call of `Wait`. -/
def cond (s : Synch.State τ Empty ι ι) (n : ℕ) : Option ι := (s.waits n).map Synch.Wait.cond

namespace Standing

variable [DecidableEq α] {xs ys : List α} {queue queue' : List ℕ} {wait wait' : ℕ → Option ι} {c : Call ι α} {p : Stage α} {h : Bool}
  {i : Statement Empty ι ι} {todo rest : List (Statement Empty ι ι)} {a : ListAnswer α} {b : ι}

/-- Without the lock a thread knows nothing of the list. -/
theorem away (st : Standing xs queue wait c p false todo) : Standing ys queue' wait c p false todo := by
  cases st with
  | entered => exact .entered c
  | acquire => exact .acquire c
  | acquired => exact .acquired c
  | unlocked b n mine => exact .unlocked b n mine
  | asleep b n mine => exact .asleep b n mine
  | permit c a => exact .permit c a
  | left c a => exact .left c a

theorem congr (st : Standing xs queue wait c p h todo) (same : ∀ n b, wait n = some b → wait' n = some b) :
    Standing xs queue wait' c p h todo := by
  cases st with
  | append b n mine empty => exact .append b n (same n b mine) empty
  | unlock b n mine => exact .unlock b n (same n b mine)
  | clear b n mine => exact .clear b n (same n b mine)
  | unlocked b n mine => exact .unlocked b n (same n b mine)
  | asleep b n mine => exact .asleep b n (same n b mine)
  | free b item a n mine => exact .free b item a n (same n b mine)
  | _ => constructor <;> assumption

/-- A thread in `Wait` is in `RemoveFront`, and goes through one call of `Wait` at a time. -/
theorem waiting {n : ℕ} (st : Standing xs queue wait c p h todo) (inside : .P (.waiter n) ∈ todo) :
    ∃ b, c = .removeFront b ∧ p = .list ∧ wait n = some b ∧ .newWaiter b b ∉ todo ∧
      (∀ m, .append b b m ∈ todo → m = n ∧ ∃ rest, todo = .append b b m :: rest) ∧ ∀ m, .P (.waiter m) ∈ todo → m = n := by
  cases st with
  | append b m mine | unlock b m mine | clear b m mine | unlocked b m mine | asleep b m mine =>
    obtain rfl : n = m := by simpa using inside
    exact ⟨b, rfl, rfl, mine, by simp, by simp, by simp⟩
  | _ => simp at inside

variable [DecidableEq τ] [DecidableEq ι] {s s' : Synch.State τ Empty ι ι} {t : τ}

/-- A statement of `synch.cc`. -/
theorem ran (st : Standing xs (s.waitQueue c.object) (cond s) c p h (i :: rest)) (waits : s.Waits) (ran : Ran s t rest i s')
    (todo : s.todo t = i :: rest) (held : s.held t = holding c h) :
    ∃ h', Standing xs (s'.waitQueue c.object) (cond s') c p h' (s'.todo t) ∧ s'.held t = holding c h' := by
  have kept (n : ℕ) (b : ι) (mine : cond s n = some b) : cond s' n = some b := Synch.State.cond_of_ran waits ran todo mine
  cases st with
  | acquire =>
    cases ran with
    | sleep x =>
      refine ⟨false, ?_, held⟩
      rw [Synch.State.setSemaphore_todo, todo]
      exact .acquire c
    | take x =>
      refine ⟨false, ?_, held⟩
      rw [Synch.State.setTodo_self]
      exact .acquired c
  | acquired =>
    cases ran
    refine ⟨true, ?_, ?_⟩
    · rw [Synch.State.setTodo_self]
      exact .list c
    · simp [held, holding]
  | wait b empty =>
    cases ran
    refine ⟨true, ?_, held⟩
    rw [Synch.State.setTodo_self]
    exact .new b empty
  | new b empty =>
    cases ran
    refine ⟨true, ?_, held⟩
    rw [Synch.State.setTodo_self]
    exact .append b s.next (by simp [cond]) empty
  | append b n mine empty =>
    cases ran
    refine ⟨true, ?_, held⟩
    rw [Synch.State.setTodo_self]
    exact .unlock b n (kept n b mine)
  | unlock b n mine =>
    cases ran
    refine ⟨true, ?_, held⟩
    rw [Synch.State.setTodo_self]
    exact .clear b n mine
  | clear b n mine =>
    cases ran
    refine ⟨false, ?_, ?_⟩
    · rw [Synch.State.setTodo_self]
      exact .unlocked b n mine
    · simp [held, holding, Call.object]
  | unlocked b n mine =>
    cases ran
    refine ⟨false, ?_, by simpa using held⟩
    rw [Synch.State.setTodo_self]
    exact .asleep b n mine
  | asleep b n mine =>
    cases ran with
    | sleep x =>
      refine ⟨false, ?_, held⟩
      rw [Synch.State.setSemaphore_todo, todo]
      exact .asleep b n mine
    | take x =>
      refine ⟨false, ?_, held⟩
      rw [Synch.State.setTodo_self]
      exact .acquire (.removeFront b)
  | signalled b item a =>
    cases ran
    refine ⟨true, ?_, held⟩
    rw [Synch.State.setTodo_self]
    exact .test b item a
  | test b item a =>
    cases ran with
    | noWaiter _ _ none =>
      refine ⟨true, ?_, held⟩
      rw [Synch.State.setTodo_self]
      exact .release (.append b item) a
    | someWaiter _ _ some =>
      refine ⟨true, ?_, held⟩
      rw [Synch.State.setTodo_self]
      exact .front b item a some
  | front b item a some =>
    cases ran with
    | removeFront _ _ n ns front =>
      refine ⟨true, ?_, held⟩
      rw [Synch.State.setTodo_self]
      obtain ⟨w, queued⟩ := waits.front front
      exact .free b item a n (kept n b (by simp [cond, queued]))
  | free b item a n mine =>
    cases ran
    refine ⟨true, ?_, by simpa using held⟩
    rw [Synch.State.setTodo_self]
    exact .release (.append b item) a
  | leaving c a =>
    cases ran
    refine ⟨true, ?_, held⟩
    rw [Synch.State.setTodo_self]
    exact .cleared c a
  | cleared c a =>
    cases ran
    refine ⟨false, ?_, ?_⟩
    · rw [Synch.State.setTodo_self]
      exact .permit c a
    · simp [held, holding]
  | permit c a =>
    cases ran
    refine ⟨false, ?_, by simpa using held⟩
    rw [Synch.State.setTodo_self]
    exact .left c a

omit [DecidableEq ι] in
/-- A function of `synch.cc` is called. -/
theorem enters {f : Synch.Call Empty ι ι} {q : Stage α} (st : Standing xs queue wait c p h []) (enters : Enters xs c p q f) :
    Standing xs queue wait c q h f.body := by
  cases enters with
  | acquire c =>
    cases st
    exact .acquire c
  | wait b empty =>
    cases st
    exact .wait b empty
  | signal c a =>
    cases st with
    | signal b item a => exact .signalled b item a
  | release c a =>
    cases st
    exact .leaving c a

omit [DecidableEq ι] in
theorem after (c : Call ι α) (a : ListAnswer α) : Standing xs queue wait c (c.after a) true [] := by
  cases c with
  | append b item => exact .signal b item a
  | removeFront b => exact .release (.removeFront b) a
  | apply b => exact .release (.apply b) a

end Standing

namespace State

variable [DecidableEq τ] [DecidableEq ι] [DecidableEq α] {s s' : State τ ι α} {t u : τ} {b : ι}

def Stands (s : State τ ι α) (t : τ) : Prop :=
  match s.place t with
  | none => s.synch.todo t = [] ∧ s.synch.held t = ∅
  | some (c, p) => ∃ h, Standing (s.list c.object) (s.synch.waitQueue c.object) (cond s.synch) c p h (s.synch.todo t) ∧
      s.synch.held t = holding c h

section
variable {c : Call ι α} {p : Stage α}

omit [DecidableEq τ] in
theorem stands_none (place : s.place t = none) : s.Stands t ↔ s.synch.todo t = [] ∧ s.synch.held t = ∅ := by
  rw [Stands, place]

omit [DecidableEq τ] in
theorem stands_some (place : s.place t = some (c, p)) : s.Stands t ↔
    ∃ h, Standing (s.list c.object) (s.synch.waitQueue c.object) (cond s.synch) c p h (s.synch.todo t) ∧
      s.synch.held t = holding c h := by
  rw [Stands, place]

end

omit [DecidableEq τ] in
/-- What the others leave alone. -/
theorem Stands.frame (st : s.Stands u) (place : s'.place u = s.place u) (todo : s'.synch.todo u = s.synch.todo u)
    (held : s'.synch.held u = s.synch.held u) (conds : ∀ n b, cond s.synch n = some b → cond s'.synch n = some b)
    (known : ∀ b ∈ s.synch.held u, s'.list b = s.list b ∧ s'.synch.waitQueue b = s.synch.waitQueue b) : s'.Stands u := by
  cases inside : s.place u with
  | none =>
    rw [stands_none inside] at st
    rw [stands_none (place.trans inside), todo, held]
    exact st
  | some r =>
    obtain ⟨c, p⟩ := r
    rw [stands_some inside] at st
    rw [stands_some (place.trans inside), todo, held]
    obtain ⟨h, st, holds⟩ := st
    refine ⟨h, ?_, holds⟩
    cases h with
    | false => exact (st.congr conds).away
    | true =>
      obtain ⟨list, queue⟩ := known c.object (by simp [holds, holding])
      rw [list, queue]
      exact st.congr conds

/-- Where everybody stands, beside what holds of any program with locks and condition variables. -/
structure Sound (s : State τ ι α) : Prop where
  sound : s.synch.Sound Empty.elim
  waits : s.synch.Waits
  uses : s.synch.Uses id
  permits : s.synch.Permits
  stands : ∀ t, s.Stands t

namespace Sound

variable (h : s.Sound)

include h

theorem standing {c : Call ι α} {p : Stage α} (place : s.place t = some (c, p)) :
    ∃ h, Standing (s.list c.object) (s.synch.waitQueue c.object) (cond s.synch) c p h (s.synch.todo t) ∧
      s.synch.held t = holding c h := (stands_some place).1 (h.stands t)

/-- Two threads do not hold one lock. -/
theorem alone (ne : u ≠ t) (held : b ∈ s.synch.held u) : b ∉ s.synch.held t := by
  intro also
  exact ne ((h.sound.lockCorrect b).exclusive u t held also)

/-- The thread that stores holds the lock. -/
theorem stores {c : Call ι α} {xs : List α} {a : ListAnswer α} (place : s.place t = some (c, .store xs a)) :
    c.does (s.list c.object) = some (a, xs) ∧ c.object ∈ s.synch.held t := by
  obtain ⟨h, st, held⟩ := h.standing place
  generalize s.synch.todo t = todo at st
  cases st with
  | store c xs a does => exact ⟨does, by simp [held, holding]⟩

theorem step_stands (step : Stepped s s') (u : τ) : s'.Stands u := by
  have st := h.stands u
  cases step with
  | call t c outside =>
    rcases eq_or_ne u t with rfl | ne
    · obtain ⟨todo, held⟩ := (stands_none outside).1 st
      rw [stands_some (c := c) (p := .acquire) (by simp)]
      refine ⟨false, ?_, held⟩
      rw [goto_synch, todo]
      exact .entered c
    · exact st.frame (by simp [ne]) rfl rfl (fun _ _ => id) fun _ _ => ⟨rfl, rfl⟩
  | @synch t c p i rest synch place todo run ran =>
    rcases eq_or_ne u t with rfl | ne
    · obtain ⟨holds, st, held⟩ := (stands_some place).1 st
      rw [todo] at st
      exact (stands_some (c := c) (p := p) (by exact place)).2 (st.ran h.waits ran todo held)
    · refine st.frame rfl (ran.todo_of_ne ne) (ran.held_of_ne ne) (fun n b => Synch.State.cond_of_ran h.waits ran todo) ?_
      intro b held
      exact ⟨rfl, Synch.State.waitQueue_of_ran h.sound h.uses ran todo (h.alone ne held)⟩
  | @enter t c p q f place idle enters =>
    rcases eq_or_ne u t with rfl | ne
    · obtain ⟨holds, st, held⟩ := (stands_some place).1 st
      rw [idle] at st
      rw [stands_some (c := c) (p := q) (by simp)]
      refine ⟨holds, ?_, held⟩
      rw [enter_synch, Synch.State.setTodo_self]
      exact st.enters enters
    · exact st.frame (by simp [ne]) (by simp [ne]) rfl (fun _ _ => id) fun _ _ => ⟨rfl, rfl⟩
  | @test t b place idle some =>
    rcases eq_or_ne u t with rfl | ne
    · obtain ⟨holds, st, held⟩ := (stands_some place).1 st
      rw [idle] at st
      rw [stands_some (c := .removeFront b) (p := .remove) (by simp)]
      cases st
      refine ⟨true, ?_, held⟩
      rw [goto_synch, idle]
      exact .remove b some
    · exact st.frame (by simp [ne]) rfl rfl (fun _ _ => id) fun _ _ => ⟨rfl, rfl⟩
  | @read t c p a xs place idle reads does =>
    rcases eq_or_ne u t with rfl | ne
    · obtain ⟨holds, st, held⟩ := (stands_some place).1 st
      rw [idle] at st
      rw [stands_some (c := c) (p := .store xs a) (by simp)]
      have locked : holds = true := by
        rcases reads with rfl | rfl <;> (cases st; rfl)
      subst locked
      refine ⟨true, ?_, held⟩
      rw [goto_synch, idle]
      exact .store c xs a does
    · exact st.frame (by simp [ne]) rfl rfl (fun _ _ => id) fun _ _ => ⟨rfl, rfl⟩
  | @store t c a xs place idle =>
    rcases eq_or_ne u t with rfl | ne
    · obtain ⟨holds, st, held⟩ := (stands_some place).1 st
      rw [idle] at st
      rw [stands_some (c := c) (p := c.after a) (by simp)]
      cases st
      refine ⟨true, ?_, held⟩
      rw [store_synch, idle]
      exact .after c a
    · refine st.frame (by simp [ne]) rfl rfl (fun _ _ => id) fun b held => ⟨?_, rfl⟩
      have other : b ≠ c.object := by
        rintro rfl
        exact h.alone ne held (h.stores place).2
      rw [store_list, Function.update_of_ne other]
  | @leave t c a place idle =>
    rcases eq_or_ne u t with rfl | ne
    · obtain ⟨holds, st, held⟩ := (stands_some place).1 st
      rw [idle] at st
      rw [stands_none (by simp)]
      cases st
      exact ⟨idle, held⟩
    · exact st.frame (by simp [ne]) rfl rfl (fun _ _ => id) fun _ _ => ⟨rfl, rfl⟩

end Sound

/-- The locks and condition variables of a run are those of a program that keeps the convention. -/
theorem reach_synch (reach : Reach (system τ ι α) (fun _ _ => True) s) : Reach (Synch.program Empty.elim) (Synch.SameLock id) s.synch := by
  have same (s : State τ ι α) (e : Event τ ι α) (s' : State τ ι α) (x : Synch.State τ Empty ι ι) (rel : s.synch = x)
      (_ : True) (done : s.step e = some s') : s'.synch = x ∨
        ∃ f x', Synch.SameLock id x f ∧ x.step f = some x' ∧ s'.synch = x' := by
    subst rel
    cases stepped done with
    | @synch t c p i rest synch place todo run => exact .inr ⟨.run t, synch, trivial, run, rfl⟩
    | @enter t c p q f place idle enters =>
      refine .inr ⟨.call t f, s.synch.setTodo t f.body, ?_, if_pos idle, rfl⟩
      cases enters <;> first | exact trivial | exact Eq.refl _
    | _ => exact .inl rfl
  have start (s : State τ ι α) (first : s = .initial) : ∃ x : Synch.State τ Empty ι ι, x = .initial Empty.elim ∧ s.synch = x := by
    subst first
    exact ⟨_, rfl, rfl⟩
  obtain ⟨x, reach, rfl⟩ := Reach.simulate (U := Synch.program Empty.elim) (fun s x => s.synch = x) start same reach
  exact reach

theorem Sound.of_reach (reach : Reach (system τ ι α) (fun _ _ => True) s) : s.Sound := by
  induction reach with
  | @init s first =>
    subst first
    exact ⟨Synch.State.sound_initial _, Synch.State.Waits.initial _, fun _ _ => nofun, Synch.State.permits_initial,
      fun t => (stands_none rfl).2 ⟨rfl, rfl⟩⟩
  | step before allowed done ih =>
    have synch := reach_synch (before.step allowed done)
    exact ⟨Synch.State.Sound.of_reach synch, Synch.State.Waits.of_reach synch, Synch.State.Uses.of_reach synch,
      Synch.State.Permits.of_reach synch, ih.step_stands (stepped done)⟩

end State

end Nachos.Mp3.SynchList
