import Nachos.Mp3.SynchListRuns

/-!
# What synchronized lists promise

The calls on all objects take effect in one order, as calls of `List`; what was appended to a list and
not removed is in it, in the order of the calls. A thread in a function can go on, or one of the
others there can, unless an `ASSERT` has failed or all of them are in `RemoveFront` of an empty list.
-/

namespace Nachos.Mp3.SynchList
open Transition
open Synch (Statement Ran)

variable {τ ι α : Type} [DecidableEq τ] [DecidableEq ι] [DecidableEq α]

/-! ## The order of the calls -/

/-- A call on the lists of all objects. -/
def Call.Step (xs : ι → List α) (c : Call ι α) (a : ListAnswer α) (xs' : ι → List α) : Prop :=
  c.onList.Step (fun _ => none) xs a xs'

/-- The item that a call has appended to the list of `b`, and the one that it has taken from there. -/
def appended (b : ι) : Call ι α × ListAnswer α → Option α
  | (.append b' item, _) => if b' = b then some item else none
  | _ => none

def taken (b : ι) : Call ι α × ListAnswer α → Option α
  | (.removeFront b', .item x) => if b' = b then some x else none
  | _ => none

section
variable {c : Call ι α} {a : ListAnswer α} {xs xs' : ι → List α} {ys : List α} {log : List (Call ι α × ListAnswer α)} {b : ι}

theorem step_of_does (does : c.does (xs c.object) = some (a, ys)) : c.Step xs a (Function.update xs c.object ys) := by
  cases c with
  | append b item =>
    simp only [Call.does, Option.ite_none_left_eq_some, Option.some.injEq, Prod.mk.injEq] at does
    obtain ⟨new, rfl, rfl⟩ := does
    exact if_neg new
  | removeFront b =>
    cases items : xs b with
    | nil => simp [Call.does, items] at does
    | cons x rest =>
      simp only [Call.does, Call.object, items, Option.some.injEq, Prod.mk.injEq] at does
      obtain ⟨rfl, rfl⟩ := does
      simp [Call.Step, ListCall.Step, Call.onList, ListCall.on, items]
  | apply b =>
    simp only [Call.does, Option.some.injEq, Prod.mk.injEq] at does
    obtain ⟨rfl, rfl⟩ := does
    simp [Call.Step, ListCall.Step, Call.onList, ListCall.on]

/-- **First in, first out**: what was appended was taken in this order, or is in the list. -/
theorem fifo (run : Trace Call.Step (fun _ _ => True) (fun _ => []) log xs) (b : ι) :
    log.filterMap (appended b) = log.filterMap (taken b) ++ xs b := by
  induction run with
  | nil => rfl
  | @snoc log xs xs' c a _ _ step ih =>
    rw [List.filterMap_append, List.filterMap_append, ih]
    cases c with
    | append b' item =>
      simp only [Call.Step, ListCall.Step, Call.onList, ListCall.on, Option.ite_none_left_eq_some, Option.some.injEq,
        Prod.mk.injEq] at step
      obtain ⟨-, -, rfl⟩ := step
      by_cases same : b' = b
      · subst same
        simp [appended, taken, appendItems]
      · simp [appended, taken, same, Ne.symm same]
    | removeFront b' =>
      cases items : xs b' with
      | nil => simp [Call.Step, ListCall.Step, Call.onList, ListCall.on, items] at step
      | cons x rest =>
        simp only [Call.Step, ListCall.Step, Call.onList, ListCall.on, items, Option.some.injEq, Prod.mk.injEq] at step
        obtain ⟨rfl, rfl⟩ := step
        by_cases same : b' = b
        · subst same
          simp [appended, taken, items]
        · simp [appended, taken, same, Ne.symm same]
    | apply b' =>
      simp only [Call.Step, ListCall.Step, Call.onList, ListCall.on, Option.some.injEq, Prod.mk.injEq] at step
      obtain ⟨-, rfl⟩ := step
      change (_ ++ xs b) ++ [] = (_ ++ []) ++ xs b
      rw [List.append_nil, List.append_nil]

end

/-- What a call will return. -/
def Stage.answer : Stage α → Option (ListAnswer α)
  | .signal a | .release a | .leave a => some a
  | .acquire | .list | .remove | .store _ _ => none

namespace State

variable {s s' : State τ ι α} {t u : τ} {b : ι} {c : Call ι α} {p : Stage α}

/-- The call of a thread that has taken effect and not returned. -/
def pending (s : State τ ι α) (t : τ) : List (Call ι α × ListAnswer α) :=
  match s.place t with
  | none => []
  | some (c, p) => p.answer.toList.map fun a => (c, a)

/-- The calls take effect in one order, and each thread gets what it is answered there. -/
structure Linear (s : State τ ι α) : Prop where
  order : Trace Call.Step (fun _ _ => True) (fun _ => []) (s.log.map Prod.snd) s.list
  answered : ∀ t, mine t s.log = s.results t ++ s.pending t

omit [DecidableEq τ] [DecidableEq ι] [DecidableEq α] in
theorem pending_some (place : s.place t = some (c, p)) : s.pending t = p.answer.toList.map fun a => (c, a) := by
  rw [pending, place]

omit [DecidableEq τ] [DecidableEq ι] [DecidableEq α] in
theorem pending_congr (place : s'.place u = s.place u) : s'.pending u = s.pending u := by
  rw [pending, pending, place]

namespace Linear

variable (h : s.Linear)

include h

/-- A step without an effect. -/
theorem quiet (log : s'.log = s.log) (list : s'.list = s.list) (results : s'.results = s.results)
    (pending : ∀ u, s'.pending u = s.pending u) : s'.Linear where
  order := by
    rw [log, list]
    exact h.order
  answered u := by
    rw [log, results, pending]
    exact h.answered u

/-- A thread that moves before its effect, or behind it. -/
theorem moved {q : Stage α} (log : s'.log = s.log) (list : s'.list = s.list) (results : s'.results = s.results)
    (place : s'.place = Function.update s.place t (some (c, q))) (same : s.pending t = q.answer.toList.map fun a => (c, a)) :
    s'.Linear := by
  refine h.quiet log list results fun u => ?_
  rcases eq_or_ne u t with rfl | ne
  · rw [same]
    exact pending_some (by rw [place, Function.update_self])
  · exact pending_congr (by rw [place, Function.update_of_ne ne])

theorem step (sound : s.Sound) (step : Stepped s s') : s'.Linear := by
  cases step with
  | call t c outside =>
    refine (h.moved rfl rfl rfl rfl ?_ : (s.goto t c .acquire).Linear)
    rw [pending, outside]
    rfl
  | synch place todo run ran => exact h.quiet rfl rfl rfl fun _ => rfl
  | @enter t c p q f place idle enters =>
    refine (h.moved rfl rfl rfl rfl ?_ : (s.enter t c q f).Linear)
    rw [pending_some place]
    cases enters <;> rfl
  | @test t b place idle some =>
    refine (h.moved rfl rfl rfl rfl ?_ : (s.goto t (.removeFront b) .remove).Linear)
    rw [pending_some place]
    rfl
  | @read t c p a xs place idle reads does =>
    refine (h.moved rfl rfl rfl rfl ?_ : (s.goto t c (.store xs a)).Linear)
    rw [pending_some place]
    rcases reads with rfl | rfl <;> rfl
  | @store t c a xs place idle =>
    constructor
    · rw [store_log, List.map_append]
      exact h.order.snoc trivial (step_of_does (sound.stores place).1)
    · intro u
      rw [store_log, store_results, mine_append, h.answered u]
      rcases eq_or_ne u t with rfl | ne
      · rw [mine_self, pending_some place, pending_some (c := c) (p := c.after a) (by simp)]
        cases c <;> simp [Stage.answer, Call.after]
      · have same : (s.store t c xs a).pending u = s.pending u := pending_congr (by simp [ne])
        rw [mine_of_ne ne.symm, List.append_nil, same]
  | @leave t c a place idle =>
    refine ⟨h.order, fun u => ?_⟩
    rw [leave_log, leave_results, h.answered u]
    rcases eq_or_ne u t with rfl | ne
    · rw [Function.update_self, pending_some place]
      simp [pending, Stage.answer]
    · have same : (s.leave t c a).pending u = s.pending u := pending_congr (by simp [ne])
      rw [Function.update_of_ne ne, same]

end Linear

/-- The call that each thread is in, and what it will return. -/
def calls (s : State τ ι α) (t : τ) : Option (Call ι α × Option (ListAnswer α)) := (s.place t).map fun r => (r.1, r.2.answer)

omit [DecidableEq ι] [DecidableEq α] in
theorem calls_update {c : Call ι α} {q : Stage α} (place : s'.place = Function.update s.place t (some (c, q))) :
    s'.calls = Function.update s.calls t (some (c, q.answer)) := by
  funext u
  rw [calls, place]
  obtain rfl | ne := eq_or_ne u t
  · rw [Function.update_self, Function.update_self]
    rfl
  · rw [Function.update_of_ne ne, Function.update_of_ne ne, calls]

theorem called (done : s.step (.call t c) = some s') :
    s.calls t = none ∧ s'.calls = Function.update s.calls t (some (c, none)) ∧ s'.list = s.list ∧ s'.log = s.log := by
  rw [step] at done
  cases outside : s.place t with
  | some r => simp [outside] at done
  | none =>
    rw [outside] at done
    obtain rfl := Option.some.inj done
    exact ⟨by rw [calls, outside]; rfl, calls_update (q := .acquire) rfl, rfl, rfl⟩

/-- A step of thread `t` as the callers see it. -/
inductive Turn (s : State τ ι α) (t : τ) (s' : State τ ι α) : Prop where
  | quiet (calls : s'.calls = s.calls) (list : s'.list = s.list) (log : s'.log = s.log)
  | stores {c : Call ι α} {xs : List α} {a : ListAnswer α} (call : s.calls t = some (c, none))
      (does : c.does (s.list c.object) = some (a, xs)) (calls : s'.calls = Function.update s.calls t (some (c, some a)))
      (list : s'.list = Function.update s.list c.object xs) (log : s'.log = s.log ++ [(t, c, a)])
  | leaves {c : Call ι α} {a : ListAnswer α} (call : s.calls t = some (c, some a))
      (calls : s'.calls = Function.update s.calls t none) (list : s'.list = s.list) (log : s'.log = s.log)

/-- One statement of a call changes a list. -/
theorem turn (sound : s.Sound) (done : s.step (.run t) = some s') : s.Turn t s' := by
  rw [step, run] at done
  cases place : s.place t with
  | none => simp [place] at done
  | some r =>
    obtain ⟨c, p⟩ := r
    have call : s.calls t = some (c, p.answer) := by
      rw [calls, place]
      rfl
    have quiet {q : Stage α} (place' : s'.place = Function.update s.place t (some (c, q))) (same : q.answer = p.answer)
        (list : s'.list = s.list) (log : s'.log = s.log) : s.Turn t s' :=
      .quiet (by rw [calls_update place', same, ← call, Function.update_eq_self]) list log
    simp only [place] at done
    cases todo : s.synch.todo t with
    | cons i rest =>
      simp only [todo] at done
      obtain ⟨synch, -, rfl⟩ := Option.map_eq_some_iff.1 done
      exact .quiet rfl rfl rfl
    | nil =>
      simp only [todo] at done
      have read (before : p.answer = none) (reads : s.read t c = some s') : s.Turn t s' := by
        obtain ⟨⟨a, xs⟩, -, rfl⟩ := Option.map_eq_some_iff.1 reads
        exact quiet (q := .store xs a) rfl before.symm rfl rfl
      cases p with
      | acquire | signal | release =>
        obtain rfl := Option.some.inj done
        exact quiet rfl rfl rfl rfl
      | remove => exact read rfl done
      | list =>
        cases c with
        | append | apply => exact read rfl done
        | removeFront b =>
          by_cases empty : s.list b = []
          · rw [next, if_pos empty] at done
            obtain rfl := Option.some.inj done
            exact quiet rfl rfl rfl rfl
          · rw [next, if_neg empty] at done
            obtain rfl := Option.some.inj done
            exact quiet rfl rfl rfl rfl
      | store xs a =>
        obtain rfl := Option.some.inj done
        refine .stores call (sound.stores place).1 ?_ rfl rfl
        rw [calls_update (q := c.after a) rfl]
        cases c <;> rfl
      | leave a =>
        obtain rfl := Option.some.inj done
        refine .leaves call (funext fun u => ?_) rfl rfl
        obtain rfl | ne := eq_or_ne u t
        · simp [calls]
        · simp [calls, ne]

/-! ## Progress -/

def Inside (s : State τ ι α) (b : ι) (t : τ) : Prop := ∃ c p, s.place t = some (c, p) ∧ c.object = b

/-- The thread can take a step. -/
def CanRun (s : State τ ι α) (t : τ) : Prop := (s.step (.run t)).isSome

/-- `List::Append` finds the item in the list. -/
def Fails (s : State τ ι α) (b : ι) (t : τ) : Prop := ∃ item, s.place t = some (.append b item, .list) ∧ item ∈ s.list b

/-- The thread is in `listEmpty->Wait(lock)`, and nobody has taken it from the queue. -/
def Waiting (s : State τ ι α) (b : ι) (t : τ) : Prop :=
  s.place t = some (.removeFront b, .list) ∧ ∃ n ∈ s.synch.waitQueue b, .P (.waiter n) ∈ s.synch.todo t

/-- The thread is about to use the list, or has read it and not stored yet. -/
def InList (s : State τ ι α) (b : ι) (t : τ) : Prop :=
  s.synch.todo t = [] ∧ ∃ c p, s.place t = some (c, p) ∧ c.object = b ∧ (p = .list ∨ p = .remove ∨ ∃ xs a, p = .store xs a)

theorem canRun_of_next (place : s.place t = some (c, p)) (idle : s.synch.todo t = []) (next : (s.next t c p).isSome) : s.CanRun t := by
  rw [CanRun, step, run, place]
  simpa only [idle] using next

theorem canRun_of_synch {i : Statement Empty ι ι} {rest : List (Statement Empty ι ι)} (place : s.place t = some (c, p))
    (todo : s.synch.todo t = i :: rest) (run : (s.synch.step (.run t)).isSome) : s.CanRun t := by
  rw [CanRun, step, State.run, place]
  simpa only [todo, Option.isSome_map, Synch.State.step] using run

omit [DecidableEq τ] [DecidableEq ι] [DecidableEq α] in
theorem Waiting.not_coming (h : s.Waiting b t) : ¬ s.Coming b t := by
  obtain ⟨place, n, queued, inside⟩ := h
  rw [coming_some place]
  intro comes
  exact (comes.2.2 n).2 inside queued

namespace Sound

variable (h : s.Sound)

include h

/-- What can hold a thread up. -/
theorem goes (place : s.place t = some (c, p)) : s.CanRun t ∨ s.Fails c.object t ∨ s.synch.At t (.P (.lock c.object)) ∨
    ∃ n rest, c = .removeFront c.object ∧ p = .list ∧ s.synch.todo t = .P (.waiter n) :: rest ∧ cond s.synch n = some c.object := by
  obtain ⟨holds, st, held⟩ := h.standing place
  generalize todo : s.synch.todo t = rest at st
  have exec (i : Statement Empty ι ι) (others : List (Statement Empty ι ι)) (eq : rest = i :: others)
      (goes : (s.synch.exec t others i).isSome) : s.CanRun t := by
    refine canRun_of_synch place (todo.trans eq) ?_
    rwa [Synch.State.step_run (todo.trans eq)]
  have asserts (others : List (Statement Empty ι ι)) (eq : rest = .assertHeld c.object :: others) (locked : holds = true) :
      s.CanRun t := by
    apply exec _ others eq
    have holder : s.synch.lockHolder c.object = some t := (h.sound.holder _ t).2 (by simp [held, locked, holding])
    simp [Synch.State.exec, holder]
  have next (eq : rest = []) (goes : (s.next t c p).isSome) : s.CanRun t := canRun_of_next place (todo.trans eq) goes
  cases st with
  | acquire c => exact .inr (.inr (.inl ⟨_, todo⟩))
  | asleep b n mine => exact .inr (.inr (.inr ⟨n, _, rfl, rfl, rfl, mine⟩))
  | list c =>
    cases c with
    | append b item =>
      by_cases there : item ∈ s.list b
      · exact .inr (.inl ⟨item, place, there⟩)
      · exact .inl (next rfl (by simp [State.next, read, Call.does, there]))
    | removeFront b => exact .inl (next rfl rfl)
    | apply b => exact .inl (next rfl rfl)
  | remove b some =>
    obtain ⟨x, rest, items⟩ := List.exists_cons_of_ne_nil some
    exact .inl (next rfl (by simp [State.next, read, Call.does] at items ⊢; simp [items]))
  | wait b | unlock b | signalled b | leaving c => exact .inl (asserts _ rfl rfl)
  | front b item a some =>
    obtain ⟨n, ns, front⟩ := List.exists_cons_of_ne_nil some
    refine .inl (exec _ _ rfl ?_)
    have front : s.synch.waitQueue b = n :: ns := front
    simp [Synch.State.exec, front]
  | entered | store | signal | release | left => exact .inl (next rfl rfl)
  | _ => exact .inl (exec _ _ rfl rfl)

/-- A thread with a statement of `synch.cc` before it is in a function. -/
theorem standing_at {i : Statement Empty ι ι} (next : s.synch.At t i) : ∃ c p h rest, s.place t = some (c, p) ∧
    s.synch.todo t = i :: rest ∧ Standing (s.list c.object) (s.synch.waitQueue c.object) (cond s.synch) c p h (i :: rest) := by
  obtain ⟨rest, todo⟩ := next
  cases place : s.place t with
  | none => cases ((stands_none place).1 (h.stands t)).1.symm.trans todo
  | some r =>
    obtain ⟨c, p⟩ := r
    obtain ⟨holds, st, -⟩ := h.standing place
    rw [todo] at st
    exact ⟨c, p, holds, rest, rfl, todo, st⟩

/-- A thread that has the permit of a lock is in a function of the object. -/
theorem inside (busy : s.synch.Busy b t) : s.Inside b t := by
  rcases busy with mem | set | signal
  · cases place : s.place t with
    | none =>
      rw [((stands_none place).1 (h.stands t)).2] at mem
      exact absurd mem (Finset.notMem_empty b)
    | some r =>
      obtain ⟨c, p⟩ := r
      obtain ⟨holds, -, held⟩ := h.standing place
      rw [held] at mem
      cases holds with
      | false => exact absurd mem (Finset.notMem_empty b)
      | true => exact ⟨c, p, place, (Finset.mem_singleton.1 mem).symm⟩
  · obtain ⟨c, p, holds, rest, place, -, st⟩ := h.standing_at set
    cases st
    exact ⟨c, _, place, rfl⟩
  · obtain ⟨c, p, holds, rest, place, -, st⟩ := h.standing_at signal
    cases st <;> exact ⟨_, _, place, rfl⟩

/-- A thread that has the lock is not held up. -/
theorem not_busy (next : s.synch.At t (.P (.lock b)) ∨ ∃ n rest, s.synch.todo t = .P (.waiter n) :: rest) : ¬ s.synch.Busy b t := by
  intro busy
  obtain ⟨c, p, place, rfl⟩ := h.inside busy
  obtain ⟨holds, st, held⟩ := h.standing place
  have first : ∃ x rest, s.synch.todo t = .P x :: rest := by
    rcases next with ⟨rest, todo⟩ | ⟨n, rest, todo⟩
    · exact ⟨_, rest, todo⟩
    · exact ⟨_, rest, todo⟩
  obtain ⟨x, rest, todo⟩ := first
  rcases busy with mem | ⟨others, set⟩ | ⟨others, signal⟩
  · rw [todo] at st
    cases st <;> simp [held, holding] at mem
  · cases set.symm.trans todo
  · cases signal.symm.trans todo

/-- **Who can go on**: a thread in a function of an object, unless an `ASSERT` has failed there or all its threads are
in `RemoveFront` of an empty list. -/
theorem progress (awaited : s.Awaited b) (inside : s.Inside b t) :
    (∃ u, s.Inside b u ∧ s.CanRun u) ∨ (∃ u, s.Fails b u) ∨ (s.list b = [] ∧ ∀ u, s.Inside b u → s.Waiting b u) := by
  by_cases goes : ∃ u, s.Inside b u ∧ s.CanRun u
  · exact .inl goes
  by_cases fails : ∃ u, s.Fails b u
  · exact .inr (.inl fails)
  right
  right
  have held_up (u : τ) (c : Call ι α) (p : Stage α) (place : s.place u = some (c, p)) (here : c.object = b) :
      s.synch.At u (.P (.lock b)) ∨
        ∃ n rest, c = .removeFront b ∧ p = .list ∧ s.synch.todo u = .P (.waiter n) :: rest ∧ cond s.synch n = some b := by
    subst here
    rcases h.goes place with runs | failed | up
    · exact absurd ⟨u, ⟨c, p, place, rfl⟩, runs⟩ goes
    · exact absurd ⟨u, failed⟩ fails
    · exact up
  have free (u : τ) : ¬ s.synch.Busy b u := by
    intro busy
    obtain ⟨c, p, place, here⟩ := h.inside busy
    refine h.not_busy ?_ busy
    rcases held_up u c p place here with lock | ⟨n, rest, -, -, todo, -⟩
    · exact .inl lock
    · exact .inr ⟨n, rest, todo⟩
  have no_lock (u : τ) : ¬ s.synch.At u (.P (.lock b)) := by
    intro comes
    obtain ⟨v, lock, runs⟩ := Synch.State.lets_in h.sound h.permits free comes
    obtain ⟨c, p, holds, rest, place, todo, st⟩ := h.standing_at lock
    refine goes ⟨v, ⟨c, p, place, ?_⟩, canRun_of_synch place todo runs⟩
    cases st
    rfl
  have waits (u : τ) (inside : s.Inside b u) : s.Waiting b u := by
    obtain ⟨c, p, place, here⟩ := inside
    obtain ⟨n, rest, rfl, rfl, todo, mine⟩ := (held_up u c p place here).resolve_left (no_lock u)
    refine ⟨place, n, ?_, by simp [todo]⟩
    obtain ⟨c', phase, call, queued | ⟨v, freeing⟩ | runs⟩ := Synch.State.held_up h.sound h.permits h.waits todo
    · obtain rfl : c' = b := by simpa [cond, call] using mine
      exact queued
    · obtain ⟨c, p, holds, rest, there, todo, st⟩ := h.standing_at freeing
      have runs : (s.synch.step (.run v)).isSome := by
        rw [Synch.State.step_run todo]
        rfl
      cases st with
      | free b' item a n mine' =>
        obtain rfl : b' = b := Option.some.inj (mine'.symm.trans mine)
        exact absurd ⟨v, ⟨_, _, there, rfl⟩, canRun_of_synch there todo runs⟩ goes
    · exact absurd ⟨u, ⟨_, _, place, rfl⟩, canRun_of_synch place todo runs⟩ goes
  refine ⟨?_, waits⟩
  obtain ⟨-, n, queued, -⟩ := waits t inside
  obtain ⟨coming, enough, comes⟩ := awaited (List.ne_nil_of_mem queued)
  have none : coming = ∅ := by
    rw [Finset.eq_empty_iff_forall_notMem]
    intro u mem
    have coming := comes u mem
    cases place : s.place u with
    | none =>
      rw [Coming, place] at coming
      exact coming
    | some r =>
      obtain ⟨c, p⟩ := r
      exact (waits u ⟨c, p, place, ((coming_some place).1 coming).object⟩).not_coming coming
  rw [none, Finset.card_empty] at enough
  exact List.length_eq_zero_iff.1 (Nat.le_zero.1 enough)

/-- Two threads are not in functions of one list. -/
theorem exclusive (first : s.InList b t) (second : s.InList b u) : t = u := by
  have holds (v : τ) (inside : s.InList b v) : b ∈ s.synch.held v := by
    obtain ⟨idle, c, p, place, rfl, at_list⟩ := inside
    obtain ⟨holds, st, held⟩ := h.standing place
    rw [idle] at st
    rw [held]
    cases st with
    | list | remove | store => exact Finset.mem_singleton_self _
    | _ => simp at at_list
  exact (h.sound.lockCorrect b).exclusive t u (holds t first) (holds u second)

end Sound

/-- What synchronized lists promise. -/
structure Correct (s : State τ ι α) : Prop where
  linear : s.Linear
  fifo : ∀ b, (s.log.map Prod.snd).filterMap (appended b) = (s.log.map Prod.snd).filterMap (taken b) ++ s.list b
  exclusive : ∀ b t u, s.InList b t → s.InList b u → t = u
  awaited : ∀ b, s.Awaited b
  progress : ∀ b t, s.Inside b t → (∃ u, s.Inside b u ∧ s.CanRun u) ∨ (∃ u, s.Fails b u) ∨
    (s.list b = [] ∧ ∀ u, s.Inside b u → s.Waiting b u)

end State

theorem State.runs_of_reach {s : State τ ι α} (reach : Reach (system τ ι α) (fun _ _ => True) s) : s.Linear ∧ ∀ b, s.Awaited b := by
  induction reach with
  | init start =>
    obtain rfl := start
    exact ⟨⟨.nil, fun t => rfl⟩, fun b => State.awaited_of_empty rfl⟩
  | step before _ done ih =>
    have earlier := State.Sound.of_reach before
    obtain ⟨linear, awaited⟩ := ih
    exact ⟨linear.step earlier (stepped done), fun b => earlier.step_awaited (awaited b) (stepped done)⟩

/-- **Synchronized lists under every interleaving.** The calls take effect one after the other, as calls of `List`, and
return what they are answered there; items come out as they went in; one thread at a time is in the
code of a list; no wake-up is lost, and only an empty list or a failed `ASSERT` holds all threads up. -/
theorem synchList_correct {s : State τ ι α} (reach : Reach (system τ ι α) (fun _ _ => True) s) : s.Correct := by
  have sound := State.Sound.of_reach reach
  have runs := State.runs_of_reach reach
  exact ⟨runs.1, fifo runs.1.order, fun b t u => sound.exclusive, runs.2, fun b t inside => sound.progress (runs.2 b) inside⟩

/-- One thread sleeps in `RemoveFront`, the other one appends an item and is done, and the first one gets it. -/
def waitForItem : List (Event Bool Unit ℕ) :=
  .call false (.removeFront ()) :: List.replicate 11 (.run false) ++ .call true (.append () 7) :: List.replicate 15 (.run true) ++
    List.replicate 11 (.run false)

theorem synchList_correct_waitForItem : ∃ s : State Bool Unit ℕ, waitForItem.foldlM State.step .initial = some s ∧
    s.results false = [(.removeFront (), .item 7)] ∧ s.results true = [(.append () 7, .done)] ∧ s.Correct := by
  have runs : (waitForItem.foldlM State.step .initial).isSome = true := by decide
  obtain ⟨s, done⟩ := Option.isSome_iff_exists.1 runs
  have results : (waitForItem.foldlM State.step .initial).map (fun s => (s.results false, s.results true)) =
      some ([(.removeFront (), .item 7)], [(.append () 7, .done)]) := rfl
  rw [done, Option.map_some, Option.some.injEq, Prod.mk.injEq] at results
  have reach : Reach (system Bool Unit ℕ) (fun _ _ => True) s :=
    (Reach.init rfl).run State.step (fun _ _ _ => id) waitForItem done
  exact ⟨s, done, results.1, results.2, synchList_correct reach⟩

end Nachos.Mp3.SynchList
