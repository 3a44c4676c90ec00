import Nachos.Mp3.Exclusion

/-!
# Condition variables under any interleaving

A call of `Wait` is made, queued, removed by a thread in `Signal` and freed by the `V` of that
thread, in this order. The private semaphore remembers the `V`, so that a thread that has
released the lock and not reached `P` yet does not miss it. Between its test and `RemoveFront`
a `Signal` finds the queue unchanged if all calls on a condition variable come with the same lock.
-/

namespace Nachos.Mp3.Synch
open Transition

variable {τ σ κ γ : Type} {s s' : State τ σ κ γ} {t u : τ} {i j : Statement σ κ γ} {rest : List (Statement σ κ γ)}

/-! ## The private semaphores -/

theorem waiter_notMem_body (f : Call σ κ γ) (n : ℕ) : .P (.waiter n) ∉ f.body := by
  cases f <;> simp [Call.body, acquire, release, wait, signal]

namespace Ran
variable [DecidableEq τ] [DecidableEq σ] [DecidableEq κ] [DecidableEq γ]
variable (ran : Ran s t rest i s') (todo : s.todo t = i :: rest) {n : ℕ}

include ran todo

/-- Only `Wait` brings a `P` of a private semaphore. -/
theorem mem_todo (mem : .P (.waiter n) ∈ s'.todo t) :
    .P (.waiter n) ∈ s.todo t ∨ (n = s.next ∧ ∃ c l, i = .newWaiter c l) := by
  cases ran with
  | newWaiter c l =>
    simp [waitOn, release, acquire] at mem
    rcases mem with eq | mem
    · exact .inr ⟨eq, c, l, rfl⟩
    · left
      simp [todo, mem]
  | sleep x => exact .inl mem
  | _ =>
    left
    simp [signal] at mem
    simp [todo, mem]

/-- A `P` is either still to come, or was completed. -/
theorem count_eq (old : n ≠ s.next) :
    (s'.todo t).count (.P (.waiter n)) + (s'.semaphore (.waiter n)).passed =
      (s.todo t).count (.P (.waiter n)) + (s.semaphore (.waiter n)).passed := by
  rw [todo]
  cases ran with
  | sleep x =>
    by_cases eq : x = .waiter n
    · simp [eq, todo]
    · simp [Ne.symm eq, todo]
  | take x =>
    by_cases eq : x = .waiter n
    · simp [eq]
      omega
    · simp [eq, Ne.symm eq]
  | V x =>
    by_cases eq : x = .waiter n
    · simp [eq]
    · simp [Ne.symm eq]
  | newWaiter c l => simp [waitOn, release, acquire, Ne.symm old]
  | _ => simp [signal]

end Ran

namespace State

/-- `V` was called on the semaphore of a call of `Wait`. -/
def Freed (s : State τ σ κ γ) (n : ℕ) : Prop := ∃ w, s.waits n = some w ∧ w.phase = .freed

/-- The way of a call of `Wait`, when thread `t` executes a statement. -/
inductive Advances (s s' : State τ σ κ γ) (t : τ) (n : ℕ) : Statement σ κ γ → Prop where
  | same (i : Statement σ κ γ) (eq : s'.waits n = s.waits n) (ne : i ≠ .V (.waiter n)) : Advances s s' t n i
  | made (c : γ) (l : κ) (next : n = s.next) (old : s.waits n = none) (new : s'.waits n = some ⟨t, c, .made⟩) :
    Advances s s' t n (.newWaiter c l)
  | queued (c : γ) (l : κ) (old : s.waits n = some ⟨t, c, .made⟩) (new : s'.waits n = some ⟨t, c, .queued⟩) :
    Advances s s' t n (.append c l n)
  | removed (w : τ) (c : γ) (l : κ) (old : s.waits n = some ⟨w, c, .queued⟩)
    (new : s'.waits n = some ⟨w, c, .removed t⟩) : Advances s s' t n (.removeFront c l)
  | freed (w : τ) (c : γ) (old : s.waits n = some ⟨w, c, .removed t⟩) (new : s'.waits n = some ⟨w, c, .freed⟩) :
    Advances s s' t n (.V (.waiter n))

namespace Advances
variable {n : ℕ} {w : Wait τ γ}

/-- A call of `Wait` stays with its thread. -/
theorem thread_eq (a : Advances s s' t n i) (old : s.waits n = some w) :
    ∃ w', s'.waits n = some w' ∧ w'.thread = w.thread := by
  cases a with
  | same _ eq => exact ⟨w, eq.trans old, rfl⟩
  | made c l _ none => cases none.symm.trans old
  | queued c l before new | removed w c l before new | freed w c before new =>
    cases before.symm.trans old
    exact ⟨_, new, rfl⟩

theorem freed_iff (a : Advances s s' t n i) : s'.Freed n ↔ s.Freed n ∨ i = .V (.waiter n) := by
  cases a with
  | same _ eq ne => simp [Freed, eq, ne]
  | made c l _ old new | queued c l old new | removed w c l old new => simp [Freed, old, new]
  | freed w c old new => simp [Freed, new]

theorem not_freed (a : Advances s s' t n (.V (.waiter n))) : ¬ s.Freed n := by
  cases a with
  | same _ _ ne => exact absurd rfl ne
  | freed w c old => simp [Freed, old]

end Advances

variable [DecidableEq σ] [DecidableEq κ] [DecidableEq γ]

/-- The calls of `Wait` in every interleaving. -/
structure Waits (s : State τ σ κ γ) : Prop where
  fresh : ∀ n, s.next ≤ n → s.waits n = none
  waiting : ∀ n t, .P (.waiter n) ∈ s.todo t → ∃ w, s.waits n = some w ∧ w.thread = t
  once : ∀ n w, s.waits n = some w → (s.todo w.thread).count (.P (.waiter n)) + (s.semaphore (.waiter n)).passed = 1
  appending : ∀ t c l n, s.At t (.append c l n) → s.waits n = some ⟨t, c, .made⟩
  queued : ∀ c n, n ∈ s.waitQueue c ↔ ∃ t, s.waits n = some ⟨t, c, .queued⟩
  nodup : ∀ c, (s.waitQueue c).Nodup
  freeing : ∀ t n, s.At t (.V (.waiter n)) → ∃ w c, s.waits n = some ⟨w, c, .removed t⟩
  raised : ∀ n, (s.Freed n → (s.semaphore (.waiter n)).raised = 1) ∧
    (¬ s.Freed n → (s.semaphore (.waiter n)).raised = 0)

namespace Waits

theorem initial (user : σ → ℕ) : (State.initial user : State τ σ κ γ).Waits where
  fresh _ _ := rfl
  waiting _ _ := nofun
  once _ _ := nofun
  appending _ _ _ _ := nofun
  queued _ _ := by simp [State.initial]
  nodup _ := List.nodup_nil
  freeing _ _ := nofun
  raised _ := ⟨nofun, fun _ => rfl⟩

/-- The front of a queue is a call that waits. -/
theorem front {c : γ} {n : ℕ} {ns : List ℕ} (h : s.Waits) (front : s.waitQueue c = n :: ns) :
    ∃ t, s.waits n = some ⟨t, c, .queued⟩ := by
  rw [← h.queued c n, front]
  exact List.mem_cons_self

variable [DecidableEq τ]

/-- No thread passes the private semaphore before it is freed. -/
theorem passed_eq_zero {user : σ → ℕ} {n : ℕ} (h : s.Waits) (sound : s.Sound user) (blocked : ¬ s.Freed n) :
    (s.semaphore (.waiter n)).passed = 0 := by
  have balance := (sound.semaphores (.waiter n)).balance
  have nonneg := (sound.semaphores (.waiter n)).nonneg
  rw [(h.raised n).2 blocked, SemaphorePtr.initialValue] at balance
  omega

theorem called (h : s.Waits) (idle : s.todo t = []) (f : Call σ κ γ) : (s.setTodo t f.body).Waits where
  fresh := h.fresh
  waiting n u mem := by
    rcases eq_or_ne u t with rfl | ne
    · rw [setTodo_self] at mem
      exact absurd mem (waiter_notMem_body f n)
    · rw [setTodo_of_ne ne] at mem
      exact h.waiting n u mem
  once n w waits := by
    have once := h.once n w waits
    rcases eq_or_ne w.thread t with rfl | ne
    · rw [idle] at once
      rw [setTodo_self, List.count_eq_zero.2 (waiter_notMem_body f n)]
      exact once
    · rwa [setTodo_of_ne ne]
  appending u c l n next := by
    rcases eq_or_ne u t with rfl | ne
    · obtain ⟨others, next⟩ := next
      rw [setTodo_self] at next
      cases f <;> cases next
    · exact h.appending u c l n ((at_congr (setTodo_of_ne ne)).1 next)
  queued := h.queued
  nodup := h.nodup
  freeing u n next := by
    rcases eq_or_ne u t with rfl | ne
    · obtain ⟨others, next⟩ := next
      rw [setTodo_self] at next
      cases f <;> cases next
    · exact h.freeing u n ((at_congr (setTodo_of_ne ne)).1 next)
  raised := h.raised

section
variable (h : s.Waits) (ran : Ran s t rest i s') (todo : s.todo t = i :: rest)

include h ran todo

theorem advances (n : ℕ) : Advances s s' t n i := by
  have here : s.At t i := ⟨rest, todo⟩
  cases ran with
  | V x =>
    cases x with
    | waiter m =>
      rcases eq_or_ne n m with rfl | ne
      · obtain ⟨w, c, old⟩ := h.freeing t n here
        exact .freed w c old (by simp [free, old])
      · refine .same _ (by simp [free, ne]) ?_
        rintro ⟨⟩
        exact ne rfl
    | user x => exact .same _ rfl nofun
    | lock l => exact .same _ rfl nofun
  | newWaiter c l =>
    rcases eq_or_ne n s.next with rfl | ne
    · exact .made c l rfl (h.fresh s.next le_rfl) (by simp)
    · exact .same _ (by simp [ne]) nofun
  | append c l m =>
    rcases eq_or_ne n m with rfl | ne
    · have old := h.appending t c l n here
      exact .queued c l old (by simp [old])
    · exact .same _ (by simp [ne]) nofun
  | removeFront c l m ms front =>
    rcases eq_or_ne n m with rfl | ne
    · obtain ⟨w, old⟩ := h.front front
      exact .removed w c l old (by simp [old])
    · exact .same _ (by simp [ne]) nofun
  | _ => exact .same _ rfl nofun

theorem ran_fresh (n : ℕ) (le : s'.next ≤ n) : s'.waits n = none := by
  have more : s.next ≤ s'.next := by
    cases ran <;> simp
  have old := h.fresh n (more.trans le)
  cases h.advances ran todo n with
  | same _ eq => exact eq.trans old
  | made c l next =>
    cases ran
    rw [setTodo_next, newWait_next] at le
    omega
  | queued c l before | removed w c l before | freed w c before => cases before.symm.trans old

theorem ran_waiting (n : ℕ) (u : τ) (mem : .P (.waiter n) ∈ s'.todo u) : ∃ w, s'.waits n = some w ∧ w.thread = u := by
  have kept (old : .P (.waiter n) ∈ s.todo u) : ∃ w, s'.waits n = some w ∧ w.thread = u := by
    obtain ⟨w, waits, rfl⟩ := h.waiting n u old
    exact (h.advances ran todo n).thread_eq waits
  rcases eq_or_ne u t with rfl | ne
  · rcases ran.mem_todo todo mem with old | ⟨rfl, c, l, rfl⟩
    · exact kept old
    · cases ran
      exact ⟨⟨u, c, .made⟩, by simp, rfl⟩
  · rw [ran.todo_of_ne ne] at mem
    exact kept mem

theorem ran_queued (c : γ) (n : ℕ) : n ∈ s'.waitQueue c ↔ ∃ w, s'.waits n = some ⟨w, c, .queued⟩ := by
  have old := h.queued c n
  have here : s.At t i := ⟨rest, todo⟩
  cases ran with
  | append d l m =>
    have made := h.appending t d l m here
    rcases eq_or_ne n m with rfl | ne
    · rcases eq_or_ne c d with rfl | other
      · simp [made]
      · simp [other, Ne.symm other, old, made]
    · rcases eq_or_ne c d with rfl | other
      · simp [ne, old]
      · simp [ne, other, old]
  | removeFront d l m ms front =>
    obtain ⟨w, queued⟩ := h.front front
    have nodup := h.nodup d
    rw [front, List.nodup_cons] at nodup
    rcases eq_or_ne n m with rfl | ne
    · rcases eq_or_ne c d with rfl | other
      · simp [queued, nodup.1]
      · simp [other, Ne.symm other, old, queued]
    · rcases eq_or_ne c d with rfl | other
      · simp [ne, ← old, front]
      · simp [ne, other, old]
  | V x =>
    cases x with
    | waiter m =>
      obtain ⟨w, d, removed⟩ := h.freeing t m here
      rcases eq_or_ne n m with rfl | ne
      · simp [free, old, removed]
      · simp [free, ne, old]
    | user x => exact old
    | lock l => exact old
  | newWaiter d l =>
    rcases eq_or_ne n s.next with rfl | ne
    · simp [old, h.fresh s.next le_rfl]
    · simp [ne, old]
  | _ => exact old

theorem ran_nodup (c : γ) : (s'.waitQueue c).Nodup := by
  have old := h.nodup c
  cases ran with
  | append d l n =>
    rcases eq_or_ne c d with rfl | other
    · have made := h.appending t c l n ⟨rest, todo⟩
      have new : n ∉ s.waitQueue c := by
        rw [h.queued, made]
        simp
      simp [List.nodup_append_comm, old, new]
    · simpa [other] using old
  | removeFront d l n ns front =>
    rcases eq_or_ne c d with rfl | other
    · rw [front, List.nodup_cons] at old
      simpa using old.2
    · simpa [other] using old
  | V x => simpa using old
  | _ => exact old

theorem ran_raised (n : ℕ) : (s'.Freed n → (s'.semaphore (.waiter n)).raised = 1) ∧
    (¬ s'.Freed n → (s'.semaphore (.waiter n)).raised = 0) := by
  have advances := h.advances ran todo n
  have old := h.raised n
  rw [advances.freed_iff]
  rcases ran.semaphore_cases (.waiter n) with ⟨rfl, -, -, eq, -⟩ | ⟨rfl, -, -, eq⟩ | ⟨rfl, eq⟩ | ⟨-, ne, eq⟩ <;> rw [eq]
  · simpa using old
  · simpa using old
  · simp [old.2 advances.not_freed]
  · simpa [ne] using old

variable {user : σ → ℕ} (sound : s.Sound user)

include sound

theorem ran_appending (u : τ) (c : γ) (l : κ) (n : ℕ) (next : s'.At u (.append c l n)) :
    s'.waits n = some ⟨u, c, .made⟩ := by
  have here : s.At t i := ⟨rest, todo⟩
  rcases sound.at_cases ran todo next with ⟨ne, old⟩ | ⟨rfl, before⟩
  · have made := h.appending u c l n old
    cases h.advances ran todo n with
    | same _ eq => exact eq.trans made
    | made c l _ none => cases none.symm.trans made
    | queued c l mine =>
      cases mine.symm.trans made
      exact absurd rfl ne
    | removed w c l before | freed w c before => cases before.symm.trans made
  · obtain rfl := before
    obtain ⟨others, next⟩ := next
    cases ran
    rw [setTodo_self] at next
    cases next
    simp

theorem ran_freeing (u : τ) (n : ℕ) (next : s'.At u (.V (.waiter n))) :
    ∃ w c, s'.waits n = some ⟨w, c, .removed u⟩ := by
  rcases sound.at_cases ran todo next with ⟨ne, old⟩ | ⟨rfl, before⟩
  · obtain ⟨w, c, removed⟩ := h.freeing u n old
    cases h.advances ran todo n with
    | same _ eq => exact ⟨w, c, eq.trans removed⟩
    | made c l _ none => cases none.symm.trans removed
    | freed w c mine =>
      cases mine.symm.trans removed
      exact absurd rfl ne
    | queued c l before | removed w c l before => cases before.symm.trans removed
  · obtain ⟨c, l, rfl⟩ := before
    obtain ⟨others, next⟩ := next
    cases ran with
    | removeFront c l m ms front =>
      rw [setTodo_self] at next
      cases next
      obtain ⟨w, old⟩ := h.front front
      exact ⟨w, c, by simp [old]⟩

theorem ran_once (n : ℕ) (w' : Wait τ γ) (new : s'.waits n = some w') :
    (s'.todo w'.thread).count (.P (.waiter n)) + (s'.semaphore (.waiter n)).passed = 1 := by
  cases before : s.waits n with
  | some w =>
    obtain ⟨w₁, new₁, thread⟩ := (h.advances ran todo n).thread_eq before
    cases new.symm.trans new₁
    rw [thread]
    have once := h.once n w before
    rcases eq_or_ne w.thread t with rfl | ne
    · have old : n ≠ s.next := by
        rintro rfl
        cases before.symm.trans (h.fresh s.next le_rfl)
      rwa [ran.count_eq todo old]
    · rw [ran.todo_of_ne ne]
      -- the semaphore is private: only its own thread calls `P`
      rcases ran.semaphore_cases (.waiter n) with ⟨-, -, -, eq, -⟩ | ⟨rfl, -, -, eq⟩ | ⟨-, eq⟩ | ⟨-, -, eq⟩ <;> rw [eq]
      · exact once
      · obtain ⟨w₂, waits, thread⟩ := h.waiting n t (At.mem ⟨rest, todo⟩)
        cases before.symm.trans waits
        exact absurd thread ne
      · exact once
      · exact once
  | none =>
    cases h.advances ran todo n with
    | same _ eq => cases before.symm.trans (eq.symm.trans new)
    | made c l next none fresh =>
      subst next
      cases new.symm.trans fresh
      have absent : .P (.waiter s.next) ∉ s.todo t := fun mem => by
        obtain ⟨w, waits, -⟩ := h.waiting s.next t mem
        cases before.symm.trans waits
      have free : ¬ s.Freed s.next := by
        rintro ⟨w, waits, -⟩
        cases before.symm.trans waits
      rw [todo] at absent
      cases ran
      simp [waitOn, release, acquire, h.passed_eq_zero sound free]
      exact List.count_eq_zero.2 fun mem => absent (List.mem_cons_of_mem _ mem)
    | queued c l old | removed w c l old | freed w c old => cases before.symm.trans old

theorem executed : s'.Waits where
  fresh := h.ran_fresh ran todo
  waiting := h.ran_waiting ran todo
  once := h.ran_once ran todo sound
  appending := h.ran_appending ran todo sound
  queued := h.ran_queued ran todo
  nodup := h.ran_nodup ran todo
  freeing := h.ran_freeing ran todo sound
  raised := h.ran_raised ran todo

end

theorem step {user : σ → ℕ} {e : Event τ σ κ γ} (h : s.Waits) (sound : s.Sound user) (done : s.step e = some s') :
    s'.Waits := by
  rcases step_cases done with ⟨t, f, -, idle, rfl⟩ | ⟨t, i, rest, -, todo, ran⟩
  · exact h.called idle f
  · exact h.executed ran todo sound

theorem of_reach {user : σ → ℕ} {allowed : State τ σ κ γ → Event τ σ κ γ → Prop}
    (reach : Reach (program user) allowed s) : s.Waits := by
  induction reach with
  | init start =>
    obtain rfl := start
    exact initial user
  | step before _ done ih => exact ih.step (Sound.of_reach before) done

end Waits

end State

/-! ## Signals -/

/-- All calls on a condition variable come with the same lock. -/
def SameLock (conditionLock : γ → κ) (_ : State τ σ κ γ) : Event τ σ κ γ → Prop
  | .call _ (.wait c l) | .call _ (.signal c l) | .call _ (.broadcast c l) => l = conditionLock c
  | _ => True

/-- The steps of the threads other than `u`. -/
def Others (conditionLock : γ → κ) (u : τ) (s : State τ σ κ γ) (e : Event τ σ κ γ) : Prop :=
  e.thread ≠ u ∧ SameLock conditionLock s e

def Statement.Uses (conditionLock : γ → κ) : Statement σ κ γ → Prop
  | .newWaiter c l | .append c l _ | .isEmpty c l | .removeFront c l | .broadcast c l => l = conditionLock c
  | .P _ | .V _ | .assertHeld _ | .setHolder _ | .clearHolder _ => True

theorem uses_body {conditionLock : γ → κ} {f : Call σ κ γ} (same : SameLock conditionLock s (.call t f)) :
    ∀ i ∈ f.body, i.Uses conditionLock := by
  cases f with
  | wait c l | signal c l | broadcast c l =>
    have lock : l = conditionLock c := same
    simp [Call.body, wait, signal, Statement.Uses, lock]
  | P | V | acquire | release => simp [Call.body, acquire, release, Statement.Uses]

namespace State
variable [DecidableEq τ] [DecidableEq σ] [DecidableEq κ] [DecidableEq γ] {user : σ → ℕ} {conditionLock : γ → κ}

/-- The locks that the threads inside of functions will use. -/
def Uses (conditionLock : γ → κ) (s : State τ σ κ γ) : Prop := ∀ t, ∀ i ∈ s.todo t, i.Uses conditionLock

theorem Uses.step {e : Event τ σ κ γ} (h : s.Uses conditionLock) (same : SameLock conditionLock s e)
    (done : s.step e = some s') : s'.Uses conditionLock := by
  intro u
  rcases step_cases done with ⟨t, f, rfl, idle, rfl⟩ | ⟨t, i, rest, rfl, todo, ran⟩
  · rcases eq_or_ne u t with rfl | ne
    · rw [setTodo_self]
      exact uses_body same
    · rw [setTodo_of_ne ne]
      exact h u
  · rcases eq_or_ne u t with rfl | ne
    · have old := h u
      rw [todo, List.forall_mem_cons] at old
      obtain ⟨here, behind⟩ := old
      cases ran with
      | sleep x => exact h u
      | newWaiter c l =>
        rw [setTodo_self, List.forall_mem_append]
        refine ⟨?_, behind⟩
        simpa [waitOn, release, acquire, Statement.Uses] using here
      | someWaiter c l =>
        rw [setTodo_self, List.forall_mem_cons]
        exact ⟨here, behind⟩
      | removeFront c l n ns =>
        rw [setTodo_self, List.forall_mem_cons]
        exact ⟨trivial, behind⟩
      | again c l =>
        rw [setTodo_self, List.forall_mem_append, List.forall_mem_cons]
        refine ⟨?_, here, behind⟩
        simpa [signal, Statement.Uses] using here
      | _ =>
        rw [setTodo_self]
        exact behind
    · rw [ran.todo_of_ne ne]
      exact h u

/-- A thread is about to execute `i`, in a run that keeps the convention. -/
structure Doing (user : σ → ℕ) (conditionLock : γ → κ) (u : τ) (i : Statement σ κ γ) (rest : List (Statement σ κ γ))
    (s : State τ σ κ γ) : Prop where
  sound : s.Sound user
  waits : s.Waits
  uses : s.Uses conditionLock
  todo : s.todo u = i :: rest

/-- Whatever the other threads do in between, `u` takes its next step. -/
def Continues (user : σ → ℕ) (conditionLock : γ → κ) (u : τ) :
    State τ σ κ γ → (State τ σ κ γ → State τ σ κ γ → Prop) → Prop :=
  (program user).Ensures (Others conditionLock u) (.run u)

/-- The next three steps of `u` are taken, whatever the other threads do in between. The last one
frees the call `n` of `Wait`, which was not free before, and none of them frees another one. -/
def Releases (user : σ → ℕ) (conditionLock : γ → κ) (u : τ) (n : ℕ) (rest : List (Statement σ κ γ))
    (s : State τ σ κ γ) : Prop :=
  Continues user conditionLock u s fun s₁ s₂ => (∀ m, s₂.Freed m ↔ s₁.Freed m) ∧
    Continues user conditionLock u s₂ fun s₃ s₄ => (∀ m, s₄.Freed m ↔ s₃.Freed m) ∧
      Continues user conditionLock u s₄ fun s₅ s₆ =>
        ¬ s₅.Freed n ∧ (∀ m, s₆.Freed m ↔ s₅.Freed m ∨ m = n) ∧ s₆.todo u = rest

theorem step_run (todo : s.todo u = i :: rest) : s.step (.run u) = s.exec u rest i := by
  rw [step, run, todo]

theorem todo_of_others {e : Event τ σ κ γ} (other : Others conditionLock u s e) (done : s.step e = some s') :
    s'.todo u = s.todo u := by
  rcases step_cases done with ⟨t, f, rfl, -, rfl⟩ | ⟨t, i, rest, rfl, -, ran⟩
  · exact setTodo_of_ne (Ne.symm other.1)
  · exact ran.todo_of_ne other.1.symm

theorem held_of_others {e : Event τ σ κ γ} (other : Others conditionLock u s e) (done : s.step e = some s') :
    s'.held u = s.held u := by
  rcases step_cases done with ⟨t, f, rfl, -, rfl⟩ | ⟨t, i, rest, rfl, -, ran⟩
  · rfl
  · exact ran.held_of_ne other.1.symm

namespace Doing

variable {e : Event τ σ κ γ} (h : s.Doing user conditionLock u i rest)

include h

theorem others (other : Others conditionLock u s e) (done : s.step e = some s') : s'.Doing user conditionLock u i rest where
  sound := h.sound.step done
  waits := h.waits.step h.sound done
  uses := h.uses.step other.2 done
  todo := (todo_of_others other done).trans h.todo

theorem step_run : s.step (.run u) = s.exec u rest i := State.step_run h.todo

theorem next {rest' : List (Statement σ κ γ)} (done : s.step (.run u) = some s') (todo : s'.todo u = j :: rest') :
    s'.Doing user conditionLock u j rest' where
  sound := h.sound.step done
  waits := h.waits.step h.sound done
  uses := h.uses.step (e := .run u) trivial done
  todo := todo

/-- A call of `Wait` is freed by `V` on its semaphore, and by nothing else. -/
theorem freed_iff (done : s.step (.run u) = some s') (m : ℕ) : s'.Freed m ↔ s.Freed m ∨ i = .V (.waiter m) := by
  rw [h.step_run] at done
  exact (h.waits.advances (ran_of_exec done) h.todo m).freed_iff

/-- The queue of a condition variable belongs to the thread that has the lock. -/
theorem waitQueue_eq {c : γ} (held : conditionLock c ∈ s.held u) (other : Others conditionLock u s e)
    (done : s.step e = some s') : s'.waitQueue c = s.waitQueue c := by
  rcases step_cases done with ⟨t, f, rfl, -, rfl⟩ | ⟨t, i', rest', rfl, todo, ran⟩
  · rfl
  · have here : s.At t i' := ⟨rest', todo⟩
    have ready := h.sound.ready t i' here
    have lock := h.uses t i' here.mem
    have alone : conditionLock c ∉ s.held t := fun also => other.1 ((h.sound.busy (.inl held)).2 t (.inl also))
    cases ran with
    | append d l n =>
      have ne : c ≠ d := by
        rintro rfl
        exact alone (lock ▸ ready)
      simp [ne]
    | removeFront d l n ns =>
      have ne : c ≠ d := by
        rintro rfl
        exact alone (lock ▸ ready)
      simp [ne]
    | V x => simp
    | _ => rfl

omit h

/-- The last step of `Signal`. -/
theorem frees {n : ℕ} (h : s.Doing user conditionLock u (.V (.waiter n)) rest) :
    Continues user conditionLock u s fun s₅ s₆ =>
      ¬ s₅.Freed n ∧ (∀ m, s₆.Freed m ↔ s₅.Freed m ∨ m = n) ∧ s₆.todo u = rest := by
  apply System.ensures_of_stable (Doing user conditionLock u (.V (.waiter n)) rest) h
  · intro s e s' h other done
    exact h.others other done
  · intro s h
    obtain ⟨w, c, removed⟩ := h.waits.freeing u n ⟨rest, h.todo⟩
    refine ⟨_, h.step_run, ?_, fun m => ?_, by simp⟩
    · simp [Freed, removed]
    · rw [h.freed_iff h.step_run]
      simp [eq_comm]

/-- A thread with the lock finds the queue as it was. -/
theorem continues {c : γ} {queue : List ℕ} {Q : State τ σ κ γ → State τ σ κ γ → Prop}
    (h : s.Doing user conditionLock u i rest) (held : conditionLock c ∈ s.held u) (waiters : s.waitQueue c = queue)
    (step : ∀ s, s.Doing user conditionLock u i rest → conditionLock c ∈ s.held u → s.waitQueue c = queue →
      ∃ s', s.step (.run u) = some s' ∧ Q s s') : Continues user conditionLock u s Q := by
  apply System.ensures_of_stable
    (fun s => s.Doing user conditionLock u i rest ∧ conditionLock c ∈ s.held u ∧ s.waitQueue c = queue) ⟨h, held, waiters⟩
  · rintro s e s' ⟨h, held, waiters⟩ other done
    refine ⟨h.others other done, ?_, (h.waitQueue_eq held other done).trans waiters⟩
    rwa [held_of_others other done]
  · rintro s ⟨h, held, waiters⟩
    exact step s h held waiters

/-- The `ASSERT` of `Signal`. -/
theorem asserts {c : γ} (h : s.Doing user conditionLock u (.assertHeld (conditionLock c)) rest)
    (held : conditionLock c ∈ s.held u) :
    Continues user conditionLock u s fun _ s₂ => s₂.todo u = rest ∧ s₂.waitQueue c = s.waitQueue c := by
  apply h.continues held rfl
  intro s' h held waiters
  refine ⟨s'.setTodo u rest, ?_, by simp, waiters⟩
  rw [h.step_run, exec, if_pos ((h.sound.holder _ u).2 held)]

/-- `Signal` releases the front of the queue. -/
theorem releases {c : γ} {n : ℕ} {ns : List ℕ} (h : s.Doing user conditionLock u (.isEmpty c (conditionLock c)) rest)
    (front : s.waitQueue c = n :: ns) : Releases user conditionLock u n rest s := by
  apply h.continues (h.sound.ready u _ ⟨rest, h.todo⟩) front
  intro s h held front
  have done : s.step (.run u) = some (s.setTodo u (.removeFront c (conditionLock c) :: rest)) := by
    rw [h.step_run, exec, if_neg (by simp [front])]
  have after : Doing user conditionLock u (.removeFront c (conditionLock c)) rest _ := h.next done (by simp)
  refine ⟨_, done, fun m => by simpa using h.freed_iff done m, ?_⟩
  apply after.continues held front
  intro s h held front
  have done : s.step (.run u) =
      some (((s.setWaitQueue c ns).setPhase n (.removed u)).setTodo u (.V (.waiter n) :: rest)) := by
    rw [h.step_run, exec, front]
  have after : Doing user conditionLock u (.V (.waiter n)) rest _ := h.next done (by simp)
  exact ⟨_, done, fun m => by simpa using h.freed_iff done m, after.frees⟩

end Doing

section
variable {n : ℕ} (sound : s.Sound user) (h : s.Waits)

include sound h

theorem value_eq_one (freed : s.Freed n) (todo : s.todo t = .P (.waiter n) :: rest) :
    (s.semaphore (.waiter n)).value = 1 := by
  have here : .P (.waiter n) ∈ s.todo t := At.mem ⟨rest, todo⟩
  obtain ⟨w, waits, rfl⟩ := h.waiting n t here
  have balance := (sound.semaphores (.waiter n)).balance
  have once := h.once n w waits
  have waiting : 0 < (s.todo w.thread).count (.P (.waiter n)) := List.count_pos_iff.2 here
  rw [(h.raised n).1 freed, SemaphorePtr.initialValue] at balance
  omega

/-- The thread does not sleep any more: nobody else has been signalled on its semaphore. -/
theorem awake_of_freed (freed : s.Freed n) (todo : s.todo t = .P (.waiter n) :: rest) :
    t ∉ (s.semaphore (.waiter n)).queue := by
  intro asleep
  have semaphore := sound.semaphores (.waiter n)
  have mine (u : τ) (at_u : s.At u (.P (.waiter n))) : ∃ w, s.waits n = some w ∧ w.thread = u :=
    h.waiting n u at_u.mem
  have sleeping : t ∈ (s.semaphore (.waiter n)).waiters.sleeping := by
    rwa [semaphore.sleeping, List.mem_toFinset]
  have none : (s.semaphore (.waiter n)).waiters.signalled = ∅ := by
    rw [Finset.eq_empty_iff_forall_notMem]
    intro u comes
    obtain ⟨w, waits, rfl⟩ := mine u (sound.concerned _ u (.inr comes))
    obtain ⟨w', waits', rfl⟩ := mine t ⟨rest, todo⟩
    cases waits.symm.trans waits'
    exact Finset.disjoint_left.1 (s.semaphore (.waiter n)).waiters.disjoint sleeping comes
  have covered := semaphore.covered ⟨t, sleeping⟩
  rw [none, value_eq_one sound h freed todo] at covered
  simp at covered

theorem passes (freed : s.Freed n) (todo : s.todo t = .P (.waiter n) :: rest) :
    ∃ s', s.step (.run t) = some s' ∧ s'.todo t = rest := by
  refine ⟨(s.setSemaphore (.waiter n) ((s.semaphore (.waiter n)).take t)).setTodo t rest, ?_, by simp⟩
  have one := value_eq_one sound h freed todo
  rw [step_run todo, exec, if_neg (awake_of_freed sound h freed todo), if_neg (by rw [one]; exact one_ne_zero)]

omit sound in
theorem freed_of_step {e : Event τ σ κ γ} (done : s.step e = some s') (freed : s.Freed n) : s'.Freed n := by
  rcases step_cases done with ⟨t, f, rfl, -, rfl⟩ | ⟨t, i, rest, rfl, todo, ran⟩
  · exact freed
  · exact (h.advances ran todo n).freed_iff.2 (.inl freed)

end

/-- What `Wait` promises. Its semaphore is private, and stops the thread before the call is freed and
no longer after that. -/
structure WaitsCorrect (s : State τ σ κ γ) : Prop where
  waiter : ∀ n t, .P (.waiter n) ∈ s.todo t → ∃ w, s.waits n = some w ∧ w.thread = t
  stopped : ∀ n, ¬ s.Freed n → (s.semaphore (.waiter n)).passed = 0
  passes : ∀ n t rest, s.Freed n → s.todo t = .P (.waiter n) :: rest → ∃ s', s.step (.run t) = some s' ∧ s'.todo t = rest
  kept : ∀ n e s', s.Freed n → s.step e = some s' → s'.Freed n

theorem waitsCorrect (sound : s.Sound user) (h : s.Waits) : s.WaitsCorrect where
  waiter := h.waiting
  stopped _ blocked := h.passed_eq_zero sound blocked
  passes _ _ _ freed todo := State.passes sound h freed todo
  kept _ _ _ freed done := freed_of_step h done freed

/-- What `Signal` promises. It tests the queue as it was when `Signal` was called, and where it finds
waiters it frees one call of `Wait`, whose thread is inside of it but need not have reached `P`. -/
structure SignalsCorrect (user : σ → ℕ) (conditionLock : γ → κ) (s : State τ σ κ γ) : Prop where
  called : ∀ u c l rest, s.todo u = Synch.signal c l ++ rest → l ∈ s.held u →
    Continues user conditionLock u s fun _ s₂ => s₂.todo u = .isEmpty c l :: rest ∧ s₂.waitQueue c = s.waitQueue c
  releases : ∀ u c l rest, s.todo u = .isEmpty c l :: rest → s.waitQueue c ≠ [] → ∃ n w,
    (s.waitQueue c).head? = some n ∧ s.waits n = some ⟨w, c, .queued⟩ ∧ .P (.waiter n) ∈ s.todo w ∧
      Releases user conditionLock u n rest s

theorem signalsCorrect (sound : s.Sound user) (h : s.Waits) (uses : s.Uses conditionLock) :
    s.SignalsCorrect user conditionLock where
  called u c l rest todo held := by
    have lock : l = conditionLock c := uses u (.isEmpty c l) (by rw [todo]; simp [Synch.signal])
    subst lock
    have doing : s.Doing user conditionLock u (.assertHeld (conditionLock c)) (.isEmpty c (conditionLock c) :: rest) :=
      ⟨sound, h, uses, todo⟩
    exact doing.asserts held
  releases u c l rest todo waiters := by
    have lock : l = conditionLock c := uses u (.isEmpty c l) (At.mem ⟨rest, todo⟩)
    subst lock
    obtain ⟨n, ns, front⟩ := List.exists_cons_of_ne_nil waiters
    obtain ⟨w, queued⟩ := h.front front
    have blocked : ¬ s.Freed n := by simp [Freed, queued]
    have once := h.once n _ queued
    rw [h.passed_eq_zero sound blocked] at once
    have inside : .P (.waiter n) ∈ s.todo w := List.count_pos_iff.1 (by simp only at once; omega)
    have doing : s.Doing user conditionLock u (.isEmpty c (conditionLock c)) rest := ⟨sound, h, uses, todo⟩
    exact ⟨n, w, by simp [front], queued, inside, doing.releases front⟩

theorem Uses.of_reach (reach : Reach (program user) (SameLock conditionLock) s) : s.Uses conditionLock := by
  induction reach with
  | init start =>
    obtain rfl := start
    exact fun _ _ => nofun
  | step _ same done ih => exact ih.step same done

end State

section
variable [DecidableEq τ] [DecidableEq σ] [DecidableEq κ] [DecidableEq γ]

/-- **Semaphores, locks and condition variables under every interleaving.** -/
theorem synch_correct (user : σ → ℕ) :
    (∀ s : State τ σ κ γ, Reach (program user) (fun _ _ => True) s →
      (∀ x, (s.semaphore x).Correct (x.initialValue user)) ∧ (∀ l, s.LockCorrect l) ∧ s.WaitsCorrect) ∧
    ∀ (conditionLock : γ → κ) (s : State τ σ κ γ), Reach (program user) (SameLock conditionLock) s →
      s.SignalsCorrect user conditionLock := by
  constructor
  · intro s reach
    have sound := State.Sound.of_reach reach
    have waits := State.Waits.of_reach reach
    exact ⟨fun x => (sound.semaphores x).correct, sound.lockCorrect, State.waitsCorrect sound waits⟩
  · intro conditionLock s reach
    exact State.signalsCorrect (State.Sound.of_reach reach) (State.Waits.of_reach reach) (State.Uses.of_reach reach)

/-- One thread has released the lock in `Wait` and is before its `P`, the other one before the test of
`Signal`. -/
def waitAndSignal : List (Event Bool Empty Unit Unit) :=
  [.call false (.acquire ()), .run false, .run false, .call false (.wait () ()), .run false, .run false, .run false,
    .run false, .run false, .run false, .call true (.acquire ()), .run true, .run true, .call true (.signal () ()),
    .run true]

theorem synch_correct_waitAndSignal : ∃ s : State Bool Empty Unit Unit,
    waitAndSignal.foldlM State.step (.initial nofun) = some s ∧ s.At false (.P (.waiter 0)) ∧
      (s.semaphore (.waiter 0)).queue = [] ∧ (∀ x, (s.semaphore x).Correct (x.initialValue nofun)) ∧
        s.LockCorrect () ∧ s.WaitsCorrect ∧ State.Releases nofun (fun _ => ()) true 0 [] s := by
  have runs : (waitAndSignal.foldlM State.step (.initial nofun)).isSome = true := by decide
  obtain ⟨s, done⟩ := Option.isSome_iff_exists.1 runs
  have todo (t : Bool) : (waitAndSignal.foldlM State.step (.initial nofun)).map (fun s => s.todo t) =
      some (if t then [.isEmpty () ()] else [.P (.waiter 0), .P (.lock ()), .setHolder ()]) := by
    cases t <;> decide
  have front : (waitAndSignal.foldlM State.step (.initial nofun)).map (fun s => s.waitQueue ()) = some [0] := by decide
  have empty : (waitAndSignal.foldlM State.step (.initial nofun)).map (fun s => (s.semaphore (.waiter 0)).queue) = some [] := by
    decide
  rw [done] at front empty
  simp only [done, Option.map_some, Option.some.injEq] at todo
  have one (s : State Bool Empty Unit Unit) (e : Event Bool Empty Unit Unit) : SameLock (fun _ => ()) s e := by
    rcases e with ⟨t, f⟩ | t
    · cases f <;> trivial
    · trivial
  have reach : Reach (program nofun) (SameLock fun _ => ()) s :=
    (Reach.init rfl).events State.step (fun _ _ _ => id) waitAndSignal (fun s e _ => one s e) done
  have correct := (synch_correct nofun).1 s (reach.mono fun _ _ _ _ => trivial)
  have test : s.todo true = [.isEmpty () ()] := todo true
  have waiters : s.waitQueue () = [0] := Option.some.inj front
  have signals := (synch_correct nofun).2 _ s reach
  obtain ⟨n, w, head, -, -, releases⟩ := signals.releases true () () [] test (by rw [waiters]; exact nofun)
  rw [waiters] at head
  cases head
  exact ⟨s, done, ⟨_, todo false⟩, Option.some.inj empty, correct.1, correct.2.1 (), correct.2.2, releases⟩

end

end Nachos.Mp3.Synch
