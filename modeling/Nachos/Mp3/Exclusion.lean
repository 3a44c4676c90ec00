import Mathlib.Data.List.Chain
import Nachos.Mp3.Steps
import Nachos.Mp3.Synch

/-!
# Semaphores and locks under any interleaving

The invariant of all runs. A semaphore, which is that of the scheduling kernel with its history,
accounts for its calls, and while threads sleep each unit of it has another one on the way. The
semaphore of a lock has one permit: it lies in the value, or with the one thread between `P` and
`V`, and `lockHolder` names the thread between `Acquire` and `Release`.
-/

namespace Nachos.Mp3.Synch
open Transition

variable {τ σ κ γ : Type} {v : Semaphore τ} {initialValue : ℕ} {t u : τ}

/-! ## One semaphore -/

namespace Semaphore

structure Sound (initialValue : ℕ) (v : Semaphore τ) [DecidableEq τ] : Prop where
  nonneg : 0 ≤ v.value
  balance : v.value + v.passed = initialValue + v.raised
  nodup : v.queue.Nodup
  sleeping : v.waiters.sleeping = v.queue.toFinset
  covered : v.waiters.Covered v.value

/-- What `P` and `V` promise. No wake-up is lost: while threads are in the queue, the value is at
most the number of those that `V` has removed from there and that have not tested it again. -/
structure Correct (initialValue : ℕ) (v : Semaphore τ) : Prop where
  nonneg : 0 ≤ v.value
  passed_le : v.passed ≤ initialValue + v.raised
  awaited : v.queue ≠ [] → v.value ≤ v.waiters.signalled.card

variable [DecidableEq τ]

theorem sound_new : (new initialValue : Semaphore τ).Sound initialValue where
  nonneg := Int.natCast_nonneg _
  balance := rfl
  nodup := List.nodup_nil
  sleeping := rfl
  covered := Condition.covered_idle

namespace Sound

variable (h : v.Sound initialValue)

include h

theorem sleep (awake : t ∉ v.queue) (zero : v.value = 0) : (v.sleep t).Sound initialValue where
  nonneg := h.nonneg
  balance := h.balance
  nodup := by
    rw [sleep_queue, List.nodup_append_comm, List.singleton_append, List.nodup_cons]
    exact ⟨awake, h.nodup⟩
  sleeping := by
    rw [sleep_waiters, Condition.wait_sleeping, sleep_queue, h.sleeping]
    ext u
    simp
  covered := Condition.covered_of_nonpos (le_of_eq zero)

theorem take (value : v.value ≠ 0) : (v.take t).Sound initialValue where
  nonneg := by
    have := h.nonneg
    rw [take_value]
    omega
  balance := by
    have := h.balance
    rw [take_value, take_passed, take_raised]
    push_cast
    omega
  nodup := h.nodup
  sleeping := h.sleeping
  covered := h.covered.tested

/-- The front of the queue is a signal. -/
theorem signals : v.waiters.Signals v.queue.head?.toFinset := by
  rw [Condition.Signals, h.sleeping]
  cases v.queue with
  | nil => simp
  | cons u others => simp

theorem V : v.V.Sound initialValue where
  nonneg := by
    have := h.nonneg
    rw [V_value]
    omega
  balance := by
    have := h.balance
    rw [V_value, V_passed, V_raised]
    push_cast
    omega
  nodup := h.nodup.tail
  sleeping := by
    rw [V_waiters, Condition.signal_sleeping, V_queue, h.sleeping]
    cases queue : v.queue with
    | nil => simp
    | cons u others =>
      have new : u ∉ others := (List.nodup_cons.1 (queue ▸ h.nodup)).1
      ext w
      simp only [List.head?_cons, List.tail_cons, Option.toFinset_some, Finset.mem_sdiff, List.mem_toFinset,
        List.mem_cons, Finset.mem_singleton]
      constructor
      · rintro ⟨rfl | mem, ne⟩
        · exact absurd rfl ne
        · exact mem
      · intro mem
        exact ⟨.inr mem, fun eq => new (eq ▸ mem)⟩
  covered := h.covered.signal h.signals

theorem correct : v.Correct initialValue where
  nonneg := h.nonneg
  passed_le := by
    have nonneg := h.nonneg
    have balance := h.balance
    omega
  awaited sleeps := by
    apply h.covered
    rwa [h.sleeping, List.toFinset_nonempty_iff]

end Sound

end Semaphore

/-! ## The order of statements -/

/-- What has been executed right before `y`. -/
def Statement.Before (x : Statement σ κ γ) : Statement σ κ γ → Prop
  | .setHolder l => x = .P (.lock l)
  | .clearHolder l | .newWaiter _ l | .isEmpty _ l => x = .assertHeld l
  | .V (.lock l) => x = .clearHolder l
  | .append c l _ => x = .newWaiter c l
  | .removeFront c l => x = .isEmpty c l
  | .V (.waiter _) => ∃ c l, x = .removeFront c l
  | .P _ | .V (.user _) | .assertHeld _ | .broadcast _ _ => True

/-- The statements that a test or `new` puts in front of the others. -/
def Statement.IsFirst : Statement σ κ γ → Prop
  | .append _ _ _ | .removeFront _ _ | .V (.waiter _) => True
  | _ => False

/-- How the statements of a thread follow one another. -/
def Statement.Follows (x y : Statement σ κ γ) : Prop := x.Before y ∧ ¬ y.IsFirst

namespace State

variable {s s' : State τ σ κ γ} {i j : Statement σ κ γ} {rest : List (Statement σ κ γ)} {l : κ} {x : SemaphorePtr σ κ}

/-- The thread is about to execute a statement. -/
def At (s : State τ σ κ γ) (t : τ) (i : Statement σ κ γ) : Prop := ∃ rest, s.todo t = i :: rest

theorem At.inj (h : s.At t i) (h' : s.At t j) : i = j := by
  obtain ⟨rest, h⟩ := h
  obtain ⟨others, h'⟩ := h'
  exact (List.cons.inj (h.symm.trans h')).1

theorem At.mem (h : s.At t i) : i ∈ s.todo t := by
  obtain ⟨rest, todo⟩ := h
  rw [todo]
  exact List.mem_cons_self

theorem at_congr (h : s'.todo u = s.todo u) : s'.At u i ↔ s.At u i := by
  rw [At, At, h]

/-- What a thread knows of its locks. -/
def Ready (s : State τ σ κ γ) (t : τ) : Statement σ κ γ → Prop
  | .setHolder l | .V (.lock l) => l ∉ s.held t
  | .clearHolder l | .newWaiter _ l | .append _ l _ | .isEmpty _ l | .removeFront _ l => l ∈ s.held t
  | .P _ | .V (.user _) | .V (.waiter _) | .assertHeld _ | .broadcast _ _ => True

/-- The thread has the permit of a lock. -/
def Busy (s : State τ σ κ γ) (l : κ) (t : τ) : Prop :=
  l ∈ s.held t ∨ s.At t (.setHolder l) ∨ s.At t (.V (.lock l))

/-- There is one permit: with a thread, or in the value. -/
def Exclusive (s : State τ σ κ γ) (l : κ) : Prop :=
  ∃ owners : Finset τ, (s.semaphore (.lock l)).value + owners.card ≤ 1 ∧ ∀ t, s.Busy l t → t ∈ owners

/-- The invariant of every interleaving. -/
structure Sound (user : σ → ℕ) (s : State τ σ κ γ) [DecidableEq τ] : Prop where
  semaphores : ∀ x, (s.semaphore x).Sound (x.initialValue user)
  concerned : ∀ x t, (s.semaphore x).waiters.Concerns t → s.At t (.P x)
  ordered : ∀ t, (s.todo t).IsChain Statement.Follows
  ready : ∀ t i, s.At t i → s.Ready t i
  exclusive : ∀ l, s.Exclusive l
  holder : ∀ l t, s.lockHolder l = some t ↔ l ∈ s.held t

end State

/-! ## What a step keeps -/

section
variable {s s' : State τ σ κ γ} {i j x y z : Statement σ κ γ} {rest : List (Statement σ κ γ)} {l : κ}

theorem Statement.Follows.any (h : x.Follows y) (permit : ∀ l, x ≠ .P (.lock l)) (assert : ∀ l, x ≠ .assertHeld l)
    (clear : ∀ l, x ≠ .clearHolder l) : z.Follows y := by
  obtain ⟨before, first⟩ := h
  refine ⟨?_, first⟩
  cases y with
  | setHolder l => exact absurd before (permit l)
  | clearHolder l => exact absurd before (assert l)
  | newWaiter c l => exact absurd before (assert l)
  | isEmpty c l => exact absurd before (assert l)
  | V p =>
    cases p with
    | user => trivial
    | lock l => exact absurd before (clear l)
    | waiter n => exact absurd trivial first
  | append c l n => exact absurd trivial first
  | removeFront c l => exact absurd trivial first
  | P => trivial
  | assertHeld => trivial
  | broadcast => trivial

/-- A statement that was put in front of the others. -/
theorem isChain_first (ordered : (x :: rest).IsChain Statement.Follows) (permit : ∀ l, x ≠ .P (.lock l))
    (assert : ∀ l, x ≠ .assertHeld l) (clear : ∀ l, x ≠ .clearHolder l) : (z :: rest).IsChain Statement.Follows := by
  rw [List.isChain_cons] at ordered ⊢
  exact ⟨fun y mem => (ordered.1 y mem).any permit assert clear, ordered.2⟩

theorem isChain_waitOn (c : γ) (n : ℕ) (ordered : (Statement.setHolder l :: rest).IsChain Statement.Follows) :
    (waitOn c l n ++ rest).IsChain Statement.Follows := by
  simp [waitOn, release, acquire, List.isChain_cons_cons, Statement.Follows, Statement.Before, Statement.IsFirst, ordered]

theorem isChain_body (f : Call σ κ γ) : f.body.IsChain Statement.Follows := by
  cases f <;>
    simp [Call.body, acquire, release, wait, signal, List.isChain_cons_cons, Statement.Follows, Statement.Before,
      Statement.IsFirst]

/-- A call starts with a statement that knows nothing of a lock. -/
theorem ready_body {f : Call σ κ γ} (first : f.body = j :: rest) : s.Ready t j := by
  cases f <;> (cases first; trivial)

namespace Ran
variable [DecidableEq τ] [DecidableEq σ] [DecidableEq κ] [DecidableEq γ]
variable (ran : Ran s t rest i s')

include ran

theorem todo_of_ne (ne : u ≠ t) : s'.todo u = s.todo u := by
  cases ran <;> simp [ne]

theorem held_of_ne (ne : u ≠ t) : s'.held u = s.held u := by
  cases ran <;> simp [ne]

/-- Behind each statement comes one that it may come before, and that is what the thread does next. -/
theorem before (todo : s.todo t = i :: rest) (ordered : (s.todo t).IsChain Statement.Follows) (next : s'.At t j) :
    i.Before j := by
  have behind (others : List (Statement σ κ γ)) (eq : rest = j :: others) : i.Before j := by
    rw [todo, eq, List.isChain_cons_cons] at ordered
    exact ordered.1.1
  obtain ⟨others, next⟩ := next
  cases ran with
  | sleep x =>
    rw [State.setSemaphore_todo, todo] at next
    cases next
    trivial
  | newWaiter c l =>
    rw [State.setTodo_self] at next
    cases next
    rfl
  | someWaiter c l =>
    rw [State.setTodo_self] at next
    cases next
    rfl
  | removeFront c l n ns =>
    rw [State.setTodo_self] at next
    cases next
    exact ⟨c, l, rfl⟩
  | again c l =>
    rw [State.setTodo_self] at next
    cases next
    trivial
  | _ =>
    rw [State.setTodo_self] at next
    exact behind others next

theorem ordered (todo : s.todo t = i :: rest) (ordered : (s.todo t).IsChain Statement.Follows) :
    (s'.todo t).IsChain Statement.Follows := by
  have here := todo ▸ ordered
  cases ran with
  | sleep x => rwa [State.setSemaphore_todo]
  | newWaiter c l =>
    rw [State.setTodo_self]
    exact isChain_waitOn c s.next (isChain_first here nofun nofun nofun)
  | someWaiter c l =>
    rw [State.setTodo_self]
    exact isChain_first here nofun nofun nofun
  | removeFront c l n ns =>
    rw [State.setTodo_self]
    exact isChain_first here nofun nofun nofun
  | again c l =>
    rw [State.setTodo_self]
    simpa [signal, List.isChain_cons_cons, Statement.Follows, Statement.Before, Statement.IsFirst] using here
  | _ =>
    rw [State.setTodo_self]
    exact here.tail

/-- What a statement does to a semaphore. -/
theorem semaphore_cases (x : SemaphorePtr σ κ) :
    (i = .P x ∧ t ∉ (s.semaphore x).queue ∧ (s.semaphore x).value = 0 ∧ s'.semaphore x = (s.semaphore x).sleep t ∧
        s'.todo = s.todo) ∨
      (i = .P x ∧ t ∉ (s.semaphore x).queue ∧ (s.semaphore x).value ≠ 0 ∧ s'.semaphore x = (s.semaphore x).take t) ∨
      (i = .V x ∧ s'.semaphore x = (s.semaphore x).V) ∨
      (i ≠ .P x ∧ i ≠ .V x ∧ s'.semaphore x = s.semaphore x) := by
  cases ran with
  | sleep y awake zero =>
    by_cases eq : x = y
    · subst eq
      exact .inl ⟨rfl, awake, zero, by simp, rfl⟩
    · refine .inr (.inr (.inr ⟨?_, nofun, by simp [eq]⟩))
      rintro ⟨⟩
      exact eq rfl
  | take y awake value =>
    by_cases eq : x = y
    · subst eq
      exact .inr (.inl ⟨rfl, awake, value, by simp⟩)
    · refine .inr (.inr (.inr ⟨?_, nofun, by simp [eq]⟩))
      rintro ⟨⟩
      exact eq rfl
  | V y =>
    by_cases eq : x = y
    · subst eq
      exact .inr (.inr (.inl ⟨rfl, by simp⟩))
    · refine .inr (.inr (.inr ⟨nofun, ?_, by simp [eq]⟩))
      rintro ⟨⟩
      exact eq rfl
  | _ => exact .inr (.inr (.inr ⟨nofun, nofun, rfl⟩))

/-- A thread comes to hold a lock with `setHolder`, and no longer does with `clearHolder`. -/
theorem mem_held_iff (l : κ) : l ∈ s'.held t ↔ i = .setHolder l ∨ (l ∈ s.held t ∧ i ≠ .clearHolder l) := by
  cases ran with
  | setHolder m => simp [eq_comm]
  | clearHolder m => simp [and_comm, eq_comm]
  | _ => simp

theorem lockHolder_eq (l : κ) : s'.lockHolder l =
    if i = .setHolder l then some t else if i = .clearHolder l then none else s.lockHolder l := by
  cases ran with
  | setHolder m =>
    by_cases eq : l = m
    · simp [eq]
    · simp [eq, Ne.symm eq]
  | clearHolder m =>
    by_cases eq : l = m
    · simp [eq]
    · simp [eq, Ne.symm eq]
  | _ => simp

end Ran

namespace State

theorem ready_congr (h : s'.held t = s.held t) : s'.Ready t j ↔ s.Ready t j := by
  cases j with
  | V x => cases x <;> simp only [Ready, h]
  | _ => simp only [Ready, h]

theorem busy_congr (held : s'.held u = s.held u) (todo : s'.todo u = s.todo u) : s'.Busy l u ↔ s.Busy l u := by
  rw [Busy, Busy, held, at_congr todo, at_congr todo]

theorem sound_initial [DecidableEq τ] (user : σ → ℕ) : (initial user : State τ σ κ γ).Sound user where
  semaphores _ := Semaphore.sound_new
  concerned _ _ h := (Condition.not_concerns_idle h).elim
  ordered _ := List.isChain_nil
  ready _ _ := nofun
  exclusive l := by
    refine ⟨∅, le_rfl, fun t busy => ?_⟩
    rcases busy with held | ⟨_, ⟨⟩⟩ | ⟨_, ⟨⟩⟩
    exact absurd held (Finset.notMem_empty l)
  holder _ _ := by simp [initial]

namespace Sound
variable [DecidableEq τ] {user : σ → ℕ} (h : s.Sound user)

include h

/-- A thread is busy with a lock only while nobody else is, and no permit is left. -/
theorem busy (busy : s.Busy l t) : (s.semaphore (.lock l)).value = 0 ∧ ∀ u, s.Busy l u → u = t := by
  obtain ⟨owners, permits, owner⟩ := h.exclusive l
  have mem := owner t busy
  have positive : 0 < owners.card := Finset.card_pos.2 ⟨t, mem⟩
  have nonneg := (h.semaphores (.lock l)).nonneg
  refine ⟨by omega, fun u other => ?_⟩
  exact Finset.card_le_one.1 (by omega) u (owner u other) t mem

theorem idle_of_value (value : (s.semaphore (.lock l)).value ≠ 0) (t : τ) : ¬ s.Busy l t := by
  intro busy
  exact value (h.busy busy).1

theorem called (idle : s.todo t = []) (f : Call σ κ γ) : (s.setTodo t f.body).Sound user where
  semaphores := h.semaphores
  concerned x u concerns := by
    have old := h.concerned x u concerns
    rcases eq_or_ne u t with rfl | ne
    · obtain ⟨others, todo⟩ := old
      rw [idle] at todo
      cases todo
    · exact (at_congr (setTodo_of_ne ne)).2 old
  ordered u := by
    rcases eq_or_ne u t with rfl | ne
    · rw [setTodo_self]
      exact isChain_body f
    · rw [setTodo_of_ne ne]
      exact h.ordered u
  ready u j next := by
    rcases eq_or_ne u t with rfl | ne
    · obtain ⟨others, next⟩ := next
      rw [setTodo_self] at next
      exact ready_body next
    · exact (ready_congr rfl).2 (h.ready u j ((at_congr (setTodo_of_ne ne)).1 next))
  exclusive l := by
    obtain ⟨owners, permits, owner⟩ := h.exclusive l
    refine ⟨owners, permits, fun u busy => owner u ?_⟩
    rcases eq_or_ne u t with rfl | ne
    · rcases busy with held | ⟨others, next⟩ | ⟨others, next⟩
      · exact .inl held
      · rw [setTodo_self] at next
        cases f <;> cases next
      · rw [setTodo_self] at next
        cases f <;> cases next
    · have same : s.Busy l u ↔ (s.setTodo t f.body).Busy l u := busy_congr rfl (setTodo_of_ne ne).symm
      exact same.2 busy
  holder := h.holder

variable [DecidableEq σ] [DecidableEq κ] [DecidableEq γ]

section
variable (ran : Ran s t rest i s')

include ran

theorem ran_semaphores (x : SemaphorePtr σ κ) : (s'.semaphore x).Sound (x.initialValue user) := by
  have sound := h.semaphores x
  rcases ran.semaphore_cases x with ⟨-, awake, zero, eq, -⟩ | ⟨-, awake, value, eq⟩ | ⟨-, eq⟩ | ⟨-, -, eq⟩ <;> rw [eq]
  · exact sound.sleep awake zero
  · exact sound.take value
  · exact sound.V
  · exact sound

variable (todo : s.todo t = i :: rest)

include todo

theorem at_cases (next : s'.At u j) : (u ≠ t ∧ s.At u j) ∨ (u = t ∧ i.Before j) := by
  rcases eq_or_ne u t with rfl | ne
  · exact .inr ⟨rfl, ran.before todo (h.ordered u) next⟩
  · exact .inl ⟨ne, (at_congr (ran.todo_of_ne ne)).1 next⟩

theorem ran_concerned (x : SemaphorePtr σ κ) (u : τ) (concerns : (s'.semaphore x).waiters.Concerns u) :
    s'.At u (.P x) := by
  have here : s.At t i := ⟨rest, todo⟩
  have other (ne : u ≠ t) (old : (s.semaphore x).waiters.Concerns u) : s'.At u (.P x) :=
    (at_congr (ran.todo_of_ne ne)).2 (h.concerned x u old)
  rcases ran.semaphore_cases x with ⟨rfl, -, -, eq, same⟩ | ⟨rfl, awake, -, eq⟩ | ⟨rfl, eq⟩ | ⟨ne, -, eq⟩ <;>
    rw [eq] at concerns
  · rw [at_congr (congrFun same u)]
    rcases Condition.concerns_wait concerns with rfl | old
    · exact here
    · exact h.concerned x u old
  · refine other ?_ (Condition.concerns_tested concerns)
    rintro rfl
    apply Condition.not_concerns_tested _ concerns
    rwa [(h.semaphores x).sleeping, List.mem_toFinset]
  · have old := Condition.concerns_signal concerns
    refine other ?_ old
    rintro rfl
    cases here.inj (h.concerned x u old)
  · refine other ?_ concerns
    rintro rfl
    exact ne (here.inj (h.concerned x u concerns))

theorem ran_ready (u : τ) (j : Statement σ κ γ) (next : s'.At u j) : s'.Ready u j := by
  have known := h.ready t i ⟨rest, todo⟩
  rcases h.at_cases ran todo next with ⟨ne, old⟩ | ⟨rfl, before⟩
  · exact (ready_congr (ran.held_of_ne ne)).2 (h.ready u j old)
  · cases j with
    | P => trivial
    | assertHeld => trivial
    | broadcast => trivial
    | setHolder l =>
      obtain rfl := before
      rcases ran.semaphore_cases (.lock l) with ⟨-, -, -, -, same⟩ | ⟨-, -, value, -⟩ | ⟨⟨⟩, -⟩ | ⟨ne, -, -⟩
      · -- it sleeps, and would be at `P` still
        cases ((at_congr (congrFun same u)).1 next).inj ⟨rest, todo⟩
      · intro held
        have old := ((ran.mem_held_iff l).1 held).resolve_left nofun
        exact h.idle_of_value value u (.inl old.1)
      · exact absurd rfl ne
    | V x =>
      cases x with
      | user => trivial
      | waiter => trivial
      | lock l =>
        obtain rfl := before
        intro held
        exact (((ran.mem_held_iff l).1 held).resolve_left nofun).2 rfl
    | append c l n =>
      obtain rfl := before
      exact (ran.mem_held_iff l).2 (.inr ⟨known, nofun⟩)
    | removeFront c l =>
      obtain rfl := before
      exact (ran.mem_held_iff l).2 (.inr ⟨known, nofun⟩)
    | clearHolder l | newWaiter c l | isEmpty c l =>
      obtain rfl := before
      refine (ran.mem_held_iff l).2 (.inr ⟨?_, nofun⟩)
      cases ran with
      | assertHeld l holder => exact (h.holder l u).1 holder

omit h todo in
theorem busy_of_ne (ne : u ≠ t) (busy : s'.Busy l u) : s.Busy l u :=
  (busy_congr (ran.held_of_ne ne) (ran.todo_of_ne ne)).1 busy

/-- Only `P` makes a thread busy, and `V` ends that. -/
theorem busy_of_ran (no : i ≠ .P (.lock l)) (busy : s'.Busy l t) : s.Busy l t ∧ i ≠ .V (.lock l) := by
  have here : s.At t i := ⟨rest, todo⟩
  rcases busy with held | next | next
  · rcases (ran.mem_held_iff l).1 held with rfl | ⟨old, -⟩
    · exact ⟨.inr (.inl here), nofun⟩
    · refine ⟨.inl old, ?_⟩
      rintro rfl
      exact h.ready t _ here old
  · exact absurd (ran.before todo (h.ordered t) next) no
  · obtain rfl := ran.before todo (h.ordered t) next
    exact ⟨.inl (h.ready t _ here), nofun⟩

theorem ran_exclusive (l : κ) : s'.Exclusive l := by
  obtain ⟨owners, permits, owner⟩ := h.exclusive l
  rcases ran.semaphore_cases (.lock l) with ⟨rfl, -, -, eq, same⟩ | ⟨rfl, -, -, eq⟩ | ⟨rfl, eq⟩ | ⟨no, -, eq⟩
  · refine ⟨owners, by rwa [eq], fun u busy => owner u ?_⟩
    rcases eq_or_ne u t with rfl | ne
    · rcases busy with held | next | next
      · exact .inl (((ran.mem_held_iff l).1 held).resolve_left nofun).1
      · exact .inr (.inl ((at_congr (congrFun same u)).1 next))
      · exact .inr (.inr ((at_congr (congrFun same u)).1 next))
    · exact busy_of_ne ran ne busy
  · refine ⟨insert t owners, ?_, fun u busy => ?_⟩
    · have more := Finset.card_insert_le t owners
      rw [eq, Semaphore.take_value]
      omega
    · rcases eq_or_ne u t with rfl | ne
      · exact Finset.mem_insert_self u owners
      · exact Finset.mem_insert_of_mem (owner u (busy_of_ne ran ne busy))
  · have mem := owner t (.inr (.inr ⟨rest, todo⟩))
    refine ⟨owners.erase t, ?_, fun u busy => ?_⟩
    · have fewer := Finset.card_erase_add_one mem
      rw [eq, Semaphore.V_value]
      omega
    · rcases eq_or_ne u t with rfl | ne
      · exact absurd rfl (h.busy_of_ran ran todo nofun busy).2
      · exact Finset.mem_erase.2 ⟨ne, owner u (busy_of_ne ran ne busy)⟩
  · refine ⟨owners, by rwa [eq], fun u busy => owner u ?_⟩
    rcases eq_or_ne u t with rfl | ne
    · exact (h.busy_of_ran ran todo no busy).1
    · exact busy_of_ne ran ne busy

theorem ran_holder (l : κ) (u : τ) : s'.lockHolder l = some u ↔ l ∈ s'.held u := by
  have here : s.At t i := ⟨rest, todo⟩
  rw [ran.lockHolder_eq l]
  rcases eq_or_ne u t with rfl | ne
  · rw [ran.mem_held_iff l, ← h.holder l u]
    split_ifs with set clear
    · simp [set]
    · simp [clear]
    · simp [set, clear]
  · rw [ran.held_of_ne ne]
    -- the thread that sets or clears the holder is busy, and the other is not
    have alone (busy : s.Busy l t) : l ∉ s.held u := fun held => ne ((h.busy busy).2 u (.inl held))
    split_ifs with set clear
    · subst set
      simp [Ne.symm ne, alone (.inr (.inl here))]
    · subst clear
      simp [alone (.inl (h.ready t _ here))]
    · exact h.holder l u

theorem executed : s'.Sound user where
  semaphores := h.ran_semaphores ran
  concerned := h.ran_concerned ran todo
  ordered u := by
    rcases eq_or_ne u t with rfl | ne
    · exact ran.ordered todo (h.ordered u)
    · rw [ran.todo_of_ne ne]
      exact h.ordered u
  ready := h.ran_ready ran todo
  exclusive := h.ran_exclusive ran todo
  holder := h.ran_holder ran todo

end

theorem step {e : Event τ σ κ γ} (done : s.step e = some s') : s'.Sound user := by
  rcases step_cases done with ⟨t, f, -, idle, rfl⟩ | ⟨t, i, rest, -, todo, ran⟩
  · exact h.called idle f
  · exact h.executed ran todo

omit h in
theorem of_reach {allowed : State τ σ κ γ → Event τ σ κ γ → Prop} (reach : Reach (program user) allowed s) :
    s.Sound user := by
  refine reach.invariant (fun s => s.Sound user) ?_ ?_
  · rintro s rfl
    exact sound_initial user
  · intro s e s' sound _ done
    exact sound.step done

end Sound

/-- What `Acquire` and `Release` promise. -/
structure LockCorrect (s : State τ σ κ γ) (l : κ) : Prop where
  exclusive : ∀ t u, l ∈ s.held t → l ∈ s.held u → t = u
  holder : ∀ t, l ∈ s.held t ↔ s.lockHolder l = some t

theorem Sound.lockCorrect [DecidableEq τ] {user : σ → ℕ} (h : s.Sound user) (l : κ) : s.LockCorrect l where
  exclusive _ u first second := ((h.busy (.inl first)).2 u (.inl second)).symm
  holder t := (h.holder l t).symm

end State

end

end Nachos.Mp3.Synch
