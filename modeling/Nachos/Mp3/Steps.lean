import Nachos.Mp3.Placement

/-!
# One step of the kernel

`Settled k place` holds between two steps: the placement is that of the queues, the status
of every thread is that of its place, and who runs and who has finished is what the kernel
has noted. Every step but the alarm keeps it, no assertion fails in one, and what it does
to the ready queues is a sequence of `Moves`.
-/

namespace Nachos.Mp3

/-- Between two steps. -/
structure Settled (k : Kernel) (place : ThreadPtr → Place) : Prop extends Kernel.Placed k place where
  status : ∀ t, place t ≠ .absent → (k.threads t).status = (place t).status
  held : ∀ t, place t ≠ .held
  running : ∀ t, place t = .running ↔ t = k.currentThread ∧ ∀ b, k.phase ≠ .idling b
  finished : ∀ t, place t = .finished ↔ k.toBeDestroyed = some t ∨ (k.phase = .idling true ∧ t = k.currentThread)
  destroying : k.toBeDestroyed ≠ none → k.phase = .switched

/-- What a step does to the ready queues: threads outside them are written to, enter and
leave them. A thread that enters was in none at the start. -/
inductive Moves (k₀ : Kernel) : Kernel → Prop where
  | refl : Moves k₀ k₀
  | edit {k : Kernel} {t : ThreadPtr} (f : Thread → Thread) :
      Moves k₀ k → (∀ ℓ, t ∉ k.readyList ℓ) → Moves k₀ (k.modify t f)
  | enqueue {k : Kernel} {t : ThreadPtr} : Moves k₀ k → (∀ ℓ, t ∉ k.readyList ℓ) → (∀ ℓ, t ∉ k₀.readyList ℓ) →
      Moves k₀ (k.enqueued t)
  | dequeue {k : Kernel} {ℓ : Level} {t : ThreadPtr} : Moves k₀ k → t ∈ k.readyList ℓ → Moves k₀ (k.dequeued ℓ t)
  | other {k k' : Kernel} : Moves k₀ k → k'.threads = k.threads → k'.readyList = k.readyList →
      k'.totalTicks = k.totalTicks → Moves k₀ k'

/-- Where a sequence of moves starts, the clock, the threads and the queues count. -/
theorem Moves.of_eq {k₀ k₁ k : Kernel} (moves : Moves k₁ k) (threads : k₁.threads = k₀.threads)
    (lists : k₁.readyList = k₀.readyList) (ticks : k₁.totalTicks = k₀.totalTicks) : Moves k₀ k := by
  induction moves with
  | refl => exact Moves.refl.other threads lists ticks
  | edit f _ free ih => exact ih.edit f free
  | enqueue _ free free₀ ih => exact ih.enqueue free (by rw [← lists]; exact free₀)
  | dequeue _ mem ih => exact ih.dequeue mem
  | other _ h1 h2 h3 ih => exact ih.other h1 h2 h3

/-- What `Fork` makes before it calls `ReadyToRun`. -/
def Kernel.newborn (k : Kernel) (t : ThreadPtr) (threadID : Nat) (P : Int) : Kernel :=
  (({ k with live := insert t k.live } : Kernel).modify t fun _ => Thread.create threadID P).setResume t .start

/-- An operation that returns, to a state between two steps. -/
def Steps (k : Kernel) (result : Exec Kernel) : Prop :=
  ∃ k' place', result = .ok k' ∧ Settled k' place' ∧ Moves k k'

namespace Settled
open Kernel

variable {k k' : Kernel} {place : ThreadPtr → Place} {t u : ThreadPtr} {ℓ : Level} {s : SemaphorePtr} {fin : Bool}

theorem current (h : Settled k place) (phase : ∀ b, k.phase ≠ .idling b) : place k.currentThread = .running :=
  (h.running _).2 ⟨rfl, phase⟩

theorem free_of_running (h : place t = .running) : (place t).Free := by
  rw [h]
  trivial

theorem not_ready (h : Kernel.Placed k place) (free : (place t).Free) (ℓ : Level) : t ∉ k.readyList ℓ :=
  h.not_mem free (.ready ℓ)

theorem noneDestroyed (h : Settled k place) (phase : k.phase ≠ .switched) : k.toBeDestroyed = none := by
  by_contra hd
  exact phase (h.destroying hd)

/-- The thread that `Run` switches to is the only one held, and no other thread runs. -/
structure Dispatching (k : Kernel) (place : ThreadPtr → Place) (t : ThreadPtr) (fin : Bool) : Prop
    extends Kernel.Placed k place where
  next : place t = .held
  status : ∀ u, u ≠ t → place u ≠ .absent → (k.threads u).status = (place u).status
  others : ∀ u, u ≠ t → place u ≠ .held ∧ place u ≠ .running
  finished : ∀ u, place u = .finished ↔ fin = true ∧ u = k.currentThread
  none : k.toBeDestroyed = none

theorem Dispatching.run (h : Dispatching k place t fin) :
    ∃ k', k.run t fin = .ok k' ∧ Settled k' (Function.update place t .running) ∧
      ∀ start, Moves start k → Moves start k' := by
  have placed : ∀ k', (∀ r, k'.queue r = k.queue r) → k'.live = k.live →
      Kernel.Placed k' (Function.update place t .running) :=
    fun k' => h.relabel (by rw [h.next]; trivial) trivial
  have settled : ∀ k', k'.threads = (k.switch t).threads → (∀ r, k'.queue r = k.queue r) → k'.live = k.live →
      k'.currentThread = t → k'.phase = .switched →
      (∀ u, u ≠ t → (k'.toBeDestroyed = some u ↔ fin = true ∧ u = k.currentThread)) → k'.toBeDestroyed ≠ some t →
      Settled k' (Function.update place t .running) := by
    intro k' threads queues live current phase destroy next
    refine ⟨placed k' queues live, ?_, ?_, ?_, ?_, fun _ => phase⟩
    · intro u hu
      rw [threads, switch_threads]
      rcases eq_or_ne u t with rfl | ne
      · rw [Function.update_self, Function.update_self]
        rfl
      · rw [Function.update_of_ne ne] at hu ⊢
        rw [Function.update_of_ne ne]
        exact h.status u ne hu
    · intro u
      rcases eq_or_ne u t with rfl | ne
      · simp
      · rw [Function.update_of_ne ne]
        exact (h.others u ne).1
    · intro u
      rw [current, phase]
      rcases eq_or_ne u t with rfl | ne
      · simp
      · simpa [ne] using (h.others u ne).2
    · intro u
      rw [phase]
      rcases eq_or_ne u t with rfl | ne
      · simpa using next
      · simpa [ne, destroy u ne] using h.finished u
  have moves : ∀ k', k'.threads = (k.switch t).threads → k'.readyList = k.readyList → k'.totalTicks = k.totalTicks →
      ∀ start, Moves start k → Moves start k' := by
    intro k' threads lists ticks start moves
    have out := not_ready h.toPlaced (t := t) (by rw [h.next]; trivial)
    exact (moves.edit (fun th => { th with status := .running, burstStartTime := k.totalTicks, waitTime := 0 }) out).other
      threads lists ticks
  cases fin with
  | false =>
    refine ⟨k.switch t, rfl, settled _ rfl (fun r => by cases r <;> rfl) rfl rfl rfl ?_ ?_, moves _ rfl rfl rfl⟩
    · simp [h.none]
    · simp [h.none]
  | true =>
    refine ⟨{ k with toBeDestroyed := some k.currentThread }.switch t, ?_,
      settled _ rfl (fun r => by cases r <;> rfl) rfl rfl rfl ?_ ?_, moves _ rfl rfl rfl⟩
    · simp [Kernel.run, h.none]
      rfl
    · intro u _
      simp [eq_comm]
    · have fin := (h.finished k.currentThread).2 ⟨rfl, rfl⟩
      simp only [switch_toBeDestroyed, ne_eq, Option.some.injEq]
      rintro rfl
      rw [h.next] at fin
      cases fin

/-- The loop test of a thread that sleeps. -/
theorem poll (h : Settled { k with phase := .idling fin } place) (start : Kernel) (moves : Moves start k) :
    ∃ k' place', k.poll fin = .ok k' ∧ Settled k' place' ∧ Moves start k' := by
  have none : k.toBeDestroyed = none := h.noneDestroyed (by simp)
  obtain ⟨r, eq, next⟩ := findNextToRun_ok k
  rw [Kernel.poll, eq]
  cases next with
  | none _ => exact ⟨_, place, rfl, h, moves.other rfl rfl rfl⟩
  | @front ℓ t l front _ =>
    have mem : t ∈ k.readyList ℓ := by simp [front]
    have at_t : place t = .queued (.ready ℓ) := (h.mem (.ready ℓ) t).1 mem
    have dispatching : Dispatching (k.dequeued ℓ t) (Function.update place t .held) t fin := by
      have placed : Kernel.Placed k place := h.toPlaced.congr (fun r => by cases r <;> rfl) rfl
      refine ⟨placed.dequeued mem, by simp, ?_, ?_, ?_, none⟩
      · intro u ne hu
        rw [Function.update_of_ne ne] at hu ⊢
        exact h.status u hu
      · intro u ne
        rw [Function.update_of_ne ne]
        exact ⟨h.held u, fun run => ((h.running u).1 run).2 fin rfl⟩
      · intro u
        rcases eq_or_ne u t with rfl | ne
        · have := h.finished u
          simp only [at_t, none, reduceCtorEq, false_or, false_iff, Phase.idling.injEq] at this
          simpa using this
        · simpa [ne, none] using h.finished u
    obtain ⟨k', run, settled, kept⟩ := dispatching.run
    exact ⟨k', _, run, settled, kept _ (moves.dequeue mem)⟩

/-- The current thread stops running: to finish, or to wait for a semaphore. -/
theorem sleep {p : Place} (h : Settled k place) (phase : k.phase = .running)
    (placed : Kernel.Placed k' (Function.update place k.currentThread p))
    (same : k'.threads = k.threads ∧ k'.readyList = k.readyList ∧ k'.totalTicks = k.totalTicks ∧
      k'.currentThread = k.currentThread ∧ k'.toBeDestroyed = k.toBeDestroyed)
    (blocked : p.status = .blocked) (finishing : fin = true ↔ p = .finished) (start : Kernel) (moves : Moves start k) :
    ∃ k'' place', k'.sleep fin = .ok k'' ∧ Settled k'' place' ∧ Moves start k'' := by
  obtain ⟨threads, lists, ticks, current, destroyed⟩ := same
  have none : k.toBeDestroyed = none := h.noneDestroyed (by simp [phase])
  have runs := h.current (by simp [phase])
  have out : ∀ ℓ, k.currentThread ∉ k'.readyList ℓ := by
    intro ℓ
    rw [lists]
    exact not_ready h.toPlaced (free_of_running runs) ℓ
  rw [Kernel.sleep, current]
  suffices here : Settled { k'.modify k.currentThread (asleep k'.totalTicks) with phase := .idling fin }
      (Function.update place k.currentThread p) from here.poll start ((moves.other threads lists ticks).edit _ out)
  refine ⟨placed.congr (fun r => by cases r <;> rfl) rfl, ?_, ?_, ?_, ?_, by simp [destroyed, none]⟩
  · intro u hu
    rw [modify_threads]
    rcases eq_or_ne u k.currentThread with rfl | ne
    · rw [Function.update_self, Function.update_self, blocked]
      rfl
    · rw [Function.update_of_ne ne] at hu ⊢
      rw [Function.update_of_ne ne, threads]
      exact h.status u hu
  · intro u
    rcases eq_or_ne u k.currentThread with rfl | ne
    · rw [Function.update_self]
      rintro rfl
      cases blocked
    · rw [Function.update_of_ne ne]
      exact h.held u
  · intro u
    rcases eq_or_ne u k.currentThread with rfl | ne
    · rw [Function.update_self]
      refine iff_of_false ?_ (by simp)
      rintro rfl
      cases blocked
    · rw [Function.update_of_ne ne, h.running]
      exact iff_of_false (fun hu => ne hu.1) (by simp)
  · intro u
    simp only [modify_currentThread, modify_toBeDestroyed, destroyed, none, current]
    rcases eq_or_ne u k.currentThread with rfl | ne
    · simp [finishing]
    · rw [Function.update_of_ne ne, h.finished]
      simp [ne, none]

theorem finish (h : Settled k place) (phase : k.phase = .running) : Steps k k.finish := by
  have runs := h.current (by simp [phase])
  have gone : Kernel.Placed k (Function.update place k.currentThread .finished) :=
    h.relabel (free_of_running runs) trivial (fun _ => rfl) rfl
  exact h.sleep phase gone ⟨rfl, rfl, rfl, rfl, rfl⟩ rfl (by simp) k .refl

theorem semaphoreP (h : Settled k place) (phase : k.phase = .running) (start : Kernel) (moves : Moves start k) :
    ∃ k' place', k.semaphoreP s = .ok k' ∧ Settled k' place' ∧ Moves start k' := by
  have runs := h.current (by simp [phase])
  have out : k.currentThread ∉ (k.semaphores s).queue := h.not_mem (free_of_running runs) (.waiting s)
  rw [Kernel.semaphoreP]
  by_cases zero : (k.semaphores s).value = 0
  · rw [if_pos zero, append_eq out]
    apply h.sleep phase (p := .queued (.waiting s))
    · refine h.enqueue (free_of_running runs) ?_ ?_ rfl
      · simp
      · rintro (ℓ | r) hr
        · rfl
        · simp only [ne_eq, Slot.waiting.injEq] at hr
          simp [hr]
    · exact ⟨rfl, rfl, rfl, rfl, rfl⟩
    · rfl
    · simp
    · exact moves
  · rw [if_neg zero]
    refine ⟨_, place, rfl, ?_, moves.other rfl rfl rfl⟩
    refine ⟨h.congr ?_ rfl, h.status, h.held, h.running, h.finished, h.destroying⟩
    rintro (ℓ | r)
    · rfl
    · rcases eq_or_ne r s with rfl | hr
      · simp
      · simp [hr]

/-- A thread becomes ready while the current one goes on. -/
theorem enqueued {place₁ : ThreadPtr → Place} {k₁ : Kernel} (h : Settled k place)
    (placed : Kernel.Placed k₁ (Function.update place t .held)) (at_t : place t ≠ .running ∧ place t ≠ .finished)
    (eq : place₁ = Function.update place t (.queued (.ready (level (k₁.threads t).priority))))
    (threads : ∀ u, u ≠ t → k₁.threads u = k.threads u)
    (same : k₁.currentThread = k.currentThread ∧ k₁.phase = k.phase ∧ k₁.toBeDestroyed = k.toBeDestroyed) :
    Settled (k₁.enqueued t) place₁ := by
  subst eq
  obtain ⟨current, phase, destroyed⟩ := same
  have here := placed.enqueued (t := t) (by rw [Function.update_self]; trivial)
  rw [Function.update_idem] at here
  refine ⟨here, ?_, ?_, ?_, ?_, ?_⟩
  · intro u hu
    rw [enqueued_threads]
    rcases eq_or_ne u t with rfl | ne
    · rw [Function.update_self, Function.update_self]
      rfl
    · rw [Function.update_of_ne ne] at hu ⊢
      rw [Function.update_of_ne ne, threads u ne]
      exact h.status u hu
  · intro u
    rcases eq_or_ne u t with rfl | ne
    · simp
    · simpa [ne] using h.held u
  · intro u
    rw [enqueued_currentThread, enqueued_phase, current, phase, ← h.running]
    rcases eq_or_ne u t with rfl | ne
    · simp [at_t.1]
    · simp [ne]
  · intro u
    rw [enqueued_currentThread, enqueued_phase, enqueued_toBeDestroyed, current, phase, destroyed, ← h.finished]
    rcases eq_or_ne u t with rfl | ne
    · simp [at_t.2]
    · simp [ne]
  · rw [enqueued_phase, enqueued_toBeDestroyed, phase, destroyed]
    exact h.destroying

/-- Only the values of semaphores, or nothing at all, changed. -/
theorem congr (h : Settled k place) (queues : ∀ r, k'.queue r = k.queue r) (live : k'.live = k.live)
    (status : ∀ t, (k'.threads t).status = (k.threads t).status) (current : k'.currentThread = k.currentThread)
    (phase : k'.phase = k.phase) (destroyed : k'.toBeDestroyed = k.toBeDestroyed) : Settled k' place := by
  refine ⟨h.toPlaced.congr queues live, ?_, h.held, ?_, ?_, ?_⟩
  · intro t ht
    rw [status]
    exact h.status t ht
  · rw [current, phase]
    exact h.running
  · rw [current, phase, destroyed]
    exact h.finished
  · rw [phase, destroyed]
    exact h.destroying

theorem semaphoreV (h : Settled k place) : Steps k (k.semaphoreV s) := by
  rw [Kernel.semaphoreV]
  rcases eq : (k.semaphores s).queue with _ | ⟨t, l⟩
  · refine ⟨_, place, rfl, ?_, Moves.refl.other rfl rfl rfl⟩
    refine h.congr ?_ rfl (fun _ => rfl) rfl rfl rfl
    rintro (ℓ | r)
    · rfl
    · rcases eq_or_ne r s with rfl | hr
      · simp
      · simp [hr]
  · have at_t : place t = .queued (.waiting s) := (h.mem (.waiting s) t).1 (by simp [eq])
    have placed : Kernel.Placed (k.setSemaphore s { k.semaphores s with queue := l }) (Function.update place t .held) := by
      refine h.dequeue (q := .waiting s) (by simp [eq]) (by simp [eq]) ?_ rfl
      rintro (ℓ | r) hr
      · rfl
      · simp only [ne_eq, Slot.waiting.injEq] at hr
        simp [hr]
    set k₁ := k.setSemaphore s { k.semaphores s with queue := l } with hk₁
    have settled := h.enqueued (t := t) placed (by simp [at_t]) rfl (fun _ _ => rfl) ⟨rfl, rfl, rfl⟩
    have free := not_ready placed (t := t) (by rw [Function.update_self]; trivial)
    have out : ∀ ℓ, t ∉ k.readyList ℓ := free
    have moves : Moves k k₁ := Moves.refl.other rfl rfl rfl
    rw [if_pos (by simp), removeFront]
    change ∃ k' place', (do
      let k ← k₁.readyToRun t
      pure (k.setSemaphore s { k.semaphores s with value := (k.semaphores s).value + 1 })) = .ok k' ∧ _ ∧ _
    rw [readyToRun_eq free]
    refine ⟨_, _, rfl, settled.congr ?_ rfl (fun _ => rfl) rfl rfl rfl, (moves.enqueue free out).other rfl rfl rfl⟩
    · rintro (ℓ | r)
      · rfl
      · rcases eq_or_ne r s with rfl | hr
        · simp
        · simp [hr]

/-- A new thread is in no queue. -/
theorem newborn_placed (h : Settled k place) (fresh : t ∉ k.live) (threadID : Nat) (P : Int) :
    Kernel.Placed (k.newborn t threadID P) (Function.update place t .held) :=
  h.appear fresh (fun r => by cases r <;> rfl) rfl

theorem fork_eq (h : Settled k place) (fresh : t ∉ k.live) (threadID : Nat) (P : Int) :
    k.fork t threadID P = .ok ((k.newborn t threadID P).enqueued t) := by
  have free := not_ready (h.newborn_placed fresh threadID P) (t := t) (by rw [Function.update_self]; trivial)
  exact readyToRun_eq free

theorem fork (h : Settled k place) (fresh : t ∉ k.live) {threadID : Nat} {P : Int} : Steps k (k.fork t threadID P) := by
  have absent : place t = .absent := by simpa [h.live] using fresh
  have placed := h.newborn_placed fresh threadID P
  have settled := h.enqueued (t := t) placed (by simp [absent]) rfl
    (fun u hu => by simp [newborn, hu]) ⟨rfl, rfl, rfl⟩
  have free := not_ready placed (t := t) (by rw [Function.update_self]; trivial)
  have start : Moves k { k with live := insert t k.live } := Moves.refl.other rfl rfl rfl
  have created : Moves k (k.newborn t threadID P) := (start.edit (fun _ => Thread.create threadID P) free).other rfl rfl rfl
  exact ⟨_, _, h.fork_eq fresh threadID P, settled, created.enqueue free free⟩

/-- `Yield` returns, or switches to the front of the highest queue. -/
inductive Yields (k : Kernel) : Prop where
  | alone (empty : ∀ ℓ, k.readyList ℓ = []) (eq : k.yield = .ok k.charged)
  | hands (ℓ : Level) (t : ThreadPtr) (mem : t ∈ k.readyList ℓ) (above : ∀ ℓ', ℓ'.index < ℓ.index → k.readyList ℓ' = [])
      (ne : t ≠ k.currentThread) (free : ∀ ℓ', k.currentThread ∉ (k.charged.dequeued ℓ t).readyList ℓ')
      (eq : k.yield = (k.yielding ℓ t).run t false)

theorem yields (h : Settled k place) (phase : k.phase = .running) : Yields k := by
  have out := not_ready h.toPlaced (free_of_running (h.current (by simp [phase])))
  obtain ⟨r, eq, next⟩ := findNextToRun_ok k.charged
  cases next with
  | none empty =>
    refine .alone empty ?_
    rw [Kernel.yield]
    change (do let r ← k.charged.findNextToRun; _) = _
    rw [eq]
    rfl
  | @front ℓ t l front above =>
    have mem : t ∈ k.readyList ℓ := by
      change t ∈ k.charged.readyList ℓ
      rw [front]
      exact List.mem_cons_self
    have free (ℓ' : Level) : k.currentThread ∉ (k.charged.dequeued ℓ t).readyList ℓ' := by
      rw [dequeued_readyList]
      rcases eq_or_ne ℓ' ℓ with rfl | other
      · rw [Function.update_self]
        exact fun here => out ℓ' (List.mem_of_mem_erase here)
      · rw [Function.update_of_ne other]
        exact out ℓ'
    refine .hands ℓ t mem above (fun same => out ℓ (same ▸ mem)) free ?_
    rw [Kernel.yield]
    change (do let r ← k.charged.findNextToRun; _) = _
    rw [eq]
    change (do
      let k₂ ← (k.charged.dequeued ℓ t).readyToRun k.currentThread
      (k₂.setResume k.currentThread .yield).run t false) = _
    rw [readyToRun_eq free]
    rfl

/-- The thread a placement calls running gives way to the first ready one, if there is one. -/
theorem yield (h : Settled k place) (phase : k.phase = .running) : Steps k k.yield := by
  have runs := h.current (by simp [phase])
  have none : k.toBeDestroyed = none := h.noneDestroyed (by simp [phase])
  have out := not_ready h.toPlaced (free_of_running runs)
  have settled : Settled k.charged place := h.congr (fun r => by cases r <;> rfl) rfl charged_status rfl rfl rfl
  have moves : Moves k k.charged := Moves.refl.edit _ out
  cases h.yields phase with
  | alone _ eq => exact ⟨_, place, eq, settled, moves⟩
  | hands ℓ t mem _ ne free eq =>
    have placed := settled.dequeued mem
    have here : Function.update place t .held k.currentThread = .running := by rw [Function.update_of_ne ne.symm, runs]
    have entered := placed.enqueued (free_of_running here)
    have dispatching : Dispatching (k.yielding ℓ t)
        (Function.update (Function.update place t .held) k.currentThread
          (.queued (.ready (level ((k.charged.dequeued ℓ t).threads k.currentThread).priority)))) t false := by
      refine ⟨entered.congr (fun r => by cases r <;> rfl) rfl, ?_, ?_, ?_, ?_, none⟩
      · rw [Function.update_of_ne ne, Function.update_self]
      · intro u hu hp
        rw [Kernel.yielding, setResume_threads, enqueued_threads]
        rcases eq_or_ne u k.currentThread with rfl | hc
        · rw [Function.update_self, Function.update_self]
          rfl
        · rw [Function.update_of_ne hc, Function.update_of_ne hu] at hp
          rw [Function.update_of_ne hc, Function.update_of_ne hc, Function.update_of_ne hu]
          exact settled.status u hp
      · intro u hu
        rcases eq_or_ne u k.currentThread with rfl | hc
        · simp
        · rw [Function.update_of_ne hc, Function.update_of_ne hu]
          exact ⟨settled.held u, fun run => hc ((settled.running u).1 run).1⟩
      · intro u
        refine iff_of_false ?_ (by simp)
        rcases eq_or_ne u k.currentThread with rfl | hc
        · simp
        rcases eq_or_ne u t with rfl | hu
        · simp [hc]
        rw [Function.update_of_ne hc, Function.update_of_ne hu, h.finished]
        simp [none, phase]
    obtain ⟨k', run, settled', kept⟩ := dispatching.run
    exact ⟨k', _, eq.trans run, settled', kept _ (((moves.dequeue mem).enqueue free out).other rfl rfl rfl)⟩

theorem interruptReturn (h : Settled k place) (phase : k.phase = .running) : Steps k k.interruptReturn := by
  rw [Kernel.interruptReturn]
  split
  · have settled : Settled { k with yieldOnReturn := false } place :=
      h.congr (fun r => by cases r <;> rfl) rfl (fun _ => rfl) rfl rfl rfl
    obtain ⟨k', place', run, settled', moves⟩ := settled.yield phase
    exact ⟨k', place', run, settled', moves.of_eq rfl rfl rfl⟩
  · exact ⟨k, place, rfl, h, .refl⟩

/-- The carcass of a thread that has finished is deleted. -/
theorem checkToBeDestroyed (h : Settled k place) (phase : k.phase = .switched) : ∃ k₁ place₁,
    k.checkToBeDestroyed = .ok k₁ ∧ Settled { k₁ with phase := .running } place₁ ∧ Moves k { k₁ with phase := .running } := by
  have runs := h.current (by simp [phase])
  rw [Kernel.checkToBeDestroyed]
  rcases eq : k.toBeDestroyed with _ | d
  · refine ⟨k, place, rfl, ⟨h.toPlaced.congr (fun r => by cases r <;> rfl) rfl, h.status, h.held, ?_, ?_, ?_⟩,
      Moves.refl.other rfl rfl rfl⟩
    · intro t
      rw [h.running, phase]
      simp
    · intro t
      rw [h.finished, phase]
      simp
    · simp [eq]
  · have done : place d = .finished := (h.finished d).2 (.inl eq)
    have ne : d ≠ k.currentThread := by
      rintro rfl
      rw [runs] at done
      cases done
    have free : (place d).Free := by
      rw [done]
      trivial
    simp only [if_neg ne]
    refine ⟨_, Function.update place d .absent, rfl,
      ⟨h.vanish free (fun r => by cases r <;> rfl) rfl, ?_, ?_, ?_, ?_, by simp⟩, Moves.refl.other rfl rfl rfl⟩
    · intro t ht
      rcases eq_or_ne t d with rfl | hd
      · simp at ht
      · rw [Function.update_of_ne hd] at ht ⊢
        exact h.status t ht
    · intro t
      rcases eq_or_ne t d with rfl | hd
      · simp
      · simpa [hd] using h.held t
    · intro t
      rcases eq_or_ne t d with rfl | hd
      · simp [ne]
      · rw [Function.update_of_ne hd, h.running, phase]
        simp
    · intro t
      rcases eq_or_ne t d with rfl | hd
      · simp
      · rw [Function.update_of_ne hd, h.finished, eq, phase]
        simp [hd.symm]

/-- The thread that was switched to goes on. -/
theorem switchedTo (h : Settled k place) (phase : k.phase = .switched) : Steps k k.switchedTo := by
  obtain ⟨k₁, place₁, run, settled, moves⟩ := h.checkToBeDestroyed phase
  rw [Kernel.switchedTo, run]
  cases resume : k₁.resume k₁.currentThread with
  | start =>
    refine ⟨{ k₁ with phase := .running }, place₁, ?_, settled, moves⟩
    simp only [bind, Except.bind, resume]
    rfl
  | yield =>
    refine ⟨{ k₁ with phase := .running }, place₁, ?_, settled, moves⟩
    simp only [bind, Except.bind, resume]
    rfl
  | wait s =>
    simp only [bind, Except.bind, resume]
    exact settled.semaphoreP rfl k moves

theorem newSemaphore (h : Settled k place) (unused : (k.semaphores s).queue = []) {v : Int} :
    Steps k (pure (k.setSemaphore s { value := v, queue := [] })) := by
  refine ⟨_, place, rfl, h.congr ?_ rfl (fun _ => rfl) rfl rfl rfl, Moves.refl.other rfl rfl rfl⟩
  rintro (ℓ | r)
  · rfl
  · rcases eq_or_ne r s with rfl | hr
    · simp [unused]
    · simp [hr]

/-- **Every step but the alarm and the clock.** -/
theorem steps (h : Settled k place) {e : Event} (enabled : k.Enabled e) (noAlarm : e ≠ .alarm)
    (noTick : ∀ n, e ≠ .tick n) : Steps k (k.step e) := by
  cases e with
  | tick n => exact absurd rfl (noTick n)
  | fork t threadID P => exact h.fork enabled.2
  | newSemaphore s v => exact h.newSemaphore enabled.2
  | semaphoreP s => exact h.semaphoreP enabled k .refl
  | semaphoreV s => exact h.semaphoreV
  | yield => exact h.yield enabled
  | finish => exact h.finish enabled
  | alarm => exact absurd rfl noAlarm
  | interruptReturn => exact h.interruptReturn enabled
  | poll =>
    obtain ⟨fin, phase⟩ := enabled
    have same : ({ k with phase := .idling fin } : Kernel) = k := by rw [← phase]
    have test : decide (k.phase = .idling true) = fin := by cases fin <;> simp [phase]
    rw [step, test]
    exact Settled.poll (by rw [same]; exact h) k .refl
  | switchedTo => exact h.switchedTo enabled

end Settled

end Nachos.Mp3
