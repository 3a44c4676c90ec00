import Nachos.Mp3.Waiting

/-!
# The time a thread has run

The kernel's runs with a counter for every thread, of the ticks it has spent as the running
thread since it last blocked or was created. `use_Time` is that counter while a thread is
ready, and with the current burst while it runs, until a thread yields and no other is ready:
`Yield` then adds the burst to `use_Time` and returns to the same burst.
-/

namespace Nachos.Mp3
open Transition

/-- The kernel, with the ticks each thread has run since it last blocked. -/
structure Metered where
  kernel : Kernel
  cpu : ThreadPtr → Nat

namespace Metered

/-- The ticks that a step charges to a thread. In the loop of `Sleep` no thread runs. -/
def spent (k : Kernel) : Event → ThreadPtr → Nat
  | .tick n, t => if k.phase = .running ∧ t = k.currentThread then n else 0
  | _, _ => 0

def created : Event → ThreadPtr → Bool
  | .fork u _ _, t => u = t
  | _, _ => false

/-- The counters after a step. -/
def advance (c : Metered) (e : Event) (k' : Kernel) : Metered where
  kernel := k'
  cpu t := if (k'.threads t).status = .blocked ∨ created e t then 0 else c.cpu t + spent c.kernel e t

/-- The use times are the counters. -/
structure Accounted (c : Metered) : Prop where
  ready : ∀ t ∈ c.kernel.live, (c.kernel.threads t).status = .ready → (c.kernel.threads t).useTime = c.cpu t
  running : ∀ t ∈ c.kernel.live, (c.kernel.threads t).status = .running →
    (c.kernel.threads t).useTime + (c.kernel.totalTicks - (c.kernel.threads t).burstStartTime) = c.cpu t

/-- A thread that stops running has the mean of its old estimate and the time it has run. -/
def Estimates (c : Metered) (k' : Kernel) : Prop :=
  ∀ t ∈ c.kernel.live, t ∈ k'.live → (c.kernel.threads t).status = .running → (k'.threads t).status = .blocked →
    (k'.threads t).burstTime = 0.5 * (c.kernel.threads t).burstTime + 0.5 * c.cpu t

end Metered

/-- The runs of the kernel, with counters. -/
def meteredSystem : Transition.System Metered Event where
  init c := kernelSystem.init c.kernel ∧ c.cpu = fun _ => 0
  step c e c' := ∃ k', kernelSystem.step c.kernel e k' ∧ c' = c.advance e k'

/-- The step calls `Yield`. -/
def Kernel.Yielding (k : Kernel) : Event → Prop
  | .yield => True
  | .interruptReturn => k.yieldOnReturn = true
  | _ => False

/-- A thread that yields does so for another one, or at the tick at which its burst began. -/
def NotAlone (c : Metered) (e : Event) : Prop :=
  c.kernel.Yielding e → c.kernel.ready ≠ [] ∨
    (c.kernel.threads c.kernel.currentThread).burstStartTime = c.kernel.totalTicks

/-! ## What the operations do to the times -/

/-- The times of a thread in a step, with what it was at the start of the step. -/
structure Booked (old : Thread) (now c : Nat) (th : Thread) : Prop where
  ready : th.status = .ready → th.useTime = c
  running : th.status = .running →
    th.useTime + (now - th.burstStartTime) = c ∧ (old.status = .running → th.burstTime = old.burstTime)
  blocked : th.status = .blocked →
    th.useTime = 0 ∧ (old.status = .running → th.burstTime = 0.5 * old.burstTime + 0.5 * c)

namespace Booked

variable {old th : Thread} {now c : Nat}

theorem of_ready (status : th.status = .ready) (used : th.useTime = c) : Booked old now c th where
  ready _ := used
  running wrong := by
    rw [status] at wrong
    cases wrong
  blocked wrong := by
    rw [status] at wrong
    cases wrong

theorem of_running (status : th.status = .running) (used : th.useTime + (now - th.burstStartTime) = c)
    (estimate : old.status = .running → th.burstTime = old.burstTime) : Booked old now c th where
  ready wrong := by
    rw [status] at wrong
    cases wrong
  running _ := ⟨used, estimate⟩
  blocked wrong := by
    rw [status] at wrong
    cases wrong

theorem of_blocked (status : th.status = .blocked) (used : th.useTime = 0)
    (estimate : old.status = .running → th.burstTime = 0.5 * old.burstTime + 0.5 * c) : Booked old now c th where
  ready wrong := by
    rw [status] at wrong
    cases wrong
  running wrong := by
    rw [status] at wrong
    cases wrong
  blocked _ := ⟨used, estimate⟩

end Booked

/-- The times of all threads that are there. -/
def Books (old k : Kernel) (cpu : ThreadPtr → Nat) : Prop :=
  ∀ t ∈ k.live, Booked (old.threads t) k.totalTicks (cpu t) (k.threads t)

/-- The threads of the ready queues are ready, and were at the start of the step. -/
def Waits (old k : Kernel) : Prop := ∀ ℓ, ∀ t ∈ k.readyList ℓ, (k.threads t).status = .ready ∧ (old.threads t).status = .ready

namespace Books
open Kernel

variable {old k k' : Kernel} {cpu cpu' : ThreadPtr → Nat} {place : ThreadPtr → Place} {t : ThreadPtr} {s : SemaphorePtr} {fin : Bool}

/-- One thread is written to. -/
theorem modify (books : Books old k cpu) (live : k'.live = k.live) (ticks : k'.totalTicks = k.totalTicks)
    (others : ∀ u, u ≠ t → k'.threads u = k.threads u)
    (self : t ∈ k.live → Booked (old.threads t) k.totalTicks (cpu t) (k'.threads t)) : Books old k' cpu := by
  intro u hu
  rw [live] at hu
  rw [ticks]
  by_cases same : u = t
  · subst same
    exact self hu
  · rw [others u same]
    exact books u hu

theorem switch (books : Books old k cpu) (ready : (k.threads t).status = .ready) (waited : (old.threads t).status = .ready) :
    Books old (k.switch t) cpu := by
  have others : ∀ u, u ≠ t → (k.switch t).threads u = k.threads u := fun u ne => Function.update_of_ne ne ..
  refine books.modify rfl rfl others fun live => ?_
  rw [switch_threads, Function.update_self]
  refine .of_running rfl ?_ fun run => ?_
  · simp only [sub_self, add_zero]
    exact (books t live).ready ready
  · rw [waited] at run
    cases run

theorem run (books : Books old k cpu) (ready : (k.threads t).status = .ready) (waited : (old.threads t).status = .ready)
    (done : k.run t fin = .ok k') : Books old k' cpu := by
  unfold Kernel.run at done
  dsimp only at done
  split at done
  · split at done
    · cases done
    · cases done
      exact switch (k := { k with toBeDestroyed := some k.currentThread }) books ready waited
  · cases done
    exact books.switch ready waited

theorem poll (books : Books old k cpu) (waits : Waits old k) (done : k.poll fin = .ok k') : Books old k' cpu := by
  obtain ⟨r, found, next⟩ := findNextToRun_ok k
  rw [Kernel.poll, found] at done
  cases next with
  | none _ =>
    cases done
    exact books
  | @front ℓ t l front _ =>
    change (k.dequeued ℓ t).run t fin = .ok k' at done
    obtain ⟨ready, waited⟩ := waits ℓ t (by rw [front]; exact List.mem_cons_self)
    exact run (k := k.dequeued ℓ t) books ready waited done

/-- The thread that sleeps notes its burst. -/
theorem sleep (books : Books old k cpu) (waits : Waits old k) (runs : (k.threads k.currentThread).status = .running)
    (done : k.sleep fin = .ok k') : Books old k' cpu := by
  have others : ∀ u, u ≠ k.currentThread → (k.modify k.currentThread (asleep k.totalTicks)).threads u = k.threads u :=
    fun u ne => Function.update_of_ne ne ..
  have noted : Books old (k.modify k.currentThread (asleep k.totalTicks)) cpu := by
    refine books.modify rfl rfl others fun live => ?_
    obtain ⟨used, estimate⟩ := (books _ live).running runs
    rw [modify_threads, Function.update_self]
    refine .of_blocked rfl rfl fun run => ?_
    rw [← estimate run, ← used]
    rfl
  apply noted.poll _ done
  intro ℓ t mem
  have ne : t ≠ k.currentThread := by
    rintro rfl
    have ready := (waits ℓ _ mem).1
    rw [runs] at ready
    cases ready
  rw [others t ne]
  exact waits ℓ t mem

theorem semaphoreP (books : Books old k cpu) (waits : Waits old k) (runs : (k.threads k.currentThread).status = .running)
    (done : k.semaphoreP s = .ok k') : Books old k' cpu := by
  unfold Kernel.semaphoreP at done
  dsimp only at done
  split at done
  · obtain ⟨queue, -, done⟩ := bind_ok done
    exact sleep (k := (k.setSemaphore s { k.semaphores s with queue := queue }).setResume k.currentThread (.wait s))
      books waits runs done
  · cases done
    exact books

/-- A thread that has its time in `use_Time` becomes ready. -/
theorem enqueued (books : Books old k cpu) (used : t ∈ k.live → (k.threads t).useTime = cpu t) : Books old (k.enqueued t) cpu := by
  have others : ∀ u, u ≠ t → (k.enqueued t).threads u = k.threads u := by
    intro u ne
    rw [enqueued_threads, Function.update_of_ne ne]
  refine books.modify rfl rfl others fun live => ?_
  rw [enqueued_threads, Function.update_self]
  exact .of_ready rfl (used live)

theorem fork (h : Settled k place) (fresh : t ∉ k.live) (books : Books old k cpu) (zero : cpu t = 0) {threadID : Nat} {P : Int}
    (done : k.fork t threadID P = .ok k') : Books old k' cpu := by
  rw [h.fork_eq fresh] at done
  cases done
  intro u hu
  rw [enqueued_threads]
  by_cases same : u = t
  · subst same
    rw [Function.update_self, zero]
    refine .of_ready rfl ?_
    rw [newborn, setResume_threads, modify_threads, Function.update_self]
    rfl
  · rw [Function.update_of_ne same, newborn, setResume_threads, modify_threads, Function.update_of_ne same]
    exact books u ((Finset.mem_insert.1 hu).resolve_left same)

theorem semaphoreV (h : Settled k place) (books : Books old k cpu)
    (asleep : ∀ t ∈ k.live, (k.threads t).status = .blocked → cpu t = 0) (done : k.semaphoreV s = .ok k') : Books old k' cpu := by
  rw [Kernel.semaphoreV] at done
  cases waiting : (k.semaphores s).queue with
  | nil =>
    rw [waiting] at done
    cases done
    exact books
  | cons t l =>
    have at_t : place t = .queued (.waiting s) := (h.mem (.waiting s) t).1 (by simp [waiting])
    have blocked : (k.threads t).status = .blocked := by
      rw [h.status t (by simp [at_t]), at_t]
      rfl
    have free : ∀ ℓ, t ∉ (k.setSemaphore s { k.semaphores s with queue := l }).readyList ℓ := by
      intro ℓ mem
      have at_t' := (h.mem (.ready ℓ) t).1 mem
      rw [at_t] at at_t'
      cases at_t'
    rw [waiting, if_pos (by simp), removeFront] at done
    change (do
      let k ← (k.setSemaphore s { k.semaphores s with queue := l }).readyToRun t
      pure (k.setSemaphore s { k.semaphores s with value := (k.semaphores s).value + 1 })) = .ok k' at done
    rw [readyToRun_eq free] at done
    cases done
    refine enqueued (k := k.setSemaphore s { k.semaphores s with queue := l }) books fun live => ?_
    change (k.threads t).useTime = _
    rw [((books t live).blocked blocked).1, asleep t live blocked, Nat.cast_zero]

/-- The threads of the queues of a kernel that stands between two steps. -/
theorem waits (h : Settled k place) : Waits k k := by
  intro ℓ t mem
  have ready := (Clocked.isReady_iff h).2 (mem_ready.2 ⟨ℓ, mem⟩)
  exact ⟨ready.2, ready.2⟩

theorem runs (h : Settled k place) (phase : ∀ b, k.phase ≠ .idling b) : (k.threads k.currentThread).status = .running := by
  have here := h.current phase
  rw [h.status _ (by simp [here]), here]
  rfl

theorem yield (h : Settled k place) (phase : k.phase = .running) (books : Books k k cpu)
    (ok : k.ready ≠ [] ∨ (k.threads k.currentThread).burstStartTime = k.totalTicks) (done : k.yield = .ok k') : Books k k' cpu := by
  have running : (k.threads k.currentThread).status = .running := runs h (by simp [phase])
  cases h.yields phase with
  | alone empty eq =>
    have none : k.ready = [] := by simp [Kernel.ready, empty]
    have fresh := ok.resolve_left fun some => some none
    rw [eq] at done
    cases done
    have others : ∀ u, u ≠ k.currentThread → k.charged.threads u = k.threads u := fun u ne => Function.update_of_ne ne ..
    refine books.modify rfl rfl others fun live => ?_
    obtain ⟨used, -⟩ := (books _ live).running running
    rw [charged, modify_threads, Function.update_self]
    rw [fresh, sub_self, add_zero] at used
    refine .of_running running ?_ fun _ => rfl
    rw [fresh, sub_self, add_zero, add_zero]
    exact used
  | hands ℓ t mem _ ne _ eq =>
    have others : ∀ u, u ≠ k.currentThread → (k.yielding ℓ t).threads u = k.threads u := by
      intro u ne
      rw [yielding, setResume_threads, enqueued_threads, Function.update_of_ne ne]
      exact Function.update_of_ne ne ..
    have back : Books k (k.yielding ℓ t) cpu := by
      refine books.modify rfl rfl others fun live => ?_
      obtain ⟨used, -⟩ := (books _ live).running running
      rw [yielding, setResume_threads, enqueued_threads, Function.update_self]
      refine .of_ready rfl ?_
      change (k.charged.threads k.currentThread).useTime = _
      rw [charged, modify_threads, Function.update_self]
      exact used
    obtain ⟨ready, waited⟩ := waits h ℓ t mem
    rw [eq] at done
    exact back.run (by rw [others t ne]; exact ready) waited done

/-- Deleting the carcass writes to no thread. -/
theorem checkToBeDestroyed (books : Books old k cpu) (done : k.checkToBeDestroyed = .ok k') :
    Books old { k' with phase := .running } cpu ∧ k'.threads = k.threads ∧ k'.readyList = k.readyList ∧
      k'.currentThread = k.currentThread := by
  unfold Kernel.checkToBeDestroyed at done
  split at done
  · cases done
    exact ⟨books, rfl, rfl, rfl⟩
  · split at done
    · cases done
    · cases done
      exact ⟨fun u hu => books u (Finset.mem_of_mem_erase hu), rfl, rfl, rfl⟩

theorem switchedTo (h : Settled k place) (phase : k.phase = .switched) (books : Books k k cpu) (done : k.switchedTo = .ok k') :
    Books k k' cpu := by
  have running : (k.threads k.currentThread).status = .running := runs h (by simp [phase])
  unfold Kernel.switchedTo at done
  obtain ⟨k₁, checked, done⟩ := bind_ok done
  obtain ⟨here, threads, lists, current⟩ := books.checkToBeDestroyed checked
  dsimp only at done
  split at done
  · cases done
    exact here
  · cases done
    exact here
  · apply here.semaphoreP _ _ done
    · intro ℓ t mem
      change t ∈ k₁.readyList ℓ at mem
      change (k₁.threads t).status = _ ∧ _
      rw [lists] at mem
      rw [threads]
      exact waits h ℓ t mem
    · change (k₁.threads k₁.currentThread).status = _
      rw [threads, current]
      exact running

/-- `UpdatePriority` changes no time. -/
theorem visit (h : Settled k place) (books : Books old k cpu) {ℓ : Level} (mem : t ∈ k.readyList ℓ) (visited : Visit k ℓ t k') :
    Books old k' cpu := by
  have aged : Books old (k.aged t) cpu := by
    have others : ∀ u, u ≠ t → (k.aged t).threads u = k.threads u := fun u ne => Function.update_of_ne ne ..
    refine books.modify rfl rfl others fun live => ?_
    obtain ⟨w, n, p, eq⟩ := Thread.aging_eq k.totalTicks ((k.totalTicks : Int) - (k.threads t).waitStartTime) (k.threads t)
    have times := books t live
    rw [aged_threads, Function.update_self, agedThread, eq]
    exact ⟨times.ready, times.running, times.blocked⟩
  cases visited with
  | stays _ => exact aged
  | requeued _ =>
    refine enqueued (k := (k.aged t).dequeued ℓ t) aged fun live => (aged t live).ready ?_
    rw [aged_threads, Function.update_self, agedThread, Thread.aging_status]
    exact (waits h ℓ t mem).1

/-- **A step** in which no thread yields alone. -/
theorem step (h : Settled k place) (books : Books k k cpu) (asleep : ∀ t ∈ k.live, (k.threads t).status = .blocked → cpu t = 0)
    {e : Event} (enabled : k.Enabled e) (noTick : ∀ n, e ≠ .tick n) (fresh : ∀ t, Metered.created e t = true → cpu t = 0)
    (ok : k.Yielding e → k.ready ≠ [] ∨ (k.threads k.currentThread).burstStartTime = k.totalTicks) (done : k.step e = .ok k') :
    Books k k' cpu := by
  cases e with
  | tick n => exact absurd rfl (noTick n)
  | fork t threadID P => exact books.fork h enabled.2 (fresh t (decide_eq_true rfl)) done
  | newSemaphore s v =>
    cases done
    exact books
  | semaphoreP s => exact books.semaphoreP (waits h) (runs h (by simp [show k.phase = .running from enabled])) done
  | semaphoreV s => exact books.semaphoreV h asleep done
  | yield => exact books.yield h enabled (ok trivial) done
  | finish => exact books.sleep (waits h) (runs h (by simp [show k.phase = .running from enabled])) done
  | alarm =>
    obtain ⟨k₁, flag, place', run, -, kept, -, -⟩ := h.callBack (fun k₁ => Books k k₁ cpu) books
      fun ℓ k₁ t k₂ here books mem visited => here.elim fun _ settled => books.visit settled mem visited
    rw [Kernel.step, run] at done
    cases done
    exact kept
  | interruptReturn =>
    change k.interruptReturn = _ at done
    unfold Kernel.interruptReturn at done
    split at done
    · rename_i flag
      have settled : Settled { k with yieldOnReturn := false } place :=
        h.congr (fun r => by cases r <;> rfl) rfl (fun _ => rfl) rfl rfl rfl
      exact yield (k := { k with yieldOnReturn := false }) settled enabled books (ok flag) done
    · cases done
      exact books
  | poll => exact books.poll (waits h) done
  | switchedTo => exact books.switchedTo h enabled done

end Books

/-! ## Runs -/

/-- The times and counters between two steps. -/
structure Metered.Counted (c : Metered) : Prop where
  settled : ∃ place, Settled c.kernel place
  books : Books c.kernel c.kernel c.cpu
  blocked : ∀ t ∈ c.kernel.live, (c.kernel.threads t).status = .blocked → c.cpu t = 0

namespace Metered.Counted
open Kernel

variable {c c' : Metered} {e : Event} {k' : Kernel} {place : ThreadPtr → Place}

theorem accounted (h : c.Counted) : c.Accounted where
  ready t live status := (h.books t live).ready status
  running t live status := ((h.books t live).running status).1

theorem init (start : meteredSystem.init c) : c.Counted := by
  obtain ⟨⟨main, values, eq⟩, zero⟩ := start
  refine ⟨⟨_, by rw [eq]; exact Settled.initial main values⟩, ?_, fun t _ _ => by rw [zero]⟩
  rw [eq, zero]
  intro t live
  obtain rfl := Finset.mem_singleton.1 live
  rw [Kernel.initial]
  dsimp only
  rw [Function.update_self]
  refine .of_running rfl ?_ fun _ => rfl
  change (0 : ℚ) + ((0 : ℕ) - 0) = ((0 : ℕ) : ℚ)
  simp

/-- A thread whose status is RUNNING is the one that runs. -/
theorem place_running {k : Kernel} {t : ThreadPtr} (h : Settled k place) (live : t ∈ k.live) (running : (k.threads t).status = .running) :
    place t = .running := by
  rw [h.status t ((h.live t).1 live)] at running
  cases at_t : place t with
  | absent =>
    rw [at_t] at running
    cases running
  | held =>
    rw [at_t] at running
    cases running
  | running => rfl
  | finished =>
    rw [at_t] at running
    cases running
  | queued q =>
    rw [at_t] at running
    cases q with
    | ready ℓ => cases running
    | waiting s => cases running

/-- The clock charges the running thread. -/
theorem tick (h : c.Counted) {n : Nat} (enabled : c.kernel.Enabled (.tick n)) :
    Books c.kernel { c.kernel with totalTicks := c.kernel.totalTicks + n }
      (c.advance (.tick n) { c.kernel with totalTicks := c.kernel.totalTicks + n }).cpu := by
  obtain ⟨place, settled⟩ := h.settled
  intro t live
  have times := h.books t live
  have charged : (c.kernel.threads t).status ≠ .blocked →
      (c.advance (.tick n) { c.kernel with totalTicks := c.kernel.totalTicks + n }).cpu t =
        c.cpu t + if c.kernel.phase = .running ∧ t = c.kernel.currentThread then n else 0 := by
    intro awake
    simp only [advance, created, awake, spent, Bool.false_eq_true, or_self, if_false]
  constructor
  · intro ready
    have other : ¬ (c.kernel.phase = .running ∧ t = c.kernel.currentThread) := by
      rintro ⟨phase, rfl⟩
      change (c.kernel.threads c.kernel.currentThread).status = _ at ready
      rw [Books.runs settled (by simp [phase])] at ready
      cases ready
    rw [charged (by rw [show (c.kernel.threads t).status = .ready from ready]; decide), if_neg other, add_zero]
    exact times.ready ready
  · intro running
    obtain ⟨current, awake⟩ := (settled.running t).1 (place_running settled live running)
    have phase : c.kernel.phase = .running := by
      cases stands : c.kernel.phase with
      | running => rfl
      | idling b => exact absurd stands (awake b)
      | switched => exact absurd stands enabled
    refine ⟨?_, fun _ => rfl⟩
    rw [charged (by rw [show (c.kernel.threads t).status = .running from running]; decide), if_pos ⟨phase, current⟩]
    have used := (times.running running).1
    change (c.kernel.threads t).useTime + (((c.kernel.totalTicks + n : ℕ) : ℚ) - (c.kernel.threads t).burstStartTime) = _
    push_cast
    linarith
  · intro blocked
    refine ⟨(times.blocked blocked).1, fun running => ?_⟩
    change (c.kernel.threads t).status = .blocked at blocked
    rw [blocked] at running
    cases running

/-- The threads that a step creates have run for no time. -/
def fresh (c : Metered) (e : Event) (t : ThreadPtr) : Nat := if created e t then 0 else c.cpu t

theorem fresh_eq (enabled : c.kernel.Enabled e) {t : ThreadPtr} (live : t ∈ c.kernel.live) : fresh c e t = c.cpu t := by
  cases e with
  | fork u threadID P =>
    have ne : u ≠ t := by
      rintro rfl
      exact enabled.2 live
    exact if_neg (by simpa [created] using ne)
  | _ => rfl

theorem books_fresh (h : c.Counted) (enabled : c.kernel.Enabled e) : Books c.kernel c.kernel (fresh c e) := by
  intro t live
  rw [fresh_eq enabled live]
  exact h.books t live

/-- **A step but that of the clock.** -/
theorem other (h : c.Counted) (ok : NotAlone c e) (enabled : c.kernel.Enabled e) (noTick : ∀ n, e ≠ .tick n)
    (done : c.kernel.step e = .ok k') : Books c.kernel k' (fresh c e) := by
  obtain ⟨place, settled⟩ := h.settled
  apply (h.books_fresh enabled).step settled _ enabled noTick _ ok done
  · intro t live blocked
    rw [fresh, h.blocked t live blocked, ite_self]
  · intro t made
    exact if_pos made

theorem spent_other (k : Kernel) (noTick : ∀ n, e ≠ .tick n) (t : ThreadPtr) : spent k e t = 0 := by
  cases e with
  | tick n => exact absurd rfl (noTick n)
  | _ => rfl

/-- **Every step** in which no thread yields alone keeps the counters. -/
theorem step (h : c.Counted) (ok : NotAlone c e) (run : meteredSystem.step c e c') : c'.Counted := by
  obtain ⟨k', ⟨enabled, done⟩, rfl⟩ := run
  obtain ⟨place, settled⟩ := h.settled
  obtain ⟨k'', place', done', settled'⟩ := settled.next enabled
  rw [done] at done'
  cases done'
  have zero : ∀ t, (k'.threads t).status = .blocked → (c.advance e k').cpu t = 0 := fun t blocked => if_pos (.inl blocked)
  refine ⟨⟨place', settled'⟩, ?_, fun t _ => zero t⟩
  intro t live
  by_cases clock : ∃ n, e = .tick n
  · obtain ⟨n, rfl⟩ := clock
    cases done
    have times := h.tick enabled t live
    exact ⟨times.ready, fun running => ⟨(times.running running).1, fun _ => rfl⟩,
      fun blocked => ⟨(times.blocked blocked).1, fun running => by
        change (c.kernel.threads t).status = _ at running
        rw [show (c.kernel.threads t).status = .blocked from blocked] at running
        cases running⟩⟩
  · have noTick : ∀ n, e ≠ .tick n := fun n eq => clock ⟨n, eq⟩
    have times := h.other ok enabled noTick done t live
    have kept : (k'.threads t).status ≠ .blocked → (c.advance e k').cpu t = fresh c e t := by
      intro awake
      simp only [advance, awake, false_or, spent_other c.kernel noTick, add_zero, fresh]
    constructor
    · intro ready
      change (k'.threads t).status = .ready at ready
      rw [kept (by rw [ready]; decide)]
      exact times.ready ready
    · intro running
      change (k'.threads t).status = .running at running
      rw [kept (by rw [running]; decide)]
      exact ⟨(times.running running).1, fun _ => rfl⟩
    · intro blocked
      refine ⟨(times.blocked blocked).1, fun running => ?_⟩
      change (k'.threads t).status = _ at running
      rw [show (k'.threads t).status = .blocked from blocked] at running
      cases running

theorem of_reach (reach : Reach meteredSystem NotAlone c) : c.Counted :=
  reach.invariant Counted (fun _ => init) fun _ _ _ h ok run => h.step ok run

/-- With no other thread ready `Yield` returns. -/
theorem yield_alone {k : Kernel} (h : Settled k place) (phase : k.phase = .running) (empty : k.ready = []) :
    k.yield = .ok k.charged := by
  cases h.yields phase with
  | alone _ eq => exact eq
  | hands ℓ t mem _ _ _ _ =>
    have ready : t ∈ k.ready := mem_ready.2 ⟨ℓ, mem⟩
    rw [empty] at ready
    cases ready

/-- What a thread that yields alone leaves. -/
theorem alone (h : c.Counted) (wrong : ¬ NotAlone c e) (enabled : c.kernel.Enabled e) (done : c.kernel.step e = .ok k') :
    c.kernel.phase = .running ∧ c.kernel.live = k'.live ∧ k'.threads = c.kernel.charged.threads ∧
      k'.totalTicks = c.kernel.totalTicks ∧ (c.kernel.threads c.kernel.currentThread).burstStartTime ≠ c.kernel.totalTicks := by
  obtain ⟨place, settled⟩ := h.settled
  rw [NotAlone, Classical.not_imp, not_or, not_not] at wrong
  obtain ⟨yielding, empty, late⟩ := wrong
  cases e with
  | yield =>
    have returned : c.kernel.yield = .ok k' := done
    rw [yield_alone settled enabled empty] at returned
    cases returned
    exact ⟨enabled, rfl, rfl, rfl, late⟩
  | interruptReturn =>
    have settled' : Settled { c.kernel with yieldOnReturn := false } place :=
      settled.congr (fun r => by cases r <;> rfl) rfl (fun _ => rfl) rfl rfl rfl
    have flag : c.kernel.yieldOnReturn = true := yielding
    change c.kernel.interruptReturn = _ at done
    rw [Kernel.interruptReturn, if_pos flag, yield_alone settled' enabled empty] at done
    cases done
    exact ⟨enabled, rfl, rfl, rfl, late⟩
  | _ => exact yielding.elim

/-- The burst that `Yield` has added is counted again. -/
theorem not_accounted_of_alone (h : c.Counted) (wrong : ¬ NotAlone c e) (run : meteredSystem.step c e c') : ¬ c'.Accounted := by
  obtain ⟨k', ⟨enabled, done⟩, rfl⟩ := run
  obtain ⟨place, settled⟩ := h.settled
  obtain ⟨phase, live, threads, ticks, late⟩ := h.alone wrong enabled done
  have here := settled.current (by simp [phase])
  have there : c.kernel.currentThread ∈ c.kernel.live := (settled.live _).2 (by simp [here])
  have running := Books.runs settled (by simp [phase])
  have used := ((h.books _ there).running running).1
  have now : k'.threads c.kernel.currentThread = c.kernel.charged.threads c.kernel.currentThread := congrFun threads _
  have status : (k'.threads c.kernel.currentThread).status = .running := by rw [now, charged_status, running]
  have noTick : ∀ n, e ≠ .tick n := by
    rintro n rfl
    exact wrong fun yielding => yielding.elim
  have notMade : created e c.kernel.currentThread = false := by
    cases e with
    | fork u threadID P => exact absurd (fun yielding => yielding.elim) wrong
    | _ => rfl
  intro accounted
  have twice := accounted.running c.kernel.currentThread (live ▸ there) status
  simp only [advance, status, notMade, spent_other c.kernel noTick, reduceCtorEq, Bool.false_eq_true, or_self, if_false,
    add_zero, ticks] at twice
  rw [now, charged, modify_threads, Function.update_self] at twice
  dsimp only at twice
  apply late
  linarith

/-- The estimate of a thread that goes to sleep is made from its counter. -/
theorem estimates (h : c.Counted) (run : meteredSystem.step c e c') : c.Estimates c'.kernel := by
  obtain ⟨k', ⟨enabled, done⟩, rfl⟩ := run
  intro t there live running blocked
  change (k'.threads t).status = _ at blocked
  by_cases ok : NotAlone c e
  · by_cases clock : ∃ n, e = .tick n
    · obtain ⟨n, rfl⟩ := clock
      cases done
      change (c.kernel.threads t).status = _ at blocked
      rw [running] at blocked
      cases blocked
    · have noTick : ∀ n, e ≠ .tick n := fun n eq => clock ⟨n, eq⟩
      have estimate := ((h.other ok enabled noTick done t live).blocked blocked).2 running
      rw [fresh_eq enabled there] at estimate
      exact estimate
  · obtain ⟨-, -, threads, -, -⟩ := h.alone ok enabled done
    rw [threads, charged_status, running] at blocked
    cases blocked

end Metered.Counted

/-- **CPU time accounting.** In the runs in which no thread yields alone in the middle of a burst the
use times are the counters; a step keeps that exactly when it is not such a yield. -/
theorem cpu_accounting {c : Metered} (reach : Reach meteredSystem NotAlone c) : c.Accounted ∧
    ∀ e c', meteredSystem.step c e c' → (c'.Accounted ↔ NotAlone c e) ∧ c.Estimates c'.kernel := by
  have counted := Metered.Counted.of_reach reach
  refine ⟨counted.accounted, fun e c' run => ⟨⟨fun accounted => ?_, fun ok => (counted.step ok run).accounted⟩, counted.estimates run⟩⟩
  by_contra wrong
  exact counted.not_accounted_of_alone wrong run accounted

/-- The main thread at the start. -/
def meteredStart : Metered := ⟨Kernel.initial 0 fun _ => 0, fun _ => 0⟩

instance (k : Kernel) (e : Event) : Decidable (k.Yielding e) :=
  match e with
  | .yield => .isTrue trivial
  | .interruptReturn => inferInstanceAs (Decidable (_ = _))
  | .tick _ | .fork _ _ _ | .newSemaphore _ _ | .semaphoreP _ | .semaphoreV _ | .finish | .alarm | .poll | .switchedTo =>
    .isFalse id

instance (c : Metered) (e : Event) : Decidable (NotAlone c e) := inferInstanceAs (Decidable (_ → _))

/-- One step of the kernel with its counters. -/
def Metered.exec (c : Metered) (e : Event) : Option Metered := (c.kernel.exec e).map (c.advance e)

theorem Metered.exec_some {c c' : Metered} {e : Event} (done : c.exec e = some c') : meteredSystem.step c e c' := by
  obtain ⟨k', ran, rfl⟩ := Option.map_eq_some_iff.1 done
  exact ⟨k', Kernel.exec_some ran, rfl⟩

/-- The main thread runs for ten ticks and yields to thread 1, which runs for thirty. -/
def twoBursts : List Event := [.fork 1 1 60, .tick 10, .yield, .switchedTo, .tick 30]

def notAlone (c : Metered) (e : Event) : Bool := decide (NotAlone c e)

theorem twoBursts_isSome : (twoBursts.foldlM (tested Metered.exec notAlone) meteredStart).isSome := by decide +kernel

def afterBursts : Metered := (twoBursts.foldlM (tested Metered.exec notAlone) meteredStart).get twoBursts_isSome

theorem sleep_isSome : (afterBursts.exec (.semaphoreP 7)).isSome := by decide +kernel

/-- Thread 1 sleeps. -/
def afterSleep : Metered := (afterBursts.exec (.semaphoreP 7)).get sleep_isSome

theorem cpu_accounting_afterBursts : afterBursts.Accounted ∧ afterBursts.cpu 0 = 10 ∧ afterBursts.cpu 1 = 30 ∧
    afterSleep.Accounted ∧ afterSleep.cpu 1 = 0 ∧ (afterSleep.kernel.threads 1).burstTime = 15 := by
  have start : Reach meteredSystem NotAlone meteredStart := .init ⟨⟨0, _, rfl⟩, rfl⟩
  have reach : Reach meteredSystem NotAlone afterBursts :=
    start.checked Metered.exec notAlone (fun _ _ _ => Metered.exec_some) (fun _ _ => of_decide_eq_true)
      twoBursts (Option.some_get twoBursts_isSome).symm
  have slept : meteredSystem.step afterBursts (.semaphoreP 7) afterSleep := Metered.exec_some (Option.some_get sleep_isSome).symm
  obtain ⟨accounted, next⟩ := cpu_accounting reach
  obtain ⟨kept, estimates⟩ := next _ _ slept
  have estimate := estimates 1 (by decide +kernel) (by decide +kernel) (by decide +kernel) (by decide +kernel)
  have quiet : NotAlone afterBursts (.semaphoreP 7) := fun yielding => yielding.elim
  refine ⟨accounted, by decide +kernel, by decide +kernel, kept.2 quiet, by decide +kernel, ?_⟩
  rw [estimate, show afterBursts.cpu 1 = 30 by decide +kernel, show (afterBursts.kernel.threads 1).burstTime = 0 by decide +kernel]
  norm_num

/-- It has run for ten ticks. -/
def tenTicks : Metered := meteredStart.advance (.tick 10) { meteredStart.kernel with totalTicks := 10 }

theorem reach_tenTicks : Reach meteredSystem NotAlone tenTicks := by
  have start : Reach meteredSystem NotAlone meteredStart := .init ⟨⟨0, _, rfl⟩, rfl⟩
  have ticked : meteredSystem.step meteredStart (.tick 10) tenTicks := ⟨_, ⟨(by decide : Phase.running ≠ .switched), rfl⟩, rfl⟩
  have quiet : NotAlone meteredStart (.tick 10) := fun yielding => yielding.elim
  exact start.step quiet ticked

/-- Ten ticks and a `Yield` with no other thread. -/
theorem counted_twice : ∃ c, Reach meteredSystem (fun _ _ => True) c ∧ ¬ c.Accounted := by
  have counted := Metered.Counted.of_reach reach_tenTicks
  obtain ⟨place, settled⟩ := counted.settled
  have yielded : meteredSystem.step tenTicks .yield (tenTicks.advance .yield tenTicks.kernel.charged) :=
    ⟨_, ⟨rfl, Metered.Counted.yield_alone settled rfl rfl⟩, rfl⟩
  have wrong : ¬ NotAlone tenTicks .yield := by
    intro ok
    obtain some | fresh := ok trivial
    · exact some rfl
    · exact absurd fresh (by decide)
  have reach : Reach meteredSystem (fun _ _ => True) tenTicks := reach_tenTicks.mono fun _ _ _ _ => trivial
  exact ⟨_, reach.step trivial yielded, counted.not_accounted_of_alone wrong yielded⟩

end Nachos.Mp3
