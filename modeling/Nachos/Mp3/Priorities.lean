import Mathlib.Data.Fintype.EquivFin
import Nachos.Mp3.CommandLine
import Nachos.Mp3.Comparison

/-!
# The range of the priorities

A priority enters with a thread that `Exec` makes, and only `aging` changes it: it adds 10
and caps the sum at 149. In the runs of a command line all priorities lie in the range of
the three levels and none is ever lowered, as long as no priority above the cap is given.
`Exec` takes a priority that is not positive for none.
-/

namespace Nachos.Mp3
open Transition

/-- The priorities of the three levels. -/
def Kernel.InRange (k : Kernel) : Prop := ∀ t ∈ k.live, 0 ≤ (k.threads t).priority ∧ (k.threads t).priority ≤ 149

/-- No thread has a lower priority than before. -/
def Kernel.NoneLowered (k k' : Kernel) : Prop := ∀ t ∈ k.live, (k.threads t).priority ≤ (k'.threads t).priority

/-- The kernel, with the threads that `ExecAll` has still to make. -/
structure Launching where
  kernel : Kernel
  main : ThreadPtr
  pending : List CommandLine.Forked

/-- What a step makes of the programs. `ExecAll` of the main thread starts them in order; the threads of the
kernel's own tests have no priority. -/
inductive Launches (c : Launching) : Event → List CommandLine.Forked → Prop where
  | exec {t : ThreadPtr} {th : CommandLine.Forked} {rest : List CommandLine.Forked} : c.pending = th :: rest →
      c.kernel.currentThread = c.main → Launches c (.fork t th.threadID th.priority) rest
  | test {t : ThreadPtr} {threadID : ℕ} : Launches c (.fork t threadID 0) c.pending
  | other {e : Event} : (∀ t threadID P, e ≠ .fork t threadID P) → Launches c e c.pending

/-- The runs of a kernel that starts some programs. -/
def launchSystem (log : List CommandLine.Forked) : Transition.System Launching Event where
  init c := (∃ values, c.kernel = Kernel.initial c.main values) ∧ c.pending = log
  step c e c' := kernelSystem.step c.kernel e c'.kernel ∧ c'.main = c.main ∧ Launches c e c'.pending

/-- The states of all these runs. -/
abbrev Launched (log : List CommandLine.Forked) : Launching → Prop := Reach (launchSystem log) fun _ _ => True

/-- They are runs of the kernel. -/
theorem Launched.reachable {log : List CommandLine.Forked} {c : Launching} (reach : Launched log c) : Reachable c.kernel := by
  apply reach.invariant fun c => Reachable c.kernel
  · rintro c ⟨⟨values, eq⟩, -⟩
    exact .init ⟨c.main, values, eq⟩
  · intro c e c' h _ run
    exact h.step trivial run.1

/-! ## The operations write no priority -/

/-- The threads have the priorities they had, and none is new. -/
structure Steady (k k' : Kernel) : Prop where
  priority : ∀ t, (k'.threads t).priority = (k.threads t).priority
  live : k'.live ⊆ k.live

namespace Steady
open Kernel

variable {k k₁ k' : Kernel} {t : ThreadPtr} {s : SemaphorePtr} {fin : Bool}

theorem refl (k : Kernel) : Steady k k := ⟨fun _ => rfl, Finset.Subset.refl _⟩

theorem trans (h : Steady k k₁) (h' : Steady k₁ k') : Steady k k' :=
  ⟨fun t => (h'.priority t).trans (h.priority t), h'.live.trans h.live⟩

/-- Other parts of the state are written. -/
theorem of_threads (threads : k'.threads = k.threads) (live : k'.live = k.live) : Steady k k' :=
  ⟨fun t => by rw [threads], by rw [live]⟩

theorem modify {f : Thread → Thread} (same : (f (k.threads t)).priority = (k.threads t).priority) : Steady k (k.modify t f) := by
  refine ⟨fun u => ?_, Finset.Subset.refl _⟩
  rw [modify_threads]
  by_cases eq : u = t
  · subst eq
    rw [Function.update_self, same]
  · rw [Function.update_of_ne eq]

theorem readyToRun (done : k.readyToRun t = .ok k') : Steady k k' := by
  have marked : Steady k (k.markReady t) := modify rfl
  have queued : ∀ ℓ l, Steady k ((k.markReady t).setList ℓ l) := fun _ _ => marked.trans (of_threads rfl rfl)
  unfold Kernel.readyToRun at done
  dsimp only at done
  split at done
  · obtain ⟨l, -, done⟩ := bind_ok done
    cases done
    exact queued _ _
  · split at done
    · obtain ⟨l, -, done⟩ := bind_ok done
      cases done
      exact queued _ _
    · obtain ⟨l, -, done⟩ := bind_ok done
      cases done
      exact queued _ _

theorem switch (k : Kernel) (t : ThreadPtr) : Steady k (k.switch t) := by
  have ran : Steady k (k.modify t fun th => { th with status := .running, burstStartTime := k.totalTicks, waitTime := 0 }) := modify rfl
  exact ran.trans (of_threads rfl rfl)

theorem run (done : k.run t fin = .ok k') : Steady k k' := by
  unfold Kernel.run at done
  dsimp only at done
  split at done
  · split at done
    · cases done
    · cases done
      exact (of_threads rfl rfl : Steady k { k with toBeDestroyed := some k.currentThread }).trans (switch _ t)
  · cases done
    exact switch k t

theorem poll (done : k.poll fin = .ok k') : Steady k k' := by
  obtain ⟨r, found, next⟩ := findNextToRun_ok k
  rw [Kernel.poll, found] at done
  cases next with
  | none _ =>
    cases done
    exact of_threads rfl rfl
  | @front ℓ t l _ _ =>
    have taken : Steady k (k.dequeued ℓ t) := of_threads rfl rfl
    exact taken.trans (run done)

theorem sleep (done : k.sleep fin = .ok k') : Steady k k' := by
  have noted : Steady k (k.modify k.currentThread (asleep k.totalTicks)) := modify rfl
  exact noted.trans (poll done)

theorem semaphoreP (done : k.semaphoreP s = .ok k') : Steady k k' := by
  unfold Kernel.semaphoreP at done
  dsimp only at done
  split at done
  · obtain ⟨queue, -, done⟩ := bind_ok done
    have waiting : Steady k ((k.setSemaphore s { k.semaphores s with queue := queue }).setResume k.currentThread (.wait s)) :=
      of_threads rfl rfl
    exact waiting.trans (sleep done)
  · cases done
    exact of_threads rfl rfl

theorem semaphoreV (done : k.semaphoreV s = .ok k') : Steady k k' := by
  unfold Kernel.semaphoreV at done
  dsimp only at done
  split at done
  · obtain ⟨⟨t, queue⟩, -, done⟩ := bind_ok done
    obtain ⟨k₁, woken, done⟩ := bind_ok done
    have taken : Steady k (k.setSemaphore s { k.semaphores s with queue := queue }) := of_threads rfl rfl
    cases done
    exact (taken.trans (readyToRun woken)).trans (of_threads rfl rfl)
  · cases done
    exact of_threads rfl rfl

theorem yield (done : k.yield = .ok k') : Steady k k' := by
  have charged : Steady k k.charged := modify rfl
  obtain ⟨r, found, next⟩ := findNextToRun_ok k.charged
  change (do let r ← k.charged.findNextToRun; _) = _ at done
  rw [found] at done
  cases next with
  | none _ =>
    cases done
    exact charged
  | @front ℓ t l _ _ =>
    change (do
      let k₁ ← (k.charged.dequeued ℓ t).readyToRun k.currentThread
      (k₁.setResume k.currentThread .yield).run t false) = _ at done
    obtain ⟨k₁, queued, done⟩ := bind_ok done
    have taken : Steady k (k.charged.dequeued ℓ t) := charged.trans (of_threads rfl rfl)
    have back : Steady k₁ (k₁.setResume k.currentThread .yield) := of_threads rfl rfl
    exact (taken.trans (readyToRun queued)).trans (back.trans (run done))

theorem checkToBeDestroyed (done : k.checkToBeDestroyed = .ok k') : Steady k k' := by
  unfold Kernel.checkToBeDestroyed at done
  split at done
  · cases done
    exact refl k
  · split at done
    · cases done
    · cases done
      exact ⟨fun _ => rfl, Finset.erase_subset _ _⟩

theorem switchedTo (done : k.switchedTo = .ok k') : Steady k k' := by
  unfold Kernel.switchedTo at done
  obtain ⟨k₁, checked, done⟩ := bind_ok done
  have running : Steady k { k₁ with phase := .running } := (checkToBeDestroyed checked).trans (of_threads rfl rfl)
  dsimp only at done
  split at done
  · cases done
    exact running
  · cases done
    exact running
  · exact running.trans (semaphoreP done)

theorem interruptReturn (done : k.interruptReturn = .ok k') : Steady k k' := by
  unfold Kernel.interruptReturn at done
  split at done
  · have cleared : Steady k { k with yieldOnReturn := false } := of_threads rfl rfl
    exact cleared.trans (yield done)
  · cases done
    exact refl k

/-- A step without an alarm and without a new thread. -/
theorem step {e : Event} (noAlarm : e ≠ .alarm) (noFork : ∀ t threadID P, e ≠ .fork t threadID P) (done : k.step e = .ok k') :
    Steady k k' := by
  cases e with
  | tick n =>
    cases done
    exact of_threads rfl rfl
  | fork t threadID P => exact absurd rfl (noFork t threadID P)
  | newSemaphore s v =>
    cases done
    exact of_threads rfl rfl
  | semaphoreP s => exact semaphoreP done
  | semaphoreV s => exact semaphoreV done
  | yield => exact yield done
  | finish => exact sleep done
  | alarm => exact absurd rfl noAlarm
  | interruptReturn => exact interruptReturn done
  | poll => exact poll done
  | switchedTo => exact switchedTo done

end Steady

/-! ## The steps raise priorities up to the cap -/

/-- A priority up to the cap stays there and does not fall. -/
def Raises (k k' : Kernel) : Prop := ∀ t, (k.threads t).priority ≤ 149 →
  (k.threads t).priority ≤ (k'.threads t).priority ∧ (k'.threads t).priority ≤ 149

namespace Raises
open Kernel

variable {k k₁ k' : Kernel} {place : ThreadPtr → Place} {t : ThreadPtr} {ℓ : Level} {e : Event}

theorem refl (k : Kernel) : Raises k k := fun _ cap => ⟨le_rfl, cap⟩

theorem trans (h : Raises k k₁) (h' : Raises k₁ k') : Raises k k' := by
  intro t cap
  obtain ⟨up, cap₁⟩ := h t cap
  obtain ⟨up', cap'⟩ := h' t cap₁
  exact ⟨up.trans up', cap'⟩

theorem of_steady (h : Steady k k') : Raises k k' := by
  intro t cap
  rw [h.priority]
  exact ⟨le_rfl, cap⟩

theorem visit (h : Visit k ℓ t k') : Raises k k' := by
  intro u cap
  by_cases same : u = t
  · subst same
    rw [h.self.priority]
    split
    · exact ⟨le_rfl, cap⟩
    · exact ⟨Thread.le_raised cap le_rfl, Thread.raised_le _⟩
  · rw [h.others same]
    exact ⟨le_rfl, cap⟩

/-- A step that makes no thread. -/
theorem step (h : Settled k place) (enabled : k.Enabled e) (noFork : ∀ t threadID P, e ≠ .fork t threadID P)
    (done : k.step e = .ok k') : Raises k k' ∧ k'.live ⊆ k.live := by
  by_cases alarm : e = .alarm
  · subst alarm
    obtain ⟨k₁, flag, place', called, updated, raises, -, -⟩ := h.callBack (Raises k) (refl k)
      fun ℓ k₁ t k₂ _ raises _ visited => raises.trans (visit visited)
    change k.callBack = _ at done
    rw [called] at done
    cases done
    refine ⟨raises, ?_⟩
    change k₁.live ⊆ k.live
    rw [updated.frame]
  · have steady := Steady.step alarm noFork done
    exact ⟨of_steady steady, steady.live⟩

end Raises

/-- A new thread has the priority it is made with. -/
theorem Kernel.newborn_priority (k : Kernel) (t : ThreadPtr) (threadID : ℕ) (P : ℤ) :
    (((k.newborn t threadID P).enqueued t).threads t).priority = P := by
  rw [enqueued_threads, Function.update_self, newborn, setResume_threads, modify_threads, Function.update_self]
  rfl

/-- What is needed of a priority. -/
def Allowed (P : ℤ) : Prop := 0 ≤ P ∧ P ≤ 149

/-- What the steps of the runs keep. -/
structure Launching.Sound (c : Launching) : Prop where
  settled : ∃ place, Settled c.kernel place
  inRange : c.kernel.InRange
  pending : ∀ th ∈ c.pending, Allowed th.priority

namespace Launching.Sound
open Kernel

variable {c c' : Launching} {e : Event} {log : List CommandLine.Forked} {t : ThreadPtr}

theorem init (allowed : ∀ th ∈ log, Allowed th.priority) (start : (launchSystem log).init c) : c.Sound := by
  obtain ⟨⟨values, eq⟩, pending⟩ := start
  refine ⟨⟨_, by rw [eq]; exact Settled.initial c.main values⟩, ?_, by rw [pending]; exact allowed⟩
  rw [eq]
  intro t live
  obtain rfl := Finset.mem_singleton.1 live
  rw [Kernel.initial]
  dsimp only
  rw [Function.update_self]
  exact ⟨le_rfl, by decide⟩

/-- A new thread leaves the others alone. -/
theorem fork (h : c.Sound) {k' : Kernel} {threadID : ℕ} {P : ℤ} (fresh : t ∉ c.kernel.live) (allowed : Allowed P)
    (done : c.kernel.fork t threadID P = .ok k') : k'.InRange ∧ c.kernel.NoneLowered k' := by
  obtain ⟨place, settled⟩ := h.settled
  rw [settled.fork_eq fresh] at done
  cases done
  have others : ∀ u, u ≠ t → ((c.kernel.newborn t threadID P).enqueued t).threads u = c.kernel.threads u := by
    intro u ne
    rw [enqueued_threads, Function.update_of_ne ne, newborn, setResume_threads, modify_threads, Function.update_of_ne ne]
  refine ⟨fun u live => ?_, fun u live => ?_⟩
  · by_cases same : u = t
    · subst same
      rw [newborn_priority]
      exact allowed
    · rw [others u same]
      exact h.inRange u ((Finset.mem_insert.1 live).resolve_left same)
  · have ne : u ≠ t := by
      rintro rfl
      exact fresh live
    rw [others u ne]

theorem step (h : c.Sound) (run : (launchSystem log).step c e c') : c'.Sound ∧ c.kernel.NoneLowered c'.kernel := by
  obtain ⟨⟨enabled, done⟩, -, launches⟩ := run
  obtain ⟨place, settled⟩ := h.settled
  have settled' : ∃ place, Settled c'.kernel place := by
    obtain ⟨k', place', done', settled'⟩ := settled.next enabled
    rw [done] at done'
    cases done'
    exact ⟨place', settled'⟩
  have kept : (c'.kernel.InRange ∧ c.kernel.NoneLowered c'.kernel) ∧ ∀ th ∈ c'.pending, Allowed th.priority := by
    generalize c'.pending = next at launches
    cases launches with
    | @exec t th rest pending _ =>
      have allowed := h.pending
      rw [pending] at allowed
      exact ⟨h.fork enabled.2 (allowed th List.mem_cons_self) done, fun th' mem => allowed th' (List.mem_cons_of_mem th mem)⟩
    | test => exact ⟨h.fork enabled.2 ⟨le_rfl, by decide⟩ done, h.pending⟩
    | other noFork =>
      obtain ⟨raises, live⟩ := Raises.step settled enabled noFork done
      refine ⟨⟨fun t mem => ?_, fun t mem => (raises t (h.inRange t mem).2).1⟩, h.pending⟩
      obtain ⟨low, cap⟩ := h.inRange t (live mem)
      obtain ⟨up, cap'⟩ := raises t cap
      exact ⟨low.trans up, cap'⟩
  exact ⟨⟨settled', kept.1.1, kept.2⟩, kept.1.2⟩

theorem of_launched (allowed : ∀ th ∈ log, Allowed th.priority) (reach : Launched log c) : c.Sound :=
  reach.invariant Sound (fun _ => init allowed) fun _ _ _ h _ run => (h.step run).1

end Launching.Sound

/-! ## A priority above the cap gets in -/

namespace Launching
open Kernel

variable {c : Launching} {log : List CommandLine.Forked} {th : CommandLine.Forked}

/-- The main thread runs, with some programs to start. -/
structure Ready (c : Launching) : Prop where
  settled : ∃ place, Settled c.kernel place
  phase : c.kernel.phase = .running
  main : c.kernel.currentThread = c.main

/-- `ExecAll` starts the next program. -/
theorem Ready.exec (h : c.Ready) {rest : List CommandLine.Forked} (pending : c.pending = th :: rest) :
    ∃ c' t, (launchSystem log).step c (.fork t th.threadID th.priority) c' ∧ c'.Ready ∧ c'.pending = rest ∧
      t ∈ c'.kernel.live ∧ (c'.kernel.threads t).priority = th.priority := by
  obtain ⟨place, settled⟩ := h.settled
  obtain ⟨t, fresh⟩ := Infinite.exists_notMem_finset c.kernel.live
  have forks : Steps c.kernel (c.kernel.fork t th.threadID th.priority) := settled.fork fresh
  obtain ⟨k', place', done, settled', -⟩ := forks
  have made := settled.fork_eq fresh th.threadID th.priority
  rw [done] at made
  cases made
  refine ⟨⟨_, c.main, rest⟩, t, ⟨⟨⟨h.phase, fresh⟩, done⟩, rfl, .exec pending h.main⟩, ⟨⟨place', settled'⟩, h.phase, h.main⟩, rfl,
    Finset.mem_insert_self .., newborn_priority ..⟩

/-- Every program is started in some run. -/
theorem Ready.started {before rest : List CommandLine.Forked} (reach : Launched log c) (h : c.Ready)
    (pending : c.pending = before ++ th :: rest) :
    ∃ c' t, Launched log c' ∧ t ∈ c'.kernel.live ∧ (c'.kernel.threads t).priority = th.priority := by
  induction before generalizing c with
  | nil =>
    obtain ⟨c', t, run, -, -, live, priority⟩ := h.exec pending
    exact ⟨c', t, reach.step trivial run, live, priority⟩
  | cons first before ih =>
    obtain ⟨c', t, run, ready, left, -, -⟩ := h.exec pending
    exact ih (reach.step trivial run) ready left

theorem started (mem : th ∈ log) : ∃ c t, Launched log c ∧ t ∈ c.kernel.live ∧ (c.kernel.threads t).priority = th.priority := by
  obtain ⟨before, rest, split⟩ := List.append_of_mem mem
  have start : (launchSystem log).init ⟨Kernel.initial 0 fun _ => 0, 0, log⟩ := ⟨⟨_, rfl⟩, rfl⟩
  have ready : Ready ⟨Kernel.initial 0 fun _ => 0, 0, log⟩ := ⟨⟨_, Settled.initial 0 _⟩, rfl, rfl⟩
  exact ready.started (.init start) split

end Launching

/-! ## The command line -/

namespace CommandLine

variable {argv : List String} {raw : Tables} {log : List Forked} {ps : List Program}

/-- A start that goes well makes the threads of the programs. -/
theorem boot_ok (accepted : boot argv raw = .ok log) : log = threads raw (programs argv) := by
  rcases Nat.lt_or_ge 9 (programs argv).length with many | fits
  · rw [boot_many many] at accepted
    cases accepted
  cases last : ending argv with
  | complete =>
    rw [boot_eq fits last] at accepted
    cases accepted
    rfl
  | asserted =>
    rw [boot_unfinished fits (e := .assertion) (by rw [last]; exact fun _ => rfl)] at accepted
    cases accepted
  | cut =>
    rw [boot_unfinished fits (e := .argv) (by rw [last]; exact fun _ => rfl)] at accepted
    cases accepted

/-- The priority of a program, or what stands in the table where none is given. -/
def entered (raw : Tables) (q : Program × ℕ) : ℤ := q.1.given.getD (raw.execPriority q.2)

theorem thread_allowed_iff {q : Program × ℕ} : Allowed (thread raw q).priority ↔ entered raw q ≤ 149 := by
  rw [thread, entered, Allowed]
  dsimp only
  split <;> omega

theorem threads_allowed_iff : (∀ th ∈ threads raw ps, Allowed th.priority) ↔ ∀ q ∈ ps.zipIdx 1, entered raw q ≤ 149 := by
  simp only [threads, List.forall_mem_map, thread_allowed_iff]

end CommandLine

open CommandLine in
/-- **Priorities.** In all runs of a command line that the kernel accepts the priorities lie in the range and
no step lowers one, exactly when no priority above 149 is entered. -/
theorem priorities_iff {argv : List String} {raw : Tables} {log : List Forked} (accepted : boot argv raw = .ok log) :
    (∀ c, Launched log c → c.kernel.InRange ∧ ∀ e c', (launchSystem log).step c e c' → c.kernel.NoneLowered c'.kernel) ↔
      ∀ q ∈ (programs argv).zipIdx 1, entered raw q ≤ 149 := by
  rw [← threads_allowed_iff, ← boot_ok accepted]
  constructor
  · intro sound th mem
    obtain ⟨c, t, reach, live, priority⟩ := Launching.started mem
    have inRange := (sound c reach).1 t live
    rw [priority] at inRange
    exact inRange
  · intro allowed c reach
    have sound := Launching.Sound.of_launched allowed reach
    exact ⟨sound.inRange, fun _ _ run => (sound.step run).2⟩

/-- A kernel whose tables were zero. -/
def zeroTables : CommandLine.Tables := ⟨fun _ => "", fun _ => 0, 0⟩

open CommandLine in
theorem boot_one (P : String) : boot ["nachos", "-ep", "prog", P] zeroTables =
    .ok [⟨"prog", 1, if atoi P > 0 then atoi P else 0⟩] := by
  rw [boot_eq (by exact Nat.le_add_left 1 8) rfl]
  rfl

open CommandLine in
theorem priorities_iff_one : (∀ c, Launched [⟨"prog", 1, 60⟩] c →
      c.kernel.InRange ∧ ∀ e c', (launchSystem [⟨"prog", 1, 60⟩]).step c e c' → c.kernel.NoneLowered c'.kernel) ↔
    ∀ q ∈ (programs ["nachos", "-ep", "prog", "60"]).zipIdx 1, entered zeroTables q ≤ 149 :=
  priorities_iff (boot_one "60")

theorem Launched.after {log rest : List CommandLine.Forked} {c : Launching} {e : Event} (reach : Launched log c)
    (enabled : c.kernel.Enabled e) (launches : Launches c e rest) : (launchSystem log).step c e ⟨c.kernel.after e, c.main, rest⟩ := by
  obtain ⟨place, settled⟩ := Settled.of_reach reach.reachable
  obtain ⟨k', -, run, -⟩ := settled.next enabled
  refine ⟨⟨enabled, ?_⟩, rfl, launches⟩
  rw [Kernel.after, run]
  rfl

/-- A priority of 200 is out of the range, and `aging` lowers it to 149. -/
theorem aging_lowers : ∃ log c c', CommandLine.boot ["nachos", "-ep", "prog", "200"] zeroTables = .ok log ∧ Launched log c ∧
    ¬ c.kernel.InRange ∧ (launchSystem log).step c .alarm c' ∧ ¬ c.kernel.NoneLowered c'.kernel := by
  have start : Launched [⟨"prog", 1, 200⟩] ⟨Kernel.initial 0 fun _ => 0, 0, [⟨"prog", 1, 200⟩]⟩ := .init ⟨⟨_, rfl⟩, rfl⟩
  have launches : Launches ⟨Kernel.initial 0 fun _ => 0, 0, [⟨"prog", 1, 200⟩]⟩ (.fork 1 1 200) [] :=
    @Launches.exec _ 1 ⟨"prog", 1, 200⟩ [] rfl rfl
  have made := start.step trivial (Launched.after (e := .fork 1 1 200) start ⟨rfl, by decide⟩ launches)
  have waited := made.step trivial (Launched.after (e := .tick 1500) made (by decide : Phase.running ≠ .switched) (.other nofun))
  have aged := Launched.after (e := .alarm) waited (by decide : Phase.running ≠ .switched) (.other nofun)
  refine ⟨_, _, _, boot_one "200", waited, fun inRange => ?_, aged, fun noneLowered => ?_⟩
  · have cap := (inRange 1 (by decide)).2
    revert cap
    decide
  · have up := noneLowered 1 (by decide)
    revert up
    decide +kernel

end Nachos.Mp3
