import Nachos.Mp3.Discipline

/-!
# How long a ready thread waits

The kernel's runs with a clock for every thread, which is set when the thread becomes
ready and when its priority changes. `wait_Start_Time` is meant to be that clock. It is
not in `L2`: `UpdatePriority` takes a thread whose priority does not pass 100 out of `L2`
and makes it ready again, and its waiting time starts anew at every alarm. A thread that
no alarm finds there with a waiting time between 1 and 1499 ticks is aged in time.
-/

namespace Nachos.Mp3
open Transition

namespace Kernel

def IsReady (k : Kernel) (t : ThreadPtr) : Prop := t ∈ k.live ∧ (k.threads t).status = .ready

instance (k : Kernel) (t : ThreadPtr) : Decidable (k.IsReady t) := inferInstanceAs (Decidable (_ ∧ _))

/-- The ticks a thread has waited, as the code counts them. -/
def waited (k : Kernel) (t : ThreadPtr) : Int := (k.totalTicks : Int) - (k.threads t).waitStartTime

end Kernel

/-- The kernel, with the tick at which each thread last became ready or was last aged. -/
structure Clocked where
  kernel : Kernel
  clock : ThreadPtr → Nat

namespace Clocked
open Kernel

/-- A thread becomes ready, or is aged while it is ready. -/
def Restarts (k k' : Kernel) (t : ThreadPtr) : Prop :=
  (¬ k.IsReady t ∧ k'.IsReady t) ∨ (k.IsReady t ∧ (k'.threads t).priority ≠ (k.threads t).priority)

instance (k k' : Kernel) (t : ThreadPtr) : Decidable (Restarts k k' t) := inferInstanceAs (Decidable (_ ∨ _))

/-- The clocks after a step. -/
@[simps kernel] def advance (c : Clocked) (k' : Kernel) : Clocked where
  kernel := k'
  clock t := if Restarts c.kernel k' t then k'.totalTicks else c.clock t

/-- The ticks since a thread became ready or was aged. -/
def age (c : Clocked) (t : ThreadPtr) : Int := (c.kernel.totalTicks : Int) - c.clock t

end Clocked

/-- The runs of the kernel, with clocks. -/
def clockedSystem : Transition.System Clocked Event where
  init c := kernelSystem.init c.kernel
  step c e c' := ∃ k', kernelSystem.step c.kernel e k' ∧ c' = c.advance k'

/-- The alarm does not find the thread in `L2` with a waiting time between 1 and 1499 ticks. -/
def Undisturbed (t : ThreadPtr) (c : Clocked) (e : Event) : Prop :=
  e = .alarm → t ∈ c.kernel.readyList .L2 → ¬ (0 < c.kernel.waited t ∧ c.kernel.waited t < 1500)

/-- What `UpdatePriority` owes a thread: a priority raised by 10, up to 149, when it has
waited for 1500 ticks, so that none below 149 is left that has. -/
structure AgedInTime (t : ThreadPtr) (c c' : Clocked) : Prop where
  raised : t ∈ c.kernel.ready → 1500 ≤ c.age t →
    (c'.kernel.threads t).priority = min ((c.kernel.threads t).priority + 10) 149
  young : t ∈ c'.kernel.ready → (c'.kernel.threads t).priority < 149 → c'.age t < 1500

namespace Clocked
open Kernel

variable {c c' : Clocked} {k k' k₀ : Kernel} {place : ThreadPtr → Place} {t u : ThreadPtr} {e : Event}

theorem isReady_iff (h : Settled k place) : k.IsReady t ↔ t ∈ k.ready := by
  rw [mem_ready]
  constructor
  · rintro ⟨live, status⟩
    have present := (h.live t).1 live
    rw [h.status t present] at status
    rcases at_t : place t with _ | _ | _ | _ | (ℓ | s)
    · exact absurd at_t present
    all_goals first
      | exact absurd at_t (h.held t)
      | exact ⟨ℓ, (h.mem (.ready ℓ) t).2 at_t⟩
      | (rw [at_t] at status; cases status)
  · rintro ⟨ℓ, mem⟩
    have at_t := (h.mem (.ready ℓ) t).1 mem
    have present : place t ≠ .absent := by simp [at_t]
    refine ⟨(h.live t).2 present, ?_⟩
    rw [h.status t present, at_t]
    rfl

theorem restarts_iff {place' : ThreadPtr → Place} (h : Settled k place) (h' : Settled k' place') : Restarts k k' t ↔
    (t ∉ k.ready ∧ t ∈ k'.ready) ∨ (t ∈ k.ready ∧ (k'.threads t).priority ≠ (k.threads t).priority) := by
  rw [Restarts, isReady_iff h, isReady_iff h']

/-- The ready threads after a step without an alarm: those that were, as they were, and the new ones. -/
theorem moves_ready (moves : Moves k₀ k) : k.totalTicks = k₀.totalTicks ∧ ∀ ℓ, ∀ u ∈ k.readyList ℓ,
    (u ∈ k₀.ready ∧ k.threads u = k₀.threads u) ∨ (u ∉ k₀.ready ∧ (k.threads u).waitStartTime = k.totalTicks) := by
  induction moves with
  | refl => exact ⟨rfl, fun ℓ u mem => .inl ⟨mem_ready.2 ⟨ℓ, mem⟩, rfl⟩⟩
  | @edit k t f _ out ih =>
    refine ⟨ih.1, fun ℓ u mem => ?_⟩
    have ne : u ≠ t := by
      rintro rfl
      exact out ℓ mem
    rw [modify_threads, Function.update_of_ne ne]
    exact ih.2 ℓ u mem
  | @enqueue k t _ out new ih =>
    refine ⟨ih.1, fun ℓ u mem => ?_⟩
    rw [enqueued_threads, enqueued_totalTicks]
    rcases eq_or_ne u t with rfl | ne
    · rw [Function.update_self]
      exact .inr ⟨fun old => (mem_ready.1 old).elim new, rfl⟩
    · rw [Function.update_of_ne ne]
      apply ih.2 ℓ u
      rw [enqueued_readyList] at mem
      rcases eq_or_ne ℓ (level (k.threads t).priority) with rfl | hℓ
      · rw [Function.update_self, (perm_inserted _).mem_iff] at mem
        exact (List.mem_cons.1 mem).resolve_left ne
      · rwa [Function.update_of_ne hℓ] at mem
  | @dequeue k ℓ t _ _ ih =>
    refine ⟨ih.1, fun ℓ' u mem => ih.2 ℓ' u ?_⟩
    rw [dequeued_readyList] at mem
    rcases eq_or_ne ℓ' ℓ with rfl | ne
    · rw [Function.update_self] at mem
      exact List.mem_of_mem_erase mem
    · rwa [Function.update_of_ne ne] at mem
  | other _ threads lists ticks ih =>
    rw [threads, lists, ticks]
    exact ih

/-- `wait_Start_Time` is the clock of a thread whose priority can still be raised. -/
structure Punctual (t : ThreadPtr) (c : Clocked) : Prop where
  settled : ∃ place, Settled c.kernel place
  started : t ∈ c.kernel.ready → (c.kernel.threads t).waitStartTime ≤ c.kernel.totalTicks
  clock : t ∈ c.kernel.ready → (c.kernel.threads t).priority ≠ 149 → (c.kernel.threads t).waitStartTime = c.clock t

namespace Punctual

theorem init (h : clockedSystem.init c) : Punctual t c := by
  obtain ⟨main, values, eq⟩ := h
  have empty : t ∉ c.kernel.ready := by
    rw [eq]
    exact List.not_mem_nil
  exact ⟨⟨_, by rw [eq]; exact Settled.initial main values⟩, fun mem => absurd mem empty, fun mem => absurd mem empty⟩

/-- A step of the clock, and a step that is no alarm. -/
theorem quiet (h : Punctual t c) (settled' : Settled k' place) (later : c.kernel.totalTicks ≤ k'.totalTicks)
    (ready : t ∈ k'.ready → (t ∈ c.kernel.ready ∧ k'.threads t = c.kernel.threads t) ∨
      (t ∉ c.kernel.ready ∧ (k'.threads t).waitStartTime = k'.totalTicks)) : Punctual t (c.advance k') := by
  obtain ⟨place₀, settled⟩ := h.settled
  refine ⟨⟨place, settled'⟩, fun mem => ?_, fun mem prio => ?_⟩
  · rcases ready mem with ⟨old, same⟩ | ⟨-, start⟩
    · have := h.started old
      change (k'.threads t).waitStartTime ≤ k'.totalTicks
      rw [same]
      omega
    · exact start.le
  · change (k'.threads t).waitStartTime = if Restarts c.kernel k' t then k'.totalTicks else c.clock t
    change (k'.threads t).priority ≠ 149 at prio
    have restarts := restarts_iff (t := t) settled settled'
    rcases ready mem with ⟨old, same⟩ | ⟨new, start⟩
    · rw [if_neg (by simp [restarts, old, same]), same]
      rw [same] at prio
      exact h.clock old prio
    · rw [start, if_pos (restarts.2 (.inl ⟨new, mem⟩))]

/-- What the alarm does to a ready thread. -/
theorem alarm (t : ThreadPtr) (settled : Settled c.kernel place) (run : clockedSystem.step c .alarm c') :
    ∃ place', Settled c'.kernel place' ∧ c'.kernel.totalTicks = c.kernel.totalTicks ∧ c'.kernel.phase = c.kernel.phase ∧
    (t ∈ c'.kernel.ready ↔ t ∈ c.kernel.ready) ∧
    ∀ ℓ, t ∈ c.kernel.readyList ℓ → Aged ℓ c.kernel.totalTicks (c.kernel.threads t) (c'.kernel.threads t) := by
  obtain ⟨k', ⟨enabled, run⟩, rfl⟩ := run
  obtain ⟨k₁, flag, place', run', updated, -, -, settled'⟩ := settled.callBack (fun _ => True) trivial
    fun _ _ _ _ _ _ _ _ => trivial
  rw [Kernel.step, run'] at run
  cases run
  refine ⟨place', settled', ?_, ?_, updated.ready t, fun ℓ mem => updated.aged ℓ t mem⟩
  · change k₁.totalTicks = _
    rw [updated.frame]
  · change k₁.phase = _
    rw [updated.frame]

theorem raised_ne {p : Int} (h : p ≠ 149) : Thread.raised p ≠ p := by
  unfold Thread.raised
  split <;> omega

/-- The clock of a thread after an alarm that left its waiting time alone. -/
theorem alarm_clock (h : Punctual t c) (undisturbed : Undisturbed t c .alarm) (run : clockedSystem.step c .alarm c') :
    Punctual t c' := by
  obtain ⟨place, settled⟩ := h.settled
  obtain ⟨place', settled', ticks, -, same, aged⟩ := alarm t settled run
  obtain ⟨k', -, rfl⟩ := run
  change Settled k' place' at settled'
  change k'.totalTicks = c.kernel.totalTicks at ticks
  change t ∈ k'.ready ↔ t ∈ c.kernel.ready at same
  have early_of : ∀ {ℓ}, t ∈ c.kernel.readyList ℓ → (k'.threads t).waitStartTime =
      if c.kernel.waited t < 1500 then (c.kernel.threads t).waitStartTime else c.kernel.totalTicks := by
    intro ℓ mem
    have start := (aged ℓ mem).start
    change (k'.threads t).waitStartTime = if c.kernel.waited t < 1500 ∧ ℓ ≠ .L2 then _ else _ at start
    rw [start]
    by_cases early : c.kernel.waited t < 1500
    · rcases eq_or_ne ℓ .L2 with rfl | other
      · have bound := h.started (mem_ready.2 ⟨_, mem⟩)
        have still := undisturbed rfl mem
        rw [if_neg (by simp), if_pos early]
        rw [waited] at early still
        omega
      · rw [if_pos ⟨early, other⟩, if_pos early]
    · rw [if_neg fun both => early both.1, if_neg early]
  refine ⟨⟨place', settled'⟩, fun mem => ?_, fun mem prio => ?_⟩
  · obtain ⟨ℓ, old⟩ := mem_ready.1 (same.1 mem)
    have bound := h.started (same.1 mem)
    change (k'.threads t).waitStartTime ≤ k'.totalTicks
    rw [early_of old]
    split <;> omega
  · have old := same.1 mem
    obtain ⟨ℓ, here⟩ := mem_ready.1 old
    have priority := (aged ℓ here).priority
    change (k'.threads t).priority = if c.kernel.waited t < 1500 then _ else _ at priority
    change (k'.threads t).priority ≠ 149 at prio
    change (k'.threads t).waitStartTime = if Restarts c.kernel k' t then k'.totalTicks else c.clock t
    have restarts := restarts_iff (t := t) settled settled'
    rw [early_of here]
    by_cases early : c.kernel.waited t < 1500
    · rw [if_pos early] at priority ⊢
      rw [if_neg (by simp [restarts, old, priority])]
      rw [priority] at prio
      exact h.clock old prio
    · rw [if_neg early] at priority ⊢
      have was : (c.kernel.threads t).priority ≠ 149 := by
        intro eq
        rw [priority, eq] at prio
        exact prio rfl
      rw [if_pos (restarts.2 (.inr ⟨old, by rw [priority]; exact raised_ne was⟩)), ticks]

theorem step (h : Punctual t c) (undisturbed : Undisturbed t c e) (run : clockedSystem.step c e c') : Punctual t c' := by
  by_cases alarm : e = .alarm
  · subst alarm
    exact h.alarm_clock undisturbed run
  obtain ⟨k', ⟨enabled, run⟩, rfl⟩ := run
  obtain ⟨place, settled⟩ := h.settled
  obtain ⟨k'', place', run', settled'⟩ := settled.next enabled
  rw [run] at run'
  cases run'
  by_cases tick : ∃ n, e = .tick n
  · obtain ⟨n, rfl⟩ := tick
    cases run
    exact h.quiet settled' (Nat.le_add_right _ _) fun mem => .inl ⟨mem, rfl⟩
  · obtain ⟨k₁, place₁, run₁, -, moved⟩ := settled.steps enabled alarm fun n eq => tick ⟨n, eq⟩
    rw [run] at run₁
    cases run₁
    obtain ⟨ticks, ready⟩ := moves_ready moved
    refine h.quiet settled' ticks.ge fun mem => ?_
    obtain ⟨ℓ, mem⟩ := mem_ready.1 mem
    exact ready ℓ t mem

theorem of_reach (reach : Reach clockedSystem (Undisturbed t) c) : Punctual t c := by
  apply reach.invariant fun c => Punctual t c
  · exact fun _ => init
  · exact fun _ _ _ h undisturbed run => h.step undisturbed run

theorem raised_eq (p : Int) : Thread.raised p = min (p + 10) 149 := by
  unfold Thread.raised
  split <;> omega

theorem agedInTime (h : Punctual t c) (h' : Punctual t c') (run : clockedSystem.step c .alarm c') :
    AgedInTime t c c' := by
  obtain ⟨place, settled⟩ := h.settled
  obtain ⟨-, -, ticks, -, same, aged⟩ := alarm t settled run
  refine ⟨fun mem old => ?_, fun mem prio => ?_⟩
  · obtain ⟨ℓ, here⟩ := mem_ready.1 mem
    rw [(aged ℓ here).priority, ← raised_eq]
    by_cases top : (c.kernel.threads t).priority = 149
    · rw [top]
      split <;> rfl
    · rw [age, ← h.clock mem top] at old
      rw [if_neg (not_lt.2 old)]
  · obtain ⟨ℓ, here⟩ := mem_ready.1 (same.1 mem)
    rw [age, ← h'.clock mem (by omega), ticks]
    exact (aged ℓ here).waited

theorem alarms (settled : Settled c.kernel place) (phase : c.kernel.phase ≠ .switched) :
    ∃ c', clockedSystem.step c .alarm c' := by
  obtain ⟨k', -, run, -⟩ := settled.next (e := .alarm) phase
  exact ⟨_, k', ⟨phase, run⟩, rfl⟩

theorem clock_kept {place' : ThreadPtr → Place} (run : clockedSystem.step c e c') (settled : Settled c.kernel place)
    (settled' : Settled c'.kernel place') (ready : t ∈ c.kernel.ready)
    (same : (c'.kernel.threads t).priority = (c.kernel.threads t).priority) : c'.clock t = c.clock t := by
  obtain ⟨k', -, rfl⟩ := run
  have restarts := restarts_iff (t := t) settled settled'
  exact if_neg (by rw [advance_kernel] at restarts; simpa [restarts, ready] using same)

/-- A thread that an alarm disturbs is not aged in time if it stays ready and the next
alarm comes when it has waited for 1500 ticks. -/
theorem disturbed (h : Punctual t c) (phase : c.kernel.phase ≠ .switched) (low : (c.kernel.threads t).priority < 149)
    (mem : t ∈ c.kernel.readyList .L2) (some : 0 < c.kernel.waited t) (few : c.kernel.waited t < 1500) :
    ∃ c₁ c₂ c₃, clockedSystem.step c .alarm c₁ ∧
      clockedSystem.step c₁ (.tick (1500 - c.kernel.waited t).toNat) c₂ ∧ clockedSystem.step c₂ .alarm c₃ ∧
      ¬ AgedInTime t c₂ c₃ := by
  obtain ⟨place, settled⟩ := h.settled
  obtain ⟨c₁, run₁⟩ := alarms settled phase
  obtain ⟨place₁, settled₁, ticks₁, phase₁, same₁, aged₁⟩ := alarm t settled run₁
  have ready := mem_ready.2 ⟨_, mem⟩
  have ready₁ := same₁.2 ready
  have prio₁ : (c₁.kernel.threads t).priority = (c.kernel.threads t).priority := by
    rw [(aged₁ _ mem).priority]
    exact if_pos few
  have start₁ : (c₁.kernel.threads t).waitStartTime = c.kernel.totalTicks := by
    rw [(aged₁ _ mem).start, if_neg (by simp)]
  have clock₁ : c₁.clock t = c.clock t := clock_kept run₁ settled settled₁ ready prio₁
  -- The clock goes on until the thread has waited for 1500 ticks since it became ready.
  set n := (1500 - c.kernel.waited t).toNat with hn
  obtain ⟨k₂, run₂, settled₂, phase₂, threads₂, ready₂, ticks₂⟩ : ∃ k₂, clockedSystem.step c₁ (.tick n) (c₁.advance k₂) ∧
      Settled k₂ place₁ ∧ k₂.phase ≠ .switched ∧ k₂.threads = c₁.kernel.threads ∧ t ∈ k₂.ready ∧
      k₂.totalTicks = c.kernel.totalTicks + n := by
    rw [← phase₁] at phase
    refine ⟨{ c₁.kernel with totalTicks := c₁.kernel.totalTicks + n }, ⟨_, ⟨phase, rfl⟩, rfl⟩,
      settled₁.congr (fun r => by cases r <;> rfl) rfl (fun _ => rfl) rfl rfl rfl, phase, rfl, ready₁, ?_⟩
    rw [ticks₁]
  have clock₂ : (c₁.advance k₂).clock t = c.clock t := by
    rw [← clock₁]
    exact clock_kept run₂ settled₁ settled₂ ready₁ (by rw [advance_kernel, threads₂])
  obtain ⟨c₃, run₃⟩ := alarms (c := c₁.advance k₂) settled₂ phase₂
  obtain ⟨-, -, -, -, -, aged₃⟩ := alarm t settled₂ run₃
  refine ⟨c₁, _, c₃, run₁, run₂, run₃, fun intime => ?_⟩
  have clock := h.clock ready (by omega)
  rw [waited] at some few hn
  have raised := intime.raised ready₂ (by rw [age, clock₂, ← clock, advance_kernel, ticks₂]; omega)
  obtain ⟨ℓ, here⟩ := mem_ready.1 ready₂
  have kept := (aged₃ ℓ here).priority
  rw [advance_kernel, threads₂, start₁, ticks₂, if_pos (by omega)] at kept
  rw [advance_kernel, threads₂, kept] at raised
  omega

end Punctual

theorem next {allowed : Clocked → Event → Prop} (reach : Reach clockedSystem allowed c) (e : Event) (ok : allowed c e)
    (enabled : c.kernel.Enabled e) (run : c.kernel.step e = .ok k') : Reach clockedSystem allowed (c.advance k') :=
  .step reach ok ⟨k', ⟨enabled, run⟩, rfl⟩

end Clocked

open Kernel Clocked

variable {c : Clocked} {t : ThreadPtr}

/-- **The aging guarantee.** In every run in which no alarm disturbs a thread, every alarm
ages it in time. After the first alarm that disturbs it the run can go on to one that does not. -/
theorem aging_guarantee (reach : Reach clockedSystem (Undisturbed t) c) :
    (∀ c', Undisturbed t c .alarm → clockedSystem.step c .alarm c' → AgedInTime t c c') ∧
    (¬ Undisturbed t c .alarm → (c.kernel.threads t).priority < 149 → c.kernel.phase ≠ .switched →
      ∃ c₁ c₂ c₃, clockedSystem.step c .alarm c₁ ∧
        clockedSystem.step c₁ (.tick (1500 - c.kernel.waited t).toNat) c₂ ∧ clockedSystem.step c₂ .alarm c₃ ∧
        ¬ AgedInTime t c₂ c₃) := by
  have punctual := Punctual.of_reach reach
  constructor
  · intro c' undisturbed run
    exact punctual.agedInTime (punctual.step undisturbed run) run
  · intro found low phase
    rw [Undisturbed] at found
    push Not at found
    obtain ⟨-, mem, some, few⟩ := found
    exact punctual.disturbed phase low mem some few

theorem aging_guarantee_L3 : ∃ c c', Reach clockedSystem (Undisturbed 1) c ∧ c.kernel.readyList .L3 = [1] ∧
    c.age 1 = 1500 ∧ clockedSystem.step c .alarm c' ∧ AgedInTime 1 c c' := by
  have start : Reach clockedSystem (Undisturbed 1) ⟨Kernel.initial 0 fun _ => 0, fun _ => 0⟩ := .init ⟨0, _, rfl⟩
  have forked := Clocked.next start (.fork 1 1 40) (by simp [Undisturbed]) ⟨rfl, by decide⟩ rfl
  have waited := Clocked.next forked (.tick 1500) (by simp [Undisturbed]) (by simp [Enabled, Kernel.initial]) rfl
  obtain ⟨place, settled⟩ := (Punctual.of_reach waited).settled
  obtain ⟨c', alarm⟩ := Punctual.alarms settled (by simp [Kernel.initial])
  exact ⟨_, c', waited, by decide, by decide, alarm, (aging_guarantee waited).1 c' (fun _ mem => absurd mem (by decide)) alarm⟩

/-- A thread of priority 60 that is ready from tick 0 on, with alarms at ticks 1 and 1500. -/
theorem aging_fails : ¬ ∀ t c c', Reach clockedSystem (fun _ _ => True) c → clockedSystem.step c .alarm c' →
    AgedInTime t c c' := by
  intro claim
  have start : Reach clockedSystem (Undisturbed 1) ⟨Kernel.initial 0 fun _ => 0, fun _ => 0⟩ := .init ⟨0, _, rfl⟩
  have forked := Clocked.next start (.fork 1 1 60) (by simp [Undisturbed]) ⟨rfl, by decide⟩ rfl
  have waited := Clocked.next forked (.tick 1) (by simp [Undisturbed]) (by simp [Enabled, Kernel.initial]) rfl
  obtain ⟨c₁, c₂, c₃, run₁, run₂, run₃, late⟩ := (Punctual.of_reach waited).disturbed (by simp [Kernel.initial])
    (by decide) (by decide) (by decide) (by decide)
  have all : Reach clockedSystem (fun _ _ => True) _ := waited.mono fun _ _ _ _ => trivial
  exact late (claim 1 c₂ c₃ ((all.step trivial run₁).step trivial run₂) run₃)

end Nachos.Mp3
