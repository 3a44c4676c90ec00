import Nachos.Mp3.Discipline

/-!
# The end of a timer interrupt

`Alarm::CallBack` ages the ready threads and decides by three rules whether the current
thread is to yield; `OneTick` takes the requested yield. `FindNextToRun` picks the next
thread before the old one is queued again, so that the level of the old thread counts only
where the rules compare it.
-/

namespace Nachos.Mp3
open Transition

namespace Kernel

variable {k k' : Kernel} {place : ThreadPtr → Place} {t : ThreadPtr}

/-- The runs of `Interrupt::OneTick`: a requested yield is taken before the interrupted thread
goes on, and until then only other handlers run. -/
def Prompt (k : Kernel) (e : Event) : Prop :=
  k.yieldOnReturn = true → e = .interruptReturn ∨ ∃ s, e = .semaphoreV s

/-- A handler that makes no thread ready. -/
def Quiet (k k' : Kernel) : Prop := ∃ s, (k.semaphores s).queue = [] ∧ k.semaphoreV s = .ok k'

/-- No queue above the level of the running thread has a thread in it. -/
def NoInversion (k : Kernel) : Prop :=
  ∀ ℓ, k.readyList ℓ ≠ [] → (level (k.threads k.currentThread).priority).index ≤ ℓ.index

/-- What `Yield` leads to: it returns, or the front of the highest queue runs and the old thread
is in the queue of its level. -/
inductive Yielded (k k' : Kernel) : Prop where
  | alone : (∀ ℓ, k'.readyList ℓ = []) → (∀ ℓ, k.readyList ℓ = []) → Yielded k k'
  | switched (ℓ : Level) : k'.currentThread ∈ k.readyList ℓ → (∀ ℓ', ℓ'.index < ℓ.index → k.readyList ℓ' = []) →
      (k'.threads k'.currentThread).priority = (k.threads k'.currentThread).priority →
      (∀ ℓ', k'.readyList ℓ' ≠ [] → k.readyList ℓ' ≠ [] ∨ ℓ' = level (k.threads k.currentThread).priority) →
      Yielded k k'

theorem yield_spec (h : Settled k place) (phase : k.phase = .running) : ∃ k', k.yield = .ok k' ∧ Yielded k k' := by
  cases h.yields phase with
  | alone empty eq => exact ⟨_, eq, .alone empty empty⟩
  | hands ℓ t mem above ne _ eq =>
    refine ⟨_, eq, .switched ℓ mem above ?_ ?_⟩
    · change (((k.yielding ℓ t).switch t).threads t).priority = (k.threads t).priority
      simp [yielding, ne, charged_priority]
    · intro ℓ' some
      by_cases own : ℓ' = level (k.threads k.currentThread).priority
      · exact .inr own
      · refine .inl fun empty => some ?_
        have apart : ℓ' ≠ level ((k.charged.dequeued ℓ t).threads k.currentThread).priority := by
          rwa [dequeued_threads, charged_priority]
        have kept : (k.yielding ℓ t).readyList ℓ' = (k.charged.dequeued ℓ t).readyList ℓ' := by
          change ((k.charged.dequeued ℓ t).enqueued k.currentThread).readyList ℓ' = _
          rw [enqueued_readyList, Function.update_of_ne apart]
          rfl
        refine kept.trans ?_
        rw [dequeued_readyList]
        rcases eq_or_ne ℓ' ℓ with rfl | other
        · exact absurd empty (List.ne_nil_of_mem mem)
        · rw [Function.update_of_ne other]
          exact empty

/-- The three rules, on the levels. -/
theorem preempts_of_low (low : (k.threads k.currentThread).priority < 50)
    (reason : k.readyList .L1 ≠ [] ∨ k.readyList .L2 ≠ [] ∨ (k.totalTicks : ℚ) - (k.threads k.currentThread).burstStartTime ≥ 100) :
    k.preempts = true := by
  simpa [preempts, low] using reason

theorem noInversion_of_not_preempts (calm : k.preempts = false) : k.NoInversion := by
  intro ℓ some
  rw [preempts] at calm
  rcases lt_or_ge (k.threads k.currentThread).priority 50 with low | more
  · simp only [if_pos low, decide_eq_false_iff_not, not_or, not_not, List.isEmpty_iff] at calm
    rw [level_L3.2 low]
    cases ℓ with
    | L1 => exact absurd calm.1 some
    | L2 => exact absurd calm.2.1 some
    | L3 => exact le_rfl
  rcases lt_or_ge (k.threads k.currentThread).priority 100 with middle | high
  · simp only [if_neg (not_lt.2 more), if_pos (And.intro more middle), decide_eq_false_iff_not, not_not,
      List.isEmpty_iff] at calm
    rw [level_L2.2 ⟨more, middle⟩]
    cases ℓ with
    | L1 => exact absurd calm some
    | L2 => exact le_rfl
    | L3 => decide
  · rw [level_L1.2 high]
    cases ℓ <;> decide

/-- The current thread yields to its own level or a lower one only from the lowest level. -/
theorem low_of_preempts (hasty : k.preempts = true) (empty : k.readyList .L1 = []) :
    (k.threads k.currentThread).priority < 50 := by
  by_contra more
  simp [preempts, empty, more] at hasty

/-- A requested yield leaves no queue above the level of the next thread. -/
theorem Yielded.noInversion (h : Yielded k k') (ordered : Ordered k) (hasty : k.preempts = true) : k'.NoInversion := by
  intro ℓ' some
  cases h with
  | alone empty _ => exact absurd (empty ℓ') some
  | switched ℓ mem above priority queues =>
    have suits := ordered.suits ℓ _ mem
    rw [priority]
    have here : (level (k.threads k'.currentThread).priority).index ≤ ℓ.index := by
      cases ℓ with
      | L1 => rw [level_L1.2 suits]
      | L2 =>
        rcases lt_or_ge (k.threads k'.currentThread).priority 100 with middle | high
        · rw [level_L2.2 ⟨suits.1, middle⟩]
        · rw [level_L1.2 high]
          decide
      | L3 => cases level (k.threads k'.currentThread).priority <;> decide
    refine here.trans ?_
    rcases queues ℓ' some with before | own
    · by_contra less
      exact before (above ℓ' (not_le.1 less))
    · cases ℓ with
      | L1 => cases ℓ' <;> decide
      | L2 | L3 => simp [own, level_L3.2 (low_of_preempts hasty (above .L1 (by decide))), Level.index]

/-- The current thread makes room if a thread is ready. -/
theorem Yielded.moved (h : Yielded k k') (settled : Settled k place) (phase : k.phase = .running)
    (waiting : ∃ ℓ, k.readyList ℓ ≠ []) : k'.currentThread ≠ k.currentThread := by
  cases h with
  | alone _ nobody =>
    obtain ⟨ℓ, some⟩ := waiting
    exact absurd (nobody ℓ) some
  | switched ℓ mem _ _ _ =>
    intro same
    have runs := settled.current (by simp [phase])
    rw [same] at mem
    exact Settled.not_ready settled.toPlaced (Settled.free_of_running runs) ℓ mem

end Kernel

open Kernel

variable {k k₁ k₂ : Kernel}

/-- What quiet handlers leave alone. -/
structure Alike (k k' : Kernel) : Prop where
  threads : k'.threads = k.threads
  readyList : k'.readyList = k.readyList
  currentThread : k'.currentThread = k.currentThread
  totalTicks : k'.totalTicks = k.totalTicks
  phase : k'.phase = k.phase
  yieldOnReturn : k'.yieldOnReturn = k.yieldOnReturn

theorem Alike.preempts (h : Alike k k₁) : k₁.preempts = k.preempts := by
  rw [Kernel.preempts, Kernel.preempts, L1FrontRemain, L1FrontRemain, h.threads, h.readyList, h.currentThread, h.totalTicks]

theorem Kernel.Quiet.alike {k' : Kernel} (h : Quiet k k') : Alike k k' := by
  obtain ⟨s, empty, run⟩ := h
  rw [semaphoreV, empty] at run
  cases run
  exact ⟨rfl, rfl, rfl, rfl, rfl, rfl⟩

/-- Quiet handlers behind the alarm lead to reachable states. -/
theorem alike_of_quiet (reach : Reach kernelSystem Prompt k) (phase : k.phase = .running)
    (handlers : Relation.ReflTransGen Quiet k k₁) : Alike k k₁ ∧ Reach kernelSystem Prompt k₁ := by
  induction handlers with
  | refl => exact ⟨⟨rfl, rfl, rfl, rfl, rfl, rfl⟩, reach⟩
  | tail _ quiet ih =>
    obtain ⟨alike, reach⟩ := ih
    have last := quiet.alike
    obtain ⟨s, -, run⟩ := quiet
    refine ⟨⟨last.threads.trans alike.threads, last.readyList.trans alike.readyList,
      last.currentThread.trans alike.currentThread, last.totalTicks.trans alike.totalTicks,
      last.phase.trans alike.phase, last.yieldOnReturn.trans alike.yieldOnReturn⟩, ?_⟩
    refine reach.step (a := .semaphoreV s) (fun _ => .inr ⟨s, rfl⟩) ⟨?_, run⟩
    rw [Enabled, alike.phase, phase]
    nofun

/-- **No priority inversion across a timer tick.** When the alarm goes off while a thread runs, and
no other handler makes a thread ready, then behind `OneTick` no queue above the level of the
running thread has a thread in it; and a thread of the lowest level that has run for 100 ticks
has made room for another one, if there was one. -/
theorem no_priority_inversion (reach : Reach kernelSystem Prompt k) (prompt : Prompt k .alarm) (phase : k.phase = .running) :
    ∃ k₁, k.callBack = .ok k₁ ∧ ∀ k₂, Relation.ReflTransGen Quiet k₁ k₂ → ∃ k₃, k₂.interruptReturn = .ok k₃ ∧
      k₃.NoInversion ∧
      ((k.threads k.currentThread).priority < 50 →
        (k.totalTicks : ℚ) - (k.threads k.currentThread).burstStartTime ≥ 100 →
        (∃ ℓ, k.readyList ℓ ≠ []) → k₃.currentThread ≠ k.currentThread) := by
  obtain ⟨place, settled⟩ := Settled.of_reach reach
  obtain ⟨k', flag, place', called, updated, -, noted, -⟩ := settled.callBack (fun _ => True) trivial
    fun _ _ _ _ _ _ _ _ => trivial
  have calm : ¬ k.yieldOnReturn = true := by
    intro pending
    rcases prompt pending with eq | ⟨s, eq⟩
    · cases eq
    · cases eq
  have phase' : k'.phase = .running := by rw [updated.frame, phase]
  have current' : k'.currentThread = k.currentThread := by rw [updated.frame]
  obtain rfl : flag = k'.preempts := by
    rw [Bool.eq_iff_iff, noted, or_iff_right calm]
    exact and_iff_left phase
  have reach₁ : Reach kernelSystem Prompt { k' with yieldOnReturn := k'.preempts } :=
    reach.step (a := .alarm) prompt ⟨by rw [Enabled, phase]; nofun, called⟩
  have out := Settled.not_ready settled.toPlaced (Settled.free_of_running (settled.current (by simp [phase])))
  have self : k'.threads k.currentThread = k.threads k.currentThread :=
    updated.outside _ fun mem => (mem_ready.1 mem).elim out
  refine ⟨_, called, fun k₂ handlers => ?_⟩
  obtain ⟨alike, reach₂⟩ := alike_of_quiet reach₁ phase' handlers
  obtain ⟨place₂, settled₂, ordered₂⟩ := Ordered.of_reach reach₂
  have label : k₂.yieldOnReturn = k₂.preempts := alike.yieldOnReturn.trans (alike.preempts (k := { k' with yieldOnReturn := _ })).symm
  have phase₂ : k₂.phase = .running := alike.phase.trans phase'
  have current₂ : k₂.currentThread = k.currentThread := alike.currentThread.trans current'
  rw [interruptReturn]
  cases hasty : k₂.preempts with
  | true =>
    rw [label, if_pos hasty]
    have settled₃ : Settled { k₂ with yieldOnReturn := false } place₂ :=
      settled₂.congr (fun r => by cases r <;> rfl) rfl (fun _ => rfl) rfl rfl rfl
    have ordered₃ : Ordered { k₂ with yieldOnReturn := false } := ordered₂.of_same rfl fun _ _ _ => rfl
    obtain ⟨k₃, taken, yielded⟩ := yield_spec settled₃ phase₂
    refine ⟨k₃, taken, yielded.noInversion ordered₃ hasty, fun _ _ waiting => ?_⟩
    rw [← current₂]
    apply yielded.moved settled₃ phase₂
    obtain ⟨ℓ, some⟩ := waiting
    obtain ⟨u, hu⟩ := List.exists_mem_of_ne_nil _ some
    obtain ⟨ℓ', here⟩ := mem_ready.1 ((updated.ready u).2 (mem_ready.2 ⟨ℓ, hu⟩))
    refine ⟨ℓ', List.ne_nil_of_mem (a := u) ?_⟩
    rw [alike.readyList]
    exact here
  | false =>
    rw [label, hasty]
    refine ⟨k₂, rfl, noInversion_of_not_preempts hasty, fun low long _ => ?_⟩
    have same : k₂.threads k₂.currentThread = k.threads k.currentThread := by rw [alike.threads, current₂, ← self]
    have ticks : k₂.totalTicks = k.totalTicks := by rw [alike.totalTicks, updated.frame]
    have spent : k₂.preempts = true := by
      apply preempts_of_low
      · rwa [same]
      · rw [same, ticks]
        exact .inr (.inr long)
    rw [hasty] at spent
    cases spent

/-- The main thread at level 3 makes room for a thread at level 2. -/
theorem no_priority_inversion_forked : ∃ k k₁ k₃, Reach kernelSystem Prompt k ∧ k.callBack = .ok k₁ ∧
    k₁.interruptReturn = .ok k₃ ∧ k.currentThread = 0 ∧ k₃.currentThread = 1 ∧ k₃.NoInversion := by
  have start : Reach kernelSystem Prompt (Kernel.initial 0 fun _ => 0) := .init ⟨0, _, rfl⟩
  obtain ⟨k, forked, reach⟩ : ∃ k, (Kernel.initial 0 fun _ => 0).step (.fork 1 1 60) = .ok k ∧
      Reach kernelSystem Prompt k := ⟨_, rfl, start.step (a := .fork 1 1 60) nofun ⟨⟨rfl, by decide⟩, rfl⟩⟩
  cases forked
  obtain ⟨k₁, called, rest⟩ := no_priority_inversion reach nofun rfl
  obtain ⟨k₃, taken, calm, -⟩ := rest k₁ .refl
  refine ⟨_, k₁, k₃, reach, called, taken, rfl, ?_, calm⟩
  cases called
  cases taken
  rfl

end Nachos.Mp3
