import Nachos.Mp3.Passes

/-!
# Threads are neither lost nor queued twice

Every reachable state has a placement (`Settled.of_reach`), so that a thread that was
forked and not yet deleted is in one situation only, and no assertion of the kernel fails.
-/

namespace Nachos.Mp3
open Transition

/-- What a thread can be about. -/
inductive Situation where
  | running
  | ready
  | blocked
  | finishing
  deriving DecidableEq

namespace Kernel

def InNoReadyList (k : Kernel) (t : ThreadPtr) : Prop := ∀ ℓ, t ∉ k.readyList ℓ

def InNoSemaphore (k : Kernel) (t : ThreadPtr) : Prop := ∀ s, t ∉ (k.semaphores s).queue

/-- The situations. A thread that has called `Finish` idles in `Sleep` or is to be destroyed. -/
def InSituation (k : Kernel) (t : ThreadPtr) : Situation → Prop
  | .running => (k.threads t).status = .running ∧ t = k.currentThread ∧ k.InNoReadyList t ∧ k.InNoSemaphore t
  | .ready => (k.threads t).status = .ready ∧
      (∃ ℓ, (k.readyList ℓ).count t = 1 ∧ ∀ ℓ', ℓ' ≠ ℓ → t ∉ k.readyList ℓ') ∧ k.InNoSemaphore t
  | .blocked => (k.threads t).status = .blocked ∧ k.InNoReadyList t ∧
      ∃ s, (k.semaphores s).queue.count t = 1 ∧ ∀ s', s' ≠ s → t ∉ (k.semaphores s').queue
  | .finishing => (k.toBeDestroyed = some t ∨ (k.phase = .idling true ∧ t = k.currentThread)) ∧
      k.InNoReadyList t ∧ k.InNoSemaphore t

end Kernel

namespace Settled
open Kernel

variable {k k' : Kernel} {place : ThreadPtr → Place} {t : ThreadPtr} {e : Event}

theorem initial (main : ThreadPtr) (values : SemaphorePtr → Int) :
    Settled (Kernel.initial main values) (Function.update (fun _ => .absent) main .running) := by
  refine ⟨⟨?_, ?_, ?_⟩, ?_, ?_, ?_, ?_, ?_⟩
  · intro t
    rcases eq_or_ne t main with rfl | ne
    · simp [Kernel.initial]
    · simp [Kernel.initial, ne]
  · rintro (ℓ | s) t
    · rcases eq_or_ne t main with rfl | ne
      · simp [Kernel.initial]
      · simp [Kernel.initial, ne]
    · rcases eq_or_ne t main with rfl | ne
      · simp [Kernel.initial]
      · simp [Kernel.initial, ne]
  · rintro (ℓ | s)
    · exact List.nodup_nil
    · exact List.nodup_nil
  · intro t ht
    rcases eq_or_ne t main with rfl | ne
    · simp [Kernel.initial, Place.status]
    · simp [ne] at ht
  · intro t
    rcases eq_or_ne t main with rfl | ne
    · simp
    · simp [ne]
  · intro t
    rcases eq_or_ne t main with rfl | ne
    · simp [Kernel.initial]
    · simp [Kernel.initial, ne]
  · intro t
    rcases eq_or_ne t main with rfl | ne
    · simp [Kernel.initial]
    · simp [Kernel.initial, ne]
  · simp [Kernel.initial]

/-- The alarm notes whether to yield, and leaves the rest to `UpdatePriority`. -/
theorem callBack (h : Settled k place) (Q : Kernel → Prop) (start : Q k)
    (keeps : ∀ ℓ k t k', (∃ place, Settled k place) → Q k → t ∈ k.readyList ℓ → Visit k ℓ t k' → Q k') :
    ∃ k₁ flag place', k.callBack = .ok { k₁ with yieldOnReturn := flag } ∧ Updated k k₁ ∧ Q k₁ ∧
      (flag = true ↔ k.yieldOnReturn = true ∨ k₁.preempts = true ∧ k.phase = .running) ∧
      Settled { k₁ with yieldOnReturn := flag } place' := by
  obtain ⟨k₁, run, updated, q⟩ := updatePriority_ok h Q start keeps
  obtain ⟨place₁, settled⟩ := updated.settled
  have noted : ∀ flag, Settled { k₁ with yieldOnReturn := flag } place₁ :=
    fun _ => settled.congr (fun r => by cases r <;> rfl) rfl (fun _ => rfl) rfl rfl rfl
  have same : k₁.yieldOnReturn = k.yieldOnReturn := by rw [updated.frame]
  have phase : k₁.phase = k.phase := by rw [updated.frame]
  rw [Kernel.callBack, run, ← same, ← phase]
  by_cases test : k₁.preempts = true ∧ k₁.phase = .running
  · exact ⟨k₁, true, place₁, if_pos test, updated, q, iff_of_true rfl (.inr test), noted true⟩
  · exact ⟨k₁, k₁.yieldOnReturn, place₁, if_neg test, updated, q, (or_iff_left test).symm, noted _⟩

/-- **Every step returns**, to a state that has a placement. -/
theorem next (h : Settled k place) (enabled : k.Enabled e) : ∃ k' place', k.step e = .ok k' ∧ Settled k' place' := by
  cases e with
  | alarm =>
    obtain ⟨k₁, flag, place', run, -, -, -, settled⟩ := h.callBack (fun _ => True) trivial fun _ _ _ _ _ _ _ _ => trivial
    exact ⟨_, place', run, settled⟩
  | tick n => exact ⟨_, place, rfl, h.congr (fun r => by cases r <;> rfl) rfl (fun _ => rfl) rfl rfl rfl⟩
  | _ =>
    obtain ⟨k', place', run, settled, -⟩ := h.steps enabled (by simp) (by simp)
    exact ⟨k', place', run, settled⟩

theorem of_reach {allowed : Kernel → Event → Prop} (reach : Reach kernelSystem allowed k) : ∃ place, Settled k place := by
  apply reach.invariant fun k => ∃ place, Settled k place
  · rintro k ⟨main, values, rfl⟩
    exact ⟨_, initial main values⟩
  · rintro k e k' ⟨place, h⟩ - ⟨enabled, run⟩
    obtain ⟨k'', place', run', settled⟩ := h.next enabled
    rw [run] at run'
    cases run'
    exact ⟨place', settled⟩

/-! ## What a placement says -/

theorem ready_nodup (h : Settled k place) : k.ready.Nodup := by
  have apart : ∀ {ℓ ℓ' : Level}, ℓ ≠ ℓ' → ∀ u ∈ k.readyList ℓ, ∀ v ∈ k.readyList ℓ', u ≠ v := by
    rintro ℓ ℓ' ne u hu v hv rfl
    exact ne (level_unique h hu hv)
  have nodup : ∀ ℓ, (k.readyList ℓ).Nodup := fun ℓ => h.nodup (.ready ℓ)
  rw [Kernel.ready, List.nodup_append, List.nodup_append]
  refine ⟨nodup _, ⟨nodup _, nodup _, apart (by simp)⟩, fun u hu v hv => ?_⟩
  rcases List.mem_append.1 hv with hv | hv
  · exact apart (by simp) u hu v hv
  · exact apart (by simp) u hu v hv

theorem inNoReadyList (h : Settled k place) (out : ∀ ℓ, place t ≠ .queued (.ready ℓ)) : k.InNoReadyList t := by
  intro ℓ mem
  exact out ℓ ((h.mem (.ready ℓ) t).1 mem)

theorem inNoSemaphore (h : Settled k place) (out : ∀ s, place t ≠ .queued (.waiting s)) : k.InNoSemaphore t := by
  intro s mem
  exact out s ((h.mem (.waiting s) t).1 mem)

/-- The situation of a thread by its place. -/
def situation : Place → Situation
  | .running | .absent | .held => .running
  | .finished => .finishing
  | .queued (.ready _) => .ready
  | .queued (.waiting _) => .blocked

theorem inSituation (h : Settled k place) (there : t ∈ k.live) : k.InSituation t (situation (place t)) := by
  have present := (h.live t).1 there
  have status := h.status t present
  have once : ∀ q, place t = .queued q → (k.queue q).count t = 1 :=
    fun q at_t => List.count_eq_one_of_mem (h.nodup q) ((h.mem q t).2 at_t)
  rcases at_t : place t with _ | _ | _ | _ | (ℓ | s)
  · exact absurd at_t present
  · exact absurd at_t (h.held t)
  · rw [at_t] at status
    exact ⟨status, ((h.running t).1 at_t).1, h.inNoReadyList (by simp [at_t]), h.inNoSemaphore (by simp [at_t])⟩
  · exact ⟨(h.finished t).1 at_t, h.inNoReadyList (by simp [at_t]), h.inNoSemaphore (by simp [at_t])⟩
  · rw [at_t] at status
    refine ⟨status, ⟨ℓ, once _ at_t, fun ℓ' ne mem => ?_⟩, h.inNoSemaphore (by simp [at_t])⟩
    exact ne (level_unique h mem ((h.mem (.ready ℓ) t).2 at_t))
  · rw [at_t] at status
    refine ⟨status, h.inNoReadyList (by simp [at_t]), s, once _ at_t, fun s' ne mem => ?_⟩
    have at_s := (h.mem (.waiting s') t).1 mem
    rw [at_t] at at_s
    simp only [Place.queued.injEq, Slot.waiting.injEq] at at_s
    exact ne at_s.symm

/-- The situations exclude each other. -/
theorem situation_unique (h : Settled k place) (there : t ∈ k.live) {x : Situation} (hx : k.InSituation t x) :
    x = situation (place t) := by
  have present := (h.live t).1 there
  have status := h.status t present
  cases x with
  | running =>
    rw [hx.1] at status
    rcases at_t : place t with _ | _ | _ | _ | (ℓ | s)
    all_goals first | rfl | (rw [at_t] at status; cases status)
  | ready =>
    rw [hx.1] at status
    rcases at_t : place t with _ | _ | _ | _ | (ℓ | s)
    all_goals first | rfl | exact absurd at_t present | exact absurd at_t (h.held t) | (rw [at_t] at status; cases status)
  | blocked =>
    obtain ⟨-, -, s, once, -⟩ := hx
    have mem : t ∈ (k.semaphores s).queue := List.count_pos_iff.1 (by omega)
    rw [(h.mem (.waiting s) t).1 mem]
    rfl
  | finishing =>
    rw [(h.finished t).2 hx.1]
    rfl

end Settled

open Kernel

variable {k : Kernel}

/-- **Thread conservation.** In every reachable state every live thread is in one of the four
situations, every step returns, and `UpdatePriority` keeps the threads of the ready queues. -/
theorem thread_conservation (reach : Reachable k) : (∀ t ∈ k.live, ∃! x, k.InSituation t x) ∧
    (∀ e, k.Enabled e → ∃ k', k.step e = .ok k') ∧ ∃ k', k.updatePriority = .ok k' ∧ k'.ready.Perm k.ready := by
  obtain ⟨place, h⟩ := Settled.of_reach reach
  refine ⟨?_, ?_, ?_⟩
  · intro t there
    exact ⟨_, h.inSituation there, fun x hx => h.situation_unique there hx⟩
  · intro e enabled
    obtain ⟨k', place', run, -⟩ := h.next enabled
    exact ⟨k', run⟩
  · obtain ⟨k', run, updated, -⟩ := updatePriority_ok h (fun _ => True) trivial fun _ _ _ _ _ _ _ _ => trivial
    obtain ⟨place', settled⟩ := updated.settled
    exact ⟨k', run, (List.perm_ext_iff_of_nodup settled.ready_nodup h.ready_nodup).2 updated.ready⟩

/-- Thread 1 waits on a semaphore, thread 3 ages into `L2` while thread 2 runs, is made way for, and finishes. -/
def manyTurns : List Event :=
  [.newSemaphore 5 0, .fork 1 1 60, .fork 2 2 30, .fork 3 3 45, .yield, .switchedTo, .semaphoreP 5, .switchedTo, .tick 1600, .alarm,
    .interruptReturn, .switchedTo, .finish]

theorem manyTurns_isSome : (manyTurns.foldlM Kernel.exec (Kernel.initial 0 fun _ => 0)).isSome := by decide +kernel

def afterTurns : Kernel := (manyTurns.foldlM Kernel.exec (Kernel.initial 0 fun _ => 0)).get manyTurns_isSome

theorem thread_conservation_afterTurns : (∀ t ∈ ({0, 1, 2, 3} : Finset ThreadPtr), ∃! x, afterTurns.InSituation t x) ∧
    afterTurns.currentThread = 0 ∧ (afterTurns.semaphores 5).queue = [1] ∧ afterTurns.readyList .L3 = [2] ∧
      afterTurns.toBeDestroyed = some 3 := by
  have start : Reachable (Kernel.initial 0 fun _ => 0) := .init ⟨0, _, rfl⟩
  have reach : Reachable afterTurns :=
    start.run Kernel.exec (fun _ _ _ => Kernel.exec_some) manyTurns (Option.some_get manyTurns_isSome).symm
  have live : afterTurns.live = {0, 1, 2, 3} := by decide +kernel
  have once := (thread_conservation reach).1
  rw [live] at once
  exact ⟨once, by decide +kernel, by decide +kernel, by decide +kernel, by decide +kernel⟩

end Nachos.Mp3
