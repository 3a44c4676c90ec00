import Nachos.Mp3.Conservation
import Nachos.Mp3.Exclusion

/-!
# The semaphores of the kernel

The kernel stores the value and the queue of a semaphore. Over a run every semaphore has a history as
well, which `P` and `V` of the kernel extend as those of `Synch.Semaphore` do, so that what these
promise holds of the kernel. A thread that `V` has made ready tests the value again when it is switched to.
-/

namespace Nachos.Mp3
open Transition

/-- What the kernel stores of a semaphore. -/
@[simps] def Synch.Semaphore.stored (v : Synch.Semaphore ThreadPtr) : Mp3.Semaphore where
  value := v.value
  queue := v.queue

/-- One test of the loop of `P`. -/
def Synch.Semaphore.P (v : Synch.Semaphore ThreadPtr) (t : ThreadPtr) : Synch.Semaphore ThreadPtr :=
  if v.value = 0 then v.sleep t else v.take t

/-- The kernel with the history of each semaphore, and the value it was made with. -/
structure Recorded where
  kernel : Kernel
  made : SemaphorePtr → ℕ
  history : SemaphorePtr → Synch.Semaphore ThreadPtr

/-- The semaphore whose value the current thread tests in a step. -/
def Kernel.tests (k : Kernel) : Event → Option SemaphorePtr
  | .semaphoreP s => some s
  | .switchedTo =>
    match k.resume k.currentThread with
    | .wait s => some s
    | .start | .yield => none
  | _ => none

/-- The histories after a step. -/
def Recorded.advance (c : Recorded) (e : Event) (k' : Kernel) : Recorded where
  kernel := k'
  made :=
    match e with
    | .newSemaphore s n => Function.update c.made s n.toNat
    | _ => c.made
  history :=
    match c.kernel.tests e with
    | some s => Function.update c.history s ((c.history s).P c.kernel.currentThread)
    | none =>
      match e with
      | .newSemaphore s n => Function.update c.history s (.new n.toNat)
      | .semaphoreV s => Function.update c.history s (c.history s).V
      | _ => c.history

/-- The runs of the kernel with their histories. -/
def recordedSystem : Transition.System Recorded Event where
  init c := ∃ main, c.kernel = Kernel.initial main (fun s => c.made s) ∧ c.history = fun s => .new (c.made s)
  step c e c' := ∃ k', kernelSystem.step c.kernel e k' ∧ c' = c.advance e k'

/-- No semaphore is made with a negative value. -/
def Counts (_ : Recorded) : Event → Prop
  | .newSemaphore _ n => 0 ≤ n
  | _ => True

/-! ## What the operations do to the semaphores -/

section
variable {k k' : Kernel} {place : ThreadPtr → Place} {x : SemaphorePtr} {t : ThreadPtr} {v : Synch.Semaphore ThreadPtr} {fin : Bool}

theorem run_semaphores (done : k.run t fin = .ok k') : k'.semaphores = k.semaphores := by
  rw [Kernel.run] at done
  split_ifs at done with finishing destroying
  · cases done
    rfl
  · cases done
    rfl

theorem poll_semaphores (done : k.poll fin = .ok k') : k'.semaphores = k.semaphores := by
  obtain ⟨r, eq, next⟩ := Kernel.findNextToRun_ok k
  rw [Kernel.poll, eq] at done
  cases next with
  | none _ =>
    cases done
    rfl
  | @front ℓ t l _ _ => exact run_semaphores (k := k.dequeued ℓ t) done

theorem sleep_semaphores (done : k.sleep fin = .ok k') : k'.semaphores = k.semaphores :=
  poll_semaphores (k := k.modify k.currentThread (Kernel.asleep k.totalTicks)) done

theorem yield_semaphores (settled : Settled k place) (running : k.phase = .running) (done : k.yield = .ok k') :
    k'.semaphores = k.semaphores := by
  cases settled.yields running with
  | alone _ eq =>
    rw [eq] at done
    cases done
    rfl
  | hands ℓ t _ _ _ _ eq =>
    rw [eq] at done
    exact run_semaphores (k := k.yielding ℓ t) done

/-- `P` of the kernel is `P` of the thread that runs. -/
theorem kernel_P (settled : Settled k place) (running : k.phase = .running) (stored : k.semaphores x = v.stored)
    (done : k.semaphoreP x = .ok k') :
    k.currentThread ∉ v.queue ∧ k'.semaphores = Function.update k.semaphores x (v.P k.currentThread).stored := by
  have out : k.currentThread ∉ (k.semaphores x).queue :=
    settled.not_mem (Settled.free_of_running (settled.current (by simp [running]))) (.waiting x)
  rw [stored] at out
  rw [Kernel.semaphoreP, stored] at done
  refine ⟨out, ?_⟩
  by_cases zero : v.value = 0
  · rw [Synch.Semaphore.P, if_pos zero]
    simp only [Synch.Semaphore.stored_value, if_pos zero, append_eq out] at done
    exact sleep_semaphores (k := (k.setSemaphore x (v.sleep k.currentThread).stored).setResume k.currentThread (.wait x)) done
  · rw [Synch.Semaphore.P, if_neg zero]
    simp only [Synch.Semaphore.stored_value, if_neg zero] at done
    cases done
    rfl

/-- `V` of the kernel is `V`. -/
theorem kernel_V (settled : Settled k place) (stored : k.semaphores x = v.stored)
    (done : k.semaphoreV x = .ok k') : k'.semaphores = Function.update k.semaphores x v.V.stored := by
  rw [Kernel.semaphoreV, stored] at done
  cases queue : v.queue with
  | nil =>
    simp only [Synch.Semaphore.stored_queue, queue] at done
    cases done
    simp [Kernel.setSemaphore, Synch.Semaphore.stored, queue, stored]
  | cons t others =>
    simp only [Synch.Semaphore.stored_queue, queue] at done
    have at_t : place t = .queued (.waiting x) := (settled.mem (.waiting x) t).1 (by simp [stored, queue])
    let removed := k.setSemaphore x { value := v.value, queue := others }
    have free (ℓ : Level) : t ∉ removed.readyList ℓ := fun mem => by
      cases at_t.symm.trans ((settled.mem (.ready ℓ) t).1 mem)
    rw [if_pos (by simp), removeFront] at done
    change (do
      let k ← removed.readyToRun t
      pure (k.setSemaphore x { k.semaphores x with value := (k.semaphores x).value + 1 })) = .ok k' at done
    rw [Kernel.readyToRun_eq free] at done
    cases done
    have here : removed.semaphores x = ⟨v.value, others⟩ := Function.update_self ..
    change Function.update removed.semaphores x ⟨(removed.semaphores x).value + 1, (removed.semaphores x).queue⟩ =
      Function.update k.semaphores x ⟨v.value + 1, v.queue.tail⟩
    rw [here, queue]
    exact Function.update_idem (a := x) (f := k.semaphores) _ _

/-- Deleting a carcass leaves what the thread that was switched to looks at. -/
theorem checkToBeDestroyed_keeps (done : k.checkToBeDestroyed = .ok k') :
    k'.semaphores = k.semaphores ∧ k'.resume = k.resume ∧ k'.currentThread = k.currentThread := by
  rw [Kernel.checkToBeDestroyed] at done
  split at done
  · cases done
    exact ⟨rfl, rfl, rfl⟩
  · split_ifs at done
    cases done
    exact ⟨rfl, rfl, rfl⟩

end

/-! ## Runs -/

namespace Recorded

/-- Between two steps. -/
structure Kept (c : Recorded) : Prop where
  settled : ∃ place, Settled c.kernel place
  stored : ∀ s, c.kernel.semaphores s = (c.history s).stored
  sound : ∀ s, (c.history s).Sound (c.made s)

variable {c c' : Recorded} {e : Event} {k' : Kernel} {s : SemaphorePtr} {v : Synch.Semaphore ThreadPtr}

namespace Kept

/-- One semaphore changes. -/
theorem changed (h : c.Kept) (settled : ∃ place, Settled k' place) {made : SemaphorePtr → ℕ} (sound : v.Sound (made s))
    (same : ∀ u, u ≠ s → made u = c.made u) (stored : k'.semaphores = Function.update c.kernel.semaphores s v.stored) :
    Kept ⟨k', made, Function.update c.history s v⟩ := by
  refine ⟨settled, fun u => ?_, fun u => ?_⟩
  · change k'.semaphores u = (Function.update c.history s v u).stored
    rw [stored]
    by_cases this : u = s
    · subst this
      rw [Function.update_self, Function.update_self]
    · rw [Function.update_of_ne this, Function.update_of_ne this, h.stored]
  · change (Function.update c.history s v u).Sound (made u)
    by_cases this : u = s
    · subst this
      rw [Function.update_self]
      exact sound
    · rw [Function.update_of_ne this, same u this]
      exact h.sound u

theorem other (h : c.Kept) (settled : ∃ place, Settled k' place) (same : k'.semaphores = c.kernel.semaphores) :
    Kept ⟨k', c.made, c.history⟩ :=
  ⟨settled, fun s => by rw [same, h.stored], h.sound⟩

theorem tested (h : c.Kept) {k : Kernel} {place : ThreadPtr → Place} (here : Settled k place) (running : k.phase = .running)
    (same : k.semaphores = c.kernel.semaphores) (done : k.semaphoreP s = .ok k') (settled : ∃ place, Settled k' place) :
    Kept ⟨k', c.made, Function.update c.history s ((c.history s).P k.currentThread)⟩ := by
  obtain ⟨awake, stored⟩ := kernel_P here running ((congrFun same s).trans (h.stored s)) done
  rw [same] at stored
  refine h.changed settled ?_ (fun _ _ => rfl) stored
  rw [Synch.Semaphore.P]
  split_ifs with zero
  · exact (h.sound s).sleep awake zero
  · exact (h.sound s).take zero

/-- The thread that was switched to tests its semaphore again. -/
theorem switchedTo (h : c.Kept) (phase : c.kernel.phase = .switched) (settled : ∃ place, Settled k' place)
    (done : c.kernel.switchedTo = .ok k') : (c.advance .switchedTo k').Kept := by
  obtain ⟨place, here⟩ := h.settled
  obtain ⟨k₁, place₁, checked, there, -⟩ := here.checkToBeDestroyed phase
  obtain ⟨semaphores, resume, current⟩ := checkToBeDestroyed_keeps checked
  obtain ⟨k₂, again, done⟩ := bind_ok done
  obtain rfl := Except.ok.inj (checked.symm.trans again)
  dsimp only at done
  rw [show k₁.resume k₁.currentThread = c.kernel.resume c.kernel.currentThread by rw [resume, current]] at done
  simp only [advance, Kernel.tests]
  cases at' : c.kernel.resume c.kernel.currentThread with
  | start =>
    rw [at'] at done
    cases done
    exact h.other settled semaphores
  | yield =>
    rw [at'] at done
    cases done
    exact h.other settled semaphores
  | wait s =>
    rw [at'] at done
    have tested := h.tested there rfl semaphores done settled
    rw [show ({ k₁ with phase := .running } : Kernel).currentThread = c.kernel.currentThread from current] at tested
    exact tested

/-- **Every step** extends the histories as the kernel changes its semaphores. -/
theorem step (h : c.Kept) (ok : Counts c e) (run : recordedSystem.step c e c') : c'.Kept := by
  obtain ⟨k', ⟨enabled, done⟩, rfl⟩ := run
  obtain ⟨place, here⟩ := h.settled
  have settled : ∃ place, Settled k' place := by
    obtain ⟨k'', place', done', settled⟩ := here.next enabled
    rw [done] at done'
    cases done'
    exact ⟨place', settled⟩
  cases e with
  | tick n =>
    cases done
    exact h.other settled rfl
  | fork t threadID P =>
    change c.kernel.fork t threadID P = _ at done
    rw [here.fork_eq enabled.2] at done
    cases done
    exact h.other settled rfl
  | newSemaphore s n =>
    cases done
    have stored : (Synch.Semaphore.new n.toNat : Synch.Semaphore ThreadPtr).stored = ⟨n, []⟩ :=
      congrArg (Mp3.Semaphore.mk · []) (Int.toNat_of_nonneg ok)
    refine h.changed settled (v := .new n.toNat) ?_ (fun u ne => Function.update_of_ne ne ..) (by rw [stored]; rfl)
    change Synch.Semaphore.Sound (Function.update c.made s n.toNat s) _
    rw [Function.update_self]
    exact Synch.Semaphore.sound_new
  | semaphoreP s => exact h.tested here enabled rfl done settled
  | semaphoreV s => exact h.changed settled (h.sound s).V (fun _ _ => rfl) (kernel_V here (h.stored s) done)
  | yield => exact h.other settled (yield_semaphores here enabled done)
  | finish => exact h.other settled (sleep_semaphores done)
  | alarm =>
    obtain ⟨k₁, flag, place', called, updated, -, -, -⟩ := here.callBack (fun _ => True) trivial fun _ _ _ _ _ _ _ _ => trivial
    rw [Kernel.step, called] at done
    cases done
    exact h.other settled (by rw [updated.frame])
  | interruptReturn =>
    change c.kernel.interruptReturn = _ at done
    rw [Kernel.interruptReturn] at done
    split at done
    · have quiet : Settled { c.kernel with yieldOnReturn := false } place :=
        here.congr (fun r => by cases r <;> rfl) rfl (fun _ => rfl) rfl rfl rfl
      exact h.other settled (yield_semaphores (k := { c.kernel with yieldOnReturn := false }) quiet enabled done)
    · cases done
      exact h.other settled rfl
  | poll => exact h.other settled (poll_semaphores done)
  | switchedTo => exact h.switchedTo enabled settled done

theorem of_reach (reach : Reach recordedSystem Counts c) : c.Kept := by
  refine reach.invariant Kept (fun c start => ?_) fun _ _ _ h ok run => h.step ok run
  obtain ⟨main, kernel, history⟩ := start
  refine ⟨⟨_, by rw [kernel]; exact Settled.initial main _⟩, fun s => ?_, fun s => ?_⟩
  · rw [kernel, history]
    rfl
  · rw [history]
    exact Synch.Semaphore.sound_new

end Kept

end Recorded

/-- **The semaphores of the kernel** are those of their histories, and no wake-up is lost in any run. -/
theorem semaphores_correct {c : Recorded} (reach : Reach recordedSystem Counts c) (s : SemaphorePtr) :
    c.kernel.semaphores s = (c.history s).stored ∧ (c.history s).Correct (c.made s) :=
  have kept := Recorded.Kept.of_reach reach
  ⟨kept.stored s, (kept.sound s).correct⟩

end Nachos.Mp3
