import Nachos.Mp3.Kernel

/-!
# Where the threads are

The abstract view of the kernel: every thread has one place, and the ready queues and the
semaphore queues hold exactly the threads placed there, each once. `Placed k place` says
so of a state. What the list operations do to the queues is a change of one place.
-/

namespace Nachos.Mp3

/-- A queue of the kernel. -/
inductive Slot where
  | ready (ℓ : Level)
  | waiting (s : SemaphorePtr)
  deriving DecidableEq

/-- Where a thread is. A thread is held while the code that took it from a queue runs. -/
inductive Place where
  | absent
  | held
  | running
  | finished
  | queued (q : Slot)
  deriving DecidableEq

/-- In no queue, but there. -/
def Place.Free : Place → Prop
  | .held | .running | .finished => True
  | .absent | .queued _ => False

theorem Place.Free.ne_queued {p : Place} (h : p.Free) (q : Slot) : p ≠ .queued q := by
  rintro rfl
  exact h

theorem Place.Free.ne_absent {p : Place} (h : p.Free) : p ≠ .absent := by
  rintro rfl
  exact h

/-- The status of a thread by its place. -/
def Place.status : Place → ThreadStatus
  | .absent | .held => .justCreated
  | .running => .running
  | .finished | .queued (.waiting _) => .blocked
  | .queued (.ready _) => .ready

namespace Kernel

variable {k k' : Kernel} {t u : ThreadPtr} {ℓ : Level} {s : SemaphorePtr}

def queue (k : Kernel) : Slot → List ThreadPtr
  | .ready ℓ => k.readyList ℓ
  | .waiting s => (k.semaphores s).queue

@[simp] theorem queue_ready : k.queue (.ready ℓ) = k.readyList ℓ := rfl
@[simp] theorem queue_waiting : k.queue (.waiting s) = (k.semaphores s).queue := rfl

/-- The threads of the ready queues. -/
def ready (k : Kernel) : List ThreadPtr := k.readyList .L1 ++ (k.readyList .L2 ++ k.readyList .L3)

theorem mem_ready : t ∈ k.ready ↔ ∃ ℓ, t ∈ k.readyList ℓ := by
  simp only [ready, List.mem_append]
  constructor
  · rintro (h | h | h)
    · exact ⟨_, h⟩
    · exact ⟨_, h⟩
    · exact ⟨_, h⟩
  · rintro ⟨_ | _ | _, h⟩
    · exact .inl h
    · exact .inr (.inl h)
    · exact .inr (.inr h)

/-! ## The operations without their assertions -/

/-- The queue a priority belongs in. -/
def level (priority : Int) : Level := if priority ≥ 100 then .L1 else if priority ≥ 50 then .L2 else .L3

theorem level_L1 {p : Int} : level p = .L1 ↔ 100 ≤ p := by
  unfold level
  split <;> [skip; split] <;> simp <;> omega

theorem level_L2 {p : Int} : level p = .L2 ↔ 50 ≤ p ∧ p < 100 := by
  unfold level
  split <;> [skip; split] <;> simp <;> omega

theorem level_L3 {p : Int} : level p = .L3 ↔ p < 50 := by
  unfold level
  split <;> [skip; split] <;> simp <;> omega

def burstLE (k : Kernel) (a b : ThreadPtr) : Prop := k.compareBurst a b < 0

def priorityLE (k : Kernel) (a b : ThreadPtr) : Prop := k.comparePriority a b < 0

instance (k : Kernel) : DecidableRel k.burstLE := fun _ _ => inferInstanceAs (Decidable (_ < _))

instance (k : Kernel) : DecidableRel k.priorityLE := fun _ _ => inferInstanceAs (Decidable (_ < _))

theorem burstLE_iff : k.burstLE t u ↔ burstKey (k.threads t) ≤ burstKey (k.threads u) := cmpBurstTime_neg

theorem priorityLE_iff : k.priorityLE t u ↔ priorityKey (k.threads t) ≤ priorityKey (k.threads u) := cmpPriority_neg

instance (k : Kernel) : Std.Total k.burstLE where
  total a b := by
    rw [burstLE_iff, burstLE_iff]
    exact le_total _ _

instance (k : Kernel) : Std.Total k.priorityLE where
  total a b := by
    rw [priorityLE_iff, priorityLE_iff]
    exact le_total _ _

instance (k : Kernel) : IsTrans ThreadPtr k.burstLE where
  trans a b c := by
    rw [burstLE_iff, burstLE_iff, burstLE_iff]
    exact le_trans

instance (k : Kernel) : IsTrans ThreadPtr k.priorityLE where
  trans a b c := by
    rw [priorityLE_iff, priorityLE_iff, priorityLE_iff]
    exact le_trans

/-- A queue with one more thread in its place. -/
def inserted (k : Kernel) (t : ThreadPtr) : Level → List ThreadPtr
  | .L1 => (k.readyList .L1).orderedInsert k.burstLE t
  | .L2 => (k.readyList .L2).orderedInsert k.priorityLE t
  | .L3 => k.readyList .L3 ++ [t]

theorem perm_inserted : ∀ ℓ, (k.inserted t ℓ).Perm (t :: k.readyList ℓ)
  | .L1 => List.perm_orderedInsert _ t _
  | .L2 => List.perm_orderedInsert _ t _
  | .L3 => List.perm_append_singleton t _

/-- What `ReadyToRun` does when the thread is in no ready queue. -/
@[simps!] def enqueued (k : Kernel) (t : ThreadPtr) : Kernel :=
  (k.markReady t).setList (level (k.threads t).priority) ((k.markReady t).inserted t (level (k.threads t).priority))

theorem readyToRun_eq (free : ∀ ℓ, t ∉ k.readyList ℓ) : k.readyToRun t = .ok (k.enqueued t) := by
  have prio : ((k.markReady t).threads t).priority = (k.threads t).priority := by simp
  have out : ∀ ℓ, t ∉ (k.markReady t).readyList ℓ := free
  rw [readyToRun, enqueued, level]
  simp only [prio]
  split
  · rw [sortedInsert_eq (out .L1)]
    rfl
  split
  · rw [sortedInsert_eq (out .L2)]
    rfl
  · rw [append_eq (out .L3)]
    rfl

/-- What a thread that leaves a queue leaves behind. -/
@[simps!] def dequeued (k : Kernel) (ℓ : Level) (t : ThreadPtr) : Kernel := k.setList ℓ ((k.readyList ℓ).erase t)

/-- What `FindNextToRun` finds: nothing, or the front of the highest queue that is not empty. -/
inductive NextToRun (k : Kernel) : Option ThreadPtr × Kernel → Prop where
  | none : (∀ ℓ, k.readyList ℓ = []) → NextToRun k (none, k)
  | front {ℓ : Level} {t : ThreadPtr} {l : List ThreadPtr} : k.readyList ℓ = t :: l →
      (∀ ℓ', ℓ'.index < ℓ.index → k.readyList ℓ' = []) → NextToRun k (some t, k.dequeued ℓ t)

theorem findNextToRun_ok (k : Kernel) : ∃ r, k.findNextToRun = .ok r ∧ k.NextToRun r := by
  have front : ∀ {ℓ t l}, k.readyList ℓ = t :: l → k.setList ℓ l = k.dequeued ℓ t := by
    intro ℓ t l h
    rw [dequeued, h, List.erase_cons_head]
  rw [findNextToRun]
  rcases h1 : k.readyList .L1 with _ | ⟨t, l⟩
  · rcases h2 : k.readyList .L2 with _ | ⟨t, l⟩
    · rcases h3 : k.readyList .L3 with _ | ⟨t, l⟩
      · exact ⟨_, rfl, .none (by rintro (_ | _ | _) <;> assumption)⟩
      · refine ⟨_, rfl, ?_⟩
        rw [front h3]
        exact .front h3 (by rintro (_ | _ | _) h <;> first | assumption | simp [Level.index] at h)
    · refine ⟨_, rfl, ?_⟩
      rw [front h2]
      exact .front h2 (by rintro (_ | _ | _) h <;> first | assumption | simp [Level.index] at h)
  · refine ⟨_, rfl, ?_⟩
    rw [front h1]
    exact .front h1 (by rintro (_ | _ | _) h <;> simp [Level.index] at h)

/-- What `Yield` notes of the current thread before it looks for another one. -/
def charged (k : Kernel) : Kernel := k.modify k.currentThread fun th =>
  { th with useTime := th.useTime + (k.totalTicks - th.burstStartTime), waitStartTime := k.totalTicks }

theorem charged_status (t : ThreadPtr) : (k.charged.threads t).status = (k.threads t).status := by
  rw [charged, modify_threads]
  rcases eq_or_ne t k.currentThread with rfl | ne
  · rw [Function.update_self]
  · rw [Function.update_of_ne ne]

theorem charged_priority (t : ThreadPtr) : (k.charged.threads t).priority = (k.threads t).priority := by
  rw [charged, modify_threads]
  rcases eq_or_ne t k.currentThread with rfl | ne
  · rw [Function.update_self]
  · rw [Function.update_of_ne ne]

/-- The kernel that `Yield` hands to `Run`: the current thread is back in the queue of its level. -/
def yielding (k : Kernel) (ℓ : Level) (t : ThreadPtr) : Kernel :=
  ((k.charged.dequeued ℓ t).enqueued k.currentThread).setResume k.currentThread .yield

/-! ## Placements -/

/-- The queues hold the threads placed in them, each once. -/
structure Placed (k : Kernel) (place : ThreadPtr → Place) : Prop where
  live : ∀ t, t ∈ k.live ↔ place t ≠ .absent
  mem : ∀ q t, t ∈ k.queue q ↔ place t = .queued q
  nodup : ∀ q, (k.queue q).Nodup

namespace Placed

variable {place : ThreadPtr → Place} {q : Slot}

theorem not_mem (h : Placed k place) (free : (place t).Free) (q : Slot) : t ∉ k.queue q := by
  rw [h.mem]
  exact free.ne_queued q

/-- A thread that is in no queue enters one. -/
theorem enqueue (h : Placed k place) (free : (place t).Free) (perm : (k'.queue q).Perm (t :: k.queue q))
    (others : ∀ r, r ≠ q → k'.queue r = k.queue r) (live : k'.live = k.live) :
    Placed k' (Function.update place t (.queued q)) where
  live u := by
    rw [live, h.live]
    rcases eq_or_ne u t with rfl | hu
    · simpa using free.ne_absent
    · rw [Function.update_of_ne hu]
  mem r u := by
    rcases eq_or_ne u t with rfl | hu
    · rw [Function.update_self]
      rcases eq_or_ne r q with rfl | hr
      · simp [perm.mem_iff]
      · rw [others r hr]
        simpa [hr.symm] using h.not_mem free r
    · rw [Function.update_of_ne hu, ← h.mem]
      rcases eq_or_ne r q with rfl | hr
      · rw [perm.mem_iff, List.mem_cons, or_iff_right hu]
      · rw [others r hr]
  nodup r := by
    rcases eq_or_ne r q with rfl | hr
    · rw [perm.nodup_iff, List.nodup_cons]
      exact ⟨h.not_mem free r, h.nodup r⟩
    · rw [others r hr]
      exact h.nodup r

/-- A thread leaves its queue. -/
theorem dequeue (h : Placed k place) (mem : t ∈ k.queue q) (perm : (k.queue q).Perm (t :: k'.queue q))
    (others : ∀ r, r ≠ q → k'.queue r = k.queue r) (live : k'.live = k.live) :
    Placed k' (Function.update place t .held) where
  live u := by
    rw [live, h.live]
    rcases eq_or_ne u t with rfl | hu
    · simp [(h.mem q u).1 mem]
    · rw [Function.update_of_ne hu]
  mem r u := by
    have distinct := perm.nodup_iff.1 (h.nodup q)
    rcases eq_or_ne u t with rfl | hu
    · rw [Function.update_self]
      refine iff_of_false ?_ (by simp)
      rcases eq_or_ne r q with rfl | hr
      · exact (List.nodup_cons.1 distinct).1
      · rw [others r hr, h.mem, (h.mem q u).1 mem]
        simpa using hr.symm
    · rw [Function.update_of_ne hu, ← h.mem]
      rcases eq_or_ne r q with rfl | hr
      · rw [perm.mem_iff, List.mem_cons, or_iff_right hu]
      · rw [others r hr]
  nodup r := by
    rcases eq_or_ne r q with rfl | hr
    · exact (List.nodup_cons.1 (perm.nodup_iff.1 (h.nodup r))).2
    · rw [others r hr]
      exact h.nodup r

/-- A thread outside the queues changes its part. -/
theorem relabel {p : Place} (h : Placed k place) (free : (place t).Free) (free' : p.Free)
    (queues : ∀ r, k'.queue r = k.queue r) (live : k'.live = k.live) : Placed k' (Function.update place t p) where
  live u := by
    rw [live, h.live]
    rcases eq_or_ne u t with rfl | hu
    · simp [free.ne_absent, free'.ne_absent]
    · rw [Function.update_of_ne hu]
  mem r u := by
    rw [queues, h.mem]
    rcases eq_or_ne u t with rfl | hu
    · simp [free.ne_queued r, free'.ne_queued r]
    · rw [Function.update_of_ne hu]
  nodup r := by
    rw [queues]
    exact h.nodup r

theorem congr (h : Placed k place) (queues : ∀ r, k'.queue r = k.queue r) (live : k'.live = k.live) : Placed k' place where
  live u := by rw [live, h.live]
  mem r u := by rw [queues, h.mem]
  nodup r := by
    rw [queues]
    exact h.nodup r

/-- A thread is created. -/
theorem appear (h : Placed k place) (fresh : t ∉ k.live) (queues : ∀ r, k'.queue r = k.queue r)
    (live : k'.live = Insert.insert t k.live) : Placed k' (Function.update place t .held) where
  live u := by
    rw [live, Finset.mem_insert, h.live]
    rcases eq_or_ne u t with rfl | hu
    · simp
    · simp [hu]
  mem r u := by
    rw [queues, h.mem]
    rcases eq_or_ne u t with rfl | hu
    · have absent : place u = .absent := by simpa [h.live] using fresh
      simp [absent]
    · rw [Function.update_of_ne hu]
  nodup r := by
    rw [queues]
    exact h.nodup r

/-- A thread outside the queues is deleted. -/
theorem vanish (h : Placed k place) (free : (place t).Free) (queues : ∀ r, k'.queue r = k.queue r)
    (live : k'.live = k.live.erase t) : Placed k' (Function.update place t .absent) where
  live u := by
    rw [live, Finset.mem_erase, h.live]
    rcases eq_or_ne u t with rfl | hu
    · simp
    · simp [hu]
  mem r u := by
    rw [queues, h.mem]
    rcases eq_or_ne u t with rfl | hu
    · simp [free.ne_queued r]
    · rw [Function.update_of_ne hu]
  nodup r := by
    rw [queues]
    exact h.nodup r

/-- `ReadyToRun` on a thread that is in no queue. -/
theorem enqueued (h : Placed k place) (free : (place t).Free) :
    Placed (k.enqueued t) (Function.update place t (.queued (.ready (level (k.threads t).priority)))) := by
  refine h.enqueue free ?_ ?_ rfl
  · rw [queue_ready, enqueued_readyList, Function.update_self]
    exact perm_inserted _
  · rintro (ℓ | s) hr
    · rw [queue_ready, enqueued_readyList, Function.update_of_ne (by simpa using hr)]
      rfl
    · rfl

theorem dequeued (h : Placed k place) (mem : t ∈ k.readyList ℓ) :
    Placed (k.dequeued ℓ t) (Function.update place t .held) := by
  refine h.dequeue (q := .ready ℓ) mem ?_ ?_ rfl
  · rw [queue_ready, queue_ready, dequeued_readyList, Function.update_self]
    exact List.perm_cons_erase mem
  · rintro (ℓ' | s) hr
    · rw [queue_ready, dequeued_readyList, Function.update_of_ne (by simpa using hr)]
      rfl
    · rfl

end Placed

end Kernel

end Nachos.Mp3
