import Nachos.Mp3.Conservation

/-!
# The order of the ready queues

`Ordered` holds in every reachable state: each queue holds threads whose priority belongs
there, and the sorted queues are sorted. The main thread, whose identifier is 0, is exempt:
`UpdatePriority` leaves it in its queue when its priority passes 50 or 100, so that in `L2`
it can stand behind threads it should precede. It never stands before a thread that should
precede it.
-/

namespace Nachos.Mp3
open Transition

/-- The priorities of a queue. -/
def Suits (th : Thread) : Level → Prop
  | .L1 => 100 ≤ th.priority
  | .L2 => 50 ≤ th.priority ∧ (th.priority < 100 ∨ th.ID = 0)
  | .L3 => th.priority < 50 ∨ th.ID = 0

structure Ordered (k : Kernel) : Prop where
  L1 : (k.readyList .L1).Pairwise k.burstLE
  L2 : (k.readyList .L2).Pairwise fun a b => (k.threads b).ID = 0 ∨ k.priorityLE a b
  suits : ∀ ℓ, ∀ t ∈ k.readyList ℓ, Suits (k.threads t) ℓ

namespace Ordered
open Kernel

variable {k k' k₀ : Kernel} {place : ThreadPtr → Place} {t : ThreadPtr} {ℓ : Level}

theorem suits_level (th : Thread) : Suits th (level th.priority) := by
  rcases h : level th.priority
  · exact level_L1.1 h
  · exact ⟨(level_L2.1 h).1, .inl (level_L2.1 h).2⟩
  · exact .inl (level_L3.1 h)

/-- The order depends on the queues and the threads in them. -/
theorem of_same (h : Ordered k) (lists : k'.readyList = k.readyList)
    (threads : ∀ ℓ, ∀ t ∈ k.readyList ℓ, k'.threads t = k.threads t) : Ordered k' where
  L1 := by
    rw [lists]
    refine h.L1.imp_of_mem fun ha hb le => ?_
    rwa [burstLE_iff, threads _ _ ha, threads _ _ hb, ← burstLE_iff]
  L2 := by
    rw [lists]
    refine h.L2.imp_of_mem fun ha hb le => ?_
    rwa [priorityLE_iff, threads _ _ ha, threads _ _ hb, ← priorityLE_iff]
  suits ℓ t mem := by
    rw [lists] at mem
    rw [threads ℓ t mem]
    exact h.suits ℓ t mem

theorem modify (h : Ordered k) (f : Thread → Thread) (out : ∀ ℓ, t ∉ k.readyList ℓ) : Ordered (k.modify t f) := by
  refine h.of_same rfl fun ℓ u mem => ?_
  have ne : u ≠ t := by
    rintro rfl
    exact out ℓ mem
  simp [ne]

theorem dequeued (h : Ordered k) (ℓ : Level) (t : ThreadPtr) : Ordered (k.dequeued ℓ t) := by
  have sub : ∀ ℓ', ((k.dequeued ℓ t).readyList ℓ').Sublist (k.readyList ℓ') := by
    intro ℓ'
    rw [dequeued_readyList]
    rcases eq_or_ne ℓ' ℓ with rfl | ne
    · rw [Function.update_self]
      exact List.erase_sublist
    · rw [Function.update_of_ne ne]
  exact ⟨h.L1.sublist (sub .L1), h.L2.sublist (sub .L2), fun ℓ' u mem => h.suits ℓ' u ((sub ℓ').subset mem)⟩

theorem enqueued (h : Ordered k) (out : ∀ ℓ, t ∉ k.readyList ℓ) : Ordered (k.enqueued t) := by
  have marked : Ordered (k.markReady t) := h.modify _ out
  have list : ∀ ℓ, (k.enqueued t).readyList ℓ = if ℓ = level (k.threads t).priority then (k.markReady t).inserted t ℓ
      else k.readyList ℓ := by
    intro ℓ
    rw [enqueued_readyList]
    split
    · next eq => rw [eq, Function.update_self]
    · next ne => rw [Function.update_of_ne ne]; rfl
  refine ⟨?_, ?_, ?_⟩
  · rw [list]
    split
    · exact marked.L1.orderedInsert t _
    · exact marked.L1
  · rw [list]
    split
    · exact Queue.pairwise_orderedInsert t marked.L2
    · exact marked.L2
  · intro ℓ u mem
    rw [list] at mem
    split at mem
    · next eq =>
      rcases List.mem_cons.1 ((perm_inserted ℓ).mem_iff.1 mem) with rfl | mem
      · rw [eq]
        have suits := suits_level ((k.enqueued u).threads u)
        have prio : ((k.enqueued u).threads u).priority = (k.threads u).priority := by simp
        rwa [prio] at suits
      · exact marked.suits ℓ u mem
    · exact marked.suits ℓ u mem

theorem moves (h : Ordered k₀) (moves : Moves k₀ k) : Ordered k := by
  induction moves with
  | refl => exact h
  | edit f _ out ih => exact ih.modify f out
  | enqueue _ out _ ih => exact ih.enqueued out
  | dequeue _ _ ih => exact ih.dequeued _ _
  | other _ threads lists _ ih => exact ih.of_same lists fun _ t _ => congrFun threads t

/-- A visit re-establishes the order of the thread it ages. -/
theorem visit (h : Ordered k) (settled : Settled k place) (mem : t ∈ k.readyList ℓ) (visit : Visit k ℓ t k') :
    Ordered k' := by
  have out : ∀ ℓ', t ∉ (k.dequeued ℓ t).readyList ℓ' :=
    fun ℓ' => (settled.dequeued mem).not_mem (by rw [Function.update_self]; trivial) (.ready ℓ')
  have only : ∀ ℓ', ℓ' ≠ ℓ → ∀ u ∈ k.readyList ℓ', u ≠ t := by
    rintro ℓ' ne u hu rfl
    exact ne (level_unique settled hu mem)
  cases visit with
  | requeued _ => exact ((h.dequeued ℓ t).modify (agedThread k.totalTicks) out).enqueued out
  | stays stays =>
    have visit : Visit k ℓ t (k.aged t) := .stays stays
    have key : ∀ u, burstKey ((k.aged t).threads u) = burstKey (k.threads u) := by
      intro u
      rcases eq_or_ne u t with rfl | ne
      · simp [burstKey, agedThread]
      · rw [visit.others ne]
    have here : ((k.aged t).threads t).priority = (agedThread k.totalTicks (k.threads t)).priority := by simp
    have suits := h.suits ℓ t mem
    refine ⟨?_, ?_, ?_⟩
    · refine h.L1.imp fun {a b} le => ?_
      rwa [burstLE_iff, key, key, ← burstLE_iff]
    · refine h.L2.imp_of_mem fun {a b} ha hb le => ?_
      rw [visit.ID]
      rcases eq_or_ne b t with rfl | hb'
      · -- The main thread keeps its place.
        have eq := level_unique settled mem hb
        subst eq
        exact .inl stays.2
      refine le.imp_right fun le => ?_
      rcases eq_or_ne a t with rfl | ha'
      · have eq := level_unique settled mem ha
        subst eq
        have up := upgraded_iff.1 stays.1
        exact visit.priorityLE (by omega) hb' le
      · rwa [priorityLE_iff, visit.others ha', visit.others hb', ← priorityLE_iff]
    · intro ℓ' u hu
      rcases eq_or_ne u t with rfl | ne
      · have eq := level_unique settled mem hu
        subst eq
        have raised := aged_priority (k := k) (t := u)
        have ID := visit.ID u
        have up := upgraded_iff (k := k) (t := u)
        cases ℓ with
        | L1 =>
          change 100 ≤ ((k.aged u).threads u).priority
          change 100 ≤ (k.threads u).priority at suits
          have := Thread.le_raised (q := 100) (by omega) suits
          rw [here, raised]
          split <;> omega
        | L2 =>
          change 50 ≤ ((k.aged u).threads u).priority ∧ (_ ∨ ((k.aged u).threads u).ID = 0)
          have := up.1 stays.1
          have := suits.1
          rw [here, ID]
          exact ⟨by omega, .inr stays.2⟩
        | L3 =>
          change ((k.aged u).threads u).priority < 50 ∨ ((k.aged u).threads u).ID = 0
          rw [here, ID]
          rcases suits with low | main
          · by_cases moved : k.upgraded u = true
            · exact .inr (stays moved)
            · rw [up] at moved
              omega
          · exact .inr main
      · rw [visit.others ne]
        exact h.suits ℓ' u hu

theorem step (h : Ordered k) (settled : Settled k place) {e : Event} (enabled : k.Enabled e) (run : k.step e = .ok k') :
    Ordered k' := by
  by_cases alarm : e = .alarm
  · subst alarm
    obtain ⟨k₁, flag, place', run', -, ordered, -, -⟩ := settled.callBack Ordered h
      fun ℓ k t k' here ordered mem visited => here.elim fun _ settled => ordered.visit settled mem visited
    rw [Kernel.step, run'] at run
    cases run
    exact ordered.of_same rfl fun _ _ _ => rfl
  by_cases tick : ∃ n, e = .tick n
  · obtain ⟨n, rfl⟩ := tick
    cases run
    exact h.of_same rfl fun _ _ _ => rfl
  · obtain ⟨k'', place', run', -, moved⟩ := settled.steps enabled alarm fun n eq => tick ⟨n, eq⟩
    rw [run'] at run
    cases run
    exact h.moves moved

theorem of_reach {allowed : Kernel → Event → Prop} (reach : Reach kernelSystem allowed k) :
    ∃ place, Settled k place ∧ Ordered k := by
  apply reach.invariant fun k => ∃ place, Settled k place ∧ Ordered k
  · rintro k ⟨main, values, rfl⟩
    exact ⟨_, Settled.initial main values, .nil, .nil, fun _ _ mem => (List.not_mem_nil mem).elim⟩
  · rintro k e k' ⟨place, settled, ordered⟩ - ⟨enabled, run⟩
    obtain ⟨k'', place', run', settled'⟩ := settled.next enabled
    have ordered' := ordered.step settled enabled run
    rw [run'] at run
    cases run
    exact ⟨place', settled', ordered'⟩

end Ordered

/-! ## What the order says of the threads other than the main one -/

namespace Kernel

/-- The threads of a queue other than the main thread. -/
def others (k : Kernel) (ℓ : Level) : List ThreadPtr := (k.readyList ℓ).filter fun t => (k.threads t).ID ≠ 0

/-- The queues hold the priorities that belong there and are sorted, the main thread apart. -/
structure Disciplined (k : Kernel) : Prop where
  priorityL1 : ∀ t ∈ k.others .L1, 100 ≤ (k.threads t).priority
  sortedL1 : (k.others .L1).Pairwise fun a b => cmpBurstTime (k.threads a) (k.threads b) < 0
  priorityL2 : ∀ t ∈ k.others .L2, 50 ≤ (k.threads t).priority ∧ (k.threads t).priority < 100
  sortedL2 : (k.others .L2).Pairwise fun a b => cmpPriority (k.threads a) (k.threads b) < 0
  priorityL3 : ∀ t ∈ k.others .L3, (k.threads t).priority < 50

/-- No ready thread with a positive identifier should have been taken instead; when no
thread is taken, none is ready. -/
def Best (k : Kernel) : Option ThreadPtr → Prop
  | none => ∀ ℓ, k.readyList ℓ = []
  | some t => ∃ ℓ, t ∈ k.readyList ℓ ∧ ∀ ℓ' u, u ∈ k.readyList ℓ' → (k.threads u).ID > 0 →
      ¬ ℓ'.index < ℓ.index ∧
      (ℓ = .L1 → ℓ' = .L1 → (k.threads t).remaining ≤ (k.threads u).remaining) ∧
      (ℓ = .L2 → ℓ' = .L2 → (k.threads u).priority ≤ (k.threads t).priority)

end Kernel

open Kernel

variable {k : Kernel}

theorem Ordered.disciplined (h : Ordered k) : k.Disciplined := by
  have suits : ∀ ℓ, ∀ t ∈ k.others ℓ, Suits (k.threads t) ℓ ∧ (k.threads t).ID ≠ 0 := by
    intro ℓ t mem
    obtain ⟨mem, other⟩ := List.mem_filter.1 mem
    exact ⟨h.suits ℓ t mem, by simpa using other⟩
  refine ⟨?_, ?_, ?_, ?_, ?_⟩
  · intro t mem
    exact (suits .L1 t mem).1
  · exact h.L1.sublist List.filter_sublist
  · intro t mem
    obtain ⟨⟨low, high⟩, other⟩ := suits .L2 t mem
    exact ⟨low, high.resolve_right other⟩
  · refine (h.L2.sublist List.filter_sublist).imp_of_mem fun _ hb le => ?_
    exact le.resolve_left (suits .L2 _ hb).2
  · intro t mem
    obtain ⟨low, other⟩ := suits .L3 t mem
    exact low.resolve_right other

theorem Ordered.best (h : Ordered k) {next : Option ThreadPtr × Kernel} (found : k.NextToRun next) : k.Best next.1 := by
  cases found with
  | none empty => exact empty
  | @front ℓ t l front above =>
    refine ⟨ℓ, by simp [front], fun ℓ' u mem other => ⟨fun less => ?_, ?_, ?_⟩⟩
    · rw [above ℓ' less] at mem
      exact List.not_mem_nil mem
    · rintro rfl rfl
      have sorted := h.L1
      rw [front] at mem sorted
      rcases List.mem_cons.1 mem with rfl | mem
      · exact le_rfl
      · exact remaining_le ((List.pairwise_cons.1 sorted).1 u mem)
    · rintro rfl rfl
      have sorted := h.L2
      rw [front] at mem sorted
      rcases List.mem_cons.1 mem with rfl | mem
      · exact le_rfl
      · exact priority_le (((List.pairwise_cons.1 sorted).1 u mem).resolve_left (by omega))

/-- **Queue discipline.** In every reachable state the queues are in order, and
`FindNextToRun` takes a thread that no other should have been preferred to. -/
theorem queue_discipline (reach : Reachable k) :
    k.Disciplined ∧ ∃ next k', k.findNextToRun = .ok (next, k') ∧ k.Best next := by
  obtain ⟨place, -, ordered⟩ := Ordered.of_reach reach
  obtain ⟨⟨next, k'⟩, run, found⟩ := findNextToRun_ok k
  exact ⟨ordered.disciplined, next, k', run, ordered.best found⟩

theorem queue_discipline_forked : ∃ k₁ k₂, (Kernel.initial 0 fun _ => 0).step (.fork 1 1 60) = .ok k₁ ∧
    k₁.step (.fork 2 2 70) = .ok k₂ ∧ k₂.readyList .L2 = [2, 1] ∧ k₂.Disciplined := by
  have start : Reachable (Kernel.initial 0 fun _ => 0) := .init ⟨0, _, rfl⟩
  have one : Reachable _ := start.next (.fork 1 1 60) ⟨rfl, by decide⟩ rfl
  have two : Reachable _ := one.next (.fork 2 2 70) ⟨rfl, by decide⟩ rfl
  exact ⟨_, _, rfl, rfl, by decide, (queue_discipline two).1⟩

end Nachos.Mp3
